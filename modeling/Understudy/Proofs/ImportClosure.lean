import Understudy.Proofs.FileTexts
import Understudy.Proofs.LoadOrder

namespace Understudy

namespace ModuleSet

def rootPaths (s : ModuleSet) : List String := s.rootModules.map (·.path)

def IsRooted (s : ModuleSet) : Prop := ∀ i ∈ s.roots, i < s.modules.length

section Roots

variable {s : ModuleSet} {path : String}

theorem contains_markRoot (s : ModuleSet) (path other : String) :
    (s.markRoot path).contains other = s.contains other := by
  rw [contains, index?, modules_markRoot]
  rfl

theorem imports_markRoot (s : ModuleSet) (path : String) :
    (s.markRoot path).Imports = s.Imports := by
  unfold Imports
  rw [modules_markRoot]

theorem rootPaths_eq (s : ModuleSet) :
    s.rootPaths = s.roots.filterMap ((s.modules.map (·.path))[·]?) := by
  rw [rootPaths, rootModules, List.map_filterMap]
  refine List.filterMap_congr fun i _ ↦ ?_
  rw [List.getElem?_map]

theorem rootPaths_append {modules later : List Module} {roots : List Nat}
    (h : IsRooted ⟨modules, roots⟩) :
    rootPaths ⟨modules ++ later, roots⟩ = rootPaths ⟨modules, roots⟩ := by
  rw [rootPaths, rootPaths, rootModules, rootModules]
  congr 1
  refine List.filterMap_congr fun i hi ↦ ?_
  rw [List.getElem?_append_left (h i hi)]

theorem getElem?_of_index? {i : Nat} (h : s.index? path = some i) :
    (s.modules.map (·.path))[i]? = some path := by
  obtain ⟨hi, hpath, -⟩ := List.findIdx?_eq_some_iff_getElem.1 h
  rw [List.getElem?_map, List.getElem?_eq_getElem hi, Option.map_some, of_decide_eq_true hpath]

theorem mem_roots_iff {i : Nat} (hnodup : (s.modules.map (·.path)).Nodup)
    (h : s.index? path = some i) : i ∈ s.roots ↔ path ∈ s.rootPaths := by
  have hi := getElem?_of_index? h
  rw [rootPaths_eq, List.mem_filterMap]
  constructor
  · exact fun hmem ↦ ⟨i, hmem, hi⟩
  · rintro ⟨j, hmem, hj⟩
    have hlt : j < (s.modules.map (·.path)).length := (List.getElem?_eq_some_iff.1 hj).1
    rwa [← (List.getElem?_inj hlt hnodup).1 (hj.trans hi.symm)]

theorem markRoot_eq {i : Nat} (hnodup : (s.modules.map (·.path)).Nodup)
    (h : s.index? path = some i) :
    s.markRoot path = if path ∈ s.rootPaths then s else ⟨s.modules, s.roots ++ [i]⟩ := by
  rw [markRoot, h]
  dsimp only
  by_cases hi : i ∈ s.roots
  · rw [if_pos hi, if_pos ((mem_roots_iff hnodup h).1 hi)]
  · rw [if_neg hi, if_neg fun hp ↦ hi ((mem_roots_iff hnodup h).2 hp)]

theorem rootPaths_markRoot (hnodup : (s.modules.map (·.path)).Nodup) (hp : s.contains path = true) :
    (s.markRoot path).rootPaths = if path ∈ s.rootPaths then s.rootPaths
    else s.rootPaths ++ [path] := by
  obtain ⟨i, hi⟩ := Option.isSome_iff_exists.1 hp
  rw [markRoot_eq hnodup hi]
  split
  · rfl
  · rw [rootPaths_eq, rootPaths_eq, List.filterMap_append]
    congr 1
    rw [List.filterMap_cons_some (getElem?_of_index? hi), List.filterMap_nil]

theorem IsRooted.markRoot (h : s.IsRooted) (hnodup : (s.modules.map (·.path)).Nodup)
    (hp : s.contains path = true) : (s.markRoot path).IsRooted := by
  obtain ⟨i, hi⟩ := Option.isSome_iff_exists.1 hp
  rw [markRoot_eq hnodup hi]
  split
  · exact h
  · refine List.forall_mem_append.2 ⟨h, List.forall_mem_singleton.2 ?_⟩
    exact (List.findIdx?_eq_some_iff_getElem.1 hi).1

end Roots

end ModuleSet

namespace Library

open ModulePath (ofRequest requested unvendor)

variable {lib : Library}

/-- The import paths in all files that can be read have no white space around them and no slash
behind them. -/
def IsSpelled (lib : Library) : Prop :=
  ∀ path directory files s s', lib.readFiles path directory s = .ok files s' →
    ∀ r ∈ wanted files, ofRequest r = r

theorem isSpelled_of_allRequests (h : ∀ r ∈ lib.allRequests, ofRequest r = r) : lib.IsSpelled :=
  fun _ _ _ _ _ hread r hr ↦ h r (mem_allRequests hread hr)

section Reach

/-- Each module that came in is imported, through others or not, by one of these paths. -/
def Reaches (starts : List String) (a b : ModuleSet) : Prop :=
  ∀ m ∈ b.modules, m ∈ a.modules ∨ ∃ path ∈ starts, Relation.ReflTransGen b.Imports path m.path

variable {loading : List String} {a b c : ModuleSet} {starts others : List String}

theorem Grows.exists_append (h : lib.Grows loading a b) :
    ∃ later, b = ⟨a.modules ++ later, a.roots⟩ := by
  induction h with
  | refl => exact ⟨[], by rw [List.append_nil]⟩
  | tail _ hadds ih =>
    cases hadds with
    | @intro request directory files deps m hmakes hfresh hfree =>
      obtain ⟨later, rfl⟩ := ih
      refine ⟨later ++ [m], ?_⟩
      rw [ModuleSet.insert_of_fresh hfresh, List.append_assoc]

theorem Grows.isRooted (h : lib.Grows loading a b) (ha : a.IsRooted) : b.IsRooted := by
  obtain ⟨later, rfl⟩ := h.exists_append
  intro i hi
  rw [List.length_append]
  exact Nat.lt_add_right _ (ha i hi)

theorem Grows.rootPaths (h : lib.Grows loading a b) (ha : a.IsRooted) :
    b.rootPaths = a.rootPaths := by
  obtain ⟨later, rfl⟩ := h.exists_append
  exact ModuleSet.rootPaths_append ha

theorem Grows.subset (h : lib.Grows loading a b) {m : Module} (hm : m ∈ a.modules) :
    m ∈ b.modules := by
  obtain ⟨later, rfl⟩ := h.exists_append
  exact List.mem_append_left _ hm

theorem Grows.imports (h : lib.Grows loading a b) {p q : String}
    (hpq : Relation.ReflTransGen a.Imports p q) :
    Relation.ReflTransGen b.Imports p q := by
  refine Relation.ReflTransGen.mono ?_ _ _ hpq
  rintro x y ⟨m, hm, hx, hy⟩
  exact ⟨m, h.subset hm, hx, hy⟩

theorem Reaches.trans (hab : Reaches starts a b) (hbc : Reaches others b c)
    (hgrows : lib.Grows loading b c) :
    Reaches (starts ++ others) a c := by
  intro m hm
  rcases hbc m hm with hm | ⟨path, hpath, hreach⟩
  · rcases hab m hm with hm | ⟨path, hpath, hreach⟩
    · exact .inl hm
    · exact .inr ⟨path, List.mem_append_left _ hpath, hgrows.imports hreach⟩
  · exact .inr ⟨path, List.mem_append_right _ hpath, hreach⟩

theorem reaches_loadAll {n : Nat}
    (h : ∀ request s path s', lib.loadWithin n loading request s = .ok path s' →
      Reaches [requested request] s.modules s'.modules) {requests : List String} {s s' : Session}
    (hrun : lib.loadAll n loading requests s = .ok () s') :
    Reaches (requests.map requested) s.modules s'.modules := by
  induction requests generalizing s with
  | nil =>
    cases hrun
    exact fun m hm ↦ .inl hm
  | cons request rest ih =>
    obtain ⟨path, s₁, hfirst, hrest⟩ := exists_of_loadAll_cons hrun
    have hgrows := grows_loadAll (lib.extends_loadWithin n loading) rest s₁
    rw [Load.after_ok hrest] at hgrows
    exact (h request s path s₁ hfirst).trans (ih hrest) hgrows

theorem Makes.reaches {request directory : String} {files : List ReadFile} {m : Module}
    (h : lib.Makes request directory files b m) (hfresh : b.contains m.path = false)
    (hspelled : ∀ r ∈ wanted files, ofRequest r = r)
    (hb : Reaches ((wanted files).map requested) a b) :
    Reaches [requested request] a (b.insert m) := by
  have hmodules : (b.insert m).modules = b.modules ++ [m] := by
    rw [ModuleSet.insert_of_fresh hfresh]
  have hgrows : lib.Grows [] b (b.insert m) := .single (.intro h hfresh List.not_mem_nil)
  have hm : m ∈ (b.insert m).modules :=
    hmodules ▸ List.mem_append_right _ (List.mem_singleton_self _)
  rw [← h.path]
  intro m' hm'
  rw [hmodules] at hm'
  rcases List.mem_append.1 hm' with hm' | hm'
  · rcases hb m' hm' with hm' | ⟨path, hpath, hreach⟩
    · exact .inl hm'
    · obtain ⟨r, hr, rfl⟩ := List.mem_map.1 hpath
      have himport : requested r ∈ m.imports := by
        rw [requested, hspelled r hr]
        exact h.mem_imports hr
      exact .inr ⟨m.path, List.mem_singleton_self _,
        .head ⟨m, hm, rfl, himport⟩ (hgrows.imports hreach)⟩
  · obtain rfl := List.mem_singleton.1 hm'
    exact .inr ⟨_, List.mem_singleton_self _, .refl⟩

/-- Where imports are spelled as requests are, all that comes in is imported from the module asked
for. -/
theorem reaches_loadWithin (hspelled : lib.IsSpelled) {n : Nat} {loading : List String}
    {request path : String} {s s' : Session}
    (hrun : lib.loadWithin n loading request s = .ok path s') :
    Reaches [requested request] s.modules s'.modules := by
  induction n generalizing loading request path s s' with
  | zero => cases hrun
  | succ n ih =>
    have hvisits := lib.visits_loadWithin n loading request s
    rw [hrun] at hvisits
    cases hvisits with
    | known h => exact fun m hm ↦ .inl hm
    | @loaded directory files s₁ s₂ s₃ hopens h hclean hs =>
      obtain ⟨hmakes, hfresh, hfree⟩ := hopens.adds (lib.extends_loadWithin n) h hclean
      rw [hs, ← hopens.modules]
      exact hmakes.reaches hfresh (hspelled _ _ _ _ _ hopens.read)
        (reaches_loadAll (fun _ _ _ _ ↦ ih) h)

end Reach

/-- What holds of a set that requests were loaded into. -/
structure Holds (lib : Library) (requests : List String) (s : ModuleSet) : Prop where
  built : lib.Built s.modules
  isRooted : s.IsRooted
  roots : s.rootPaths = (requests.map requested).eraseDups
  contains : ∀ r ∈ requests, s.contains (requested r) = true
  reaches : lib.IsSpelled → ∀ m ∈ s.modules, ∃ r ∈ requests, Relation.ReflTransGen s.Imports
      (requested r) m.path

theorem holds_nil : lib.Holds [] .empty :=
  ⟨.nil, List.forall_mem_nil _, rfl, List.forall_mem_nil _, fun _ ↦ List.forall_mem_nil _⟩

theorem Holds.load {requests : List String} {request path : String} {s s' : Session}
    (h : lib.Holds requests s.modules) (hrun : lib.load request s = .ok path s') :
    lib.Holds (requests ++ [request]) (s'.modules.markRoot path) := by
  have hextends := lib.extends_loadWithin (lib.allRequests.length + 2) [] request s
  rw [← Library.load, hrun] at hextends
  have hgrows : lib.Grows [] s.modules s'.modules := hextends.grows
  obtain ⟨rfl, hp⟩ := hextends.result rfl
  have hbuilt := hgrows.built h.built
  refine ⟨?_, (hgrows.isRooted h.isRooted).markRoot hbuilt.nodup hp, ?_, ?_, ?_⟩
  · rwa [ModuleSet.modules_markRoot]
  · rw [ModuleSet.rootPaths_markRoot hbuilt.nodup hp, hgrows.rootPaths h.isRooted, h.roots,
      List.map_append, List.map_singleton, eraseDups_append_singleton]
    simp only [List.mem_eraseDups]
  · intro r hr
    rw [ModuleSet.contains_markRoot]
    rcases List.mem_append.1 hr with hr | hr
    · exact hgrows.contains (h.contains r hr)
    · rwa [List.mem_singleton.1 hr]
  · intro hspelled m hm
    rw [ModuleSet.modules_markRoot] at hm
    rw [ModuleSet.imports_markRoot]
    rcases reaches_loadWithin hspelled hrun m hm with hm | ⟨q, hq, hreach⟩
    · obtain ⟨r, hr, hreach⟩ := h.reaches hspelled m hm
      exact ⟨r, List.mem_append_left _ hr, hgrows.imports hreach⟩
    · rw [List.mem_singleton.1 hq] at hreach
      exact ⟨request, List.mem_append_right _ (List.mem_singleton_self _), hreach⟩

theorem Holds.loadRoots {done requests : List String} {s s' : Session}
    (h : lib.Holds done s.modules) (hrun : lib.loadRoots requests s = .ok () s') :
    lib.Holds (done ++ requests) s'.modules := by
  induction requests generalizing done s with
  | nil =>
    cases hrun
    rwa [List.append_nil]
  | cons request rest ih =>
    obtain ⟨path, s₁, hfirst, hrest⟩ := exists_of_loadRoots_cons hrun
    have hholds := ih (h.load hfirst) hrest
    rwa [List.append_assoc] at hholds

/-- A set is the closure of requests under imports, in the order of dependency. -/
structure IsClosure (lib : Library) (requests : List String) (s : ModuleSet) : Prop where
  nodup : (s.modules.map (·.path)).Nodup
  /-- What a module imports came in before it. -/
  ordered : ∀ before m after, s.modules = before ++ m :: after →
      ∀ path ∈ m.imports, path ∈ before.map (·.path)
  acyclic : ∀ path, ¬ Relation.TransGen s.Imports path path
  /-- No request leads to files that need each other in a circle. -/
  noCycle : ∀ r ∈ requests, ∀ path, Relation.ReflTransGen lib.Needs (requested r) path →
    ¬ Relation.TransGen lib.Needs path path
  roots : s.rootModules.map (·.path) = (requests.map requested).eraseDups
  reachable : lib.IsSpelled →
    ∀ m ∈ s.modules, ∃ root ∈ s.rootModules, Relation.ReflTransGen s.Imports root.path m.path

theorem isClosure_loadRoots {requests : List String} {s : Session}
    (h : lib.loadRoots requests .start = .ok () s) :
    lib.IsClosure requests s.modules := by
  have hholds : lib.Holds ([] ++ requests) s.modules := Holds.loadRoots holds_nil h
  rw [List.nil_append] at hholds
  have hbuilt := hholds.built
  refine ⟨hbuilt.nodup, ?_, ?_, ?_, hholds.roots, ?_⟩
  · intro before m after hs path hpath
    obtain ⟨request, directory, files, roots, hmakes⟩ := hbuilt.makes hs
    exact ModuleSet.contains_eq_true.1 (hmakes.contains_imports path hpath)
  · exact ModuleSet.not_transGen_of_position fun a b hab ↦ hbuilt.position_of_imports hab
  · intro r hr path hreach
    exact hbuilt.not_transGen_needs (ModuleSet.contains_eq_true.1 (hholds.contains r hr)) hreach
  · intro hspelled m hm
    obtain ⟨r, hr, hreach⟩ := hholds.reaches hspelled m hm
    have hroot : requested r ∈ s.modules.rootPaths := by
      rw [hholds.roots]
      exact List.mem_eraseDups.2 (List.mem_map_of_mem hr)
    obtain ⟨root, hroot, hpath⟩ := List.mem_map.1 hroot
    exact ⟨root, hroot, hpath ▸ hreach⟩

section Shop

/-- Two modules import a third one, and one of them imports the other. -/
def shop : Library :=
  ⟨.default, ⟨[(["", "", "app"], .directory), (["", "", "store"], .directory),
    (["", "", "log"], .directory),
    (["", "", "app", "app.api"], .file (some "package app\nimport \"store\"\nimport \"log\"\n")),
    (["", "", "store", "store.api"], .file (some "package store\nimport \"log\"\n")),
    (["", "", "log", "log.api"], .file (some "package log\ntype Level int\n"))]⟩⟩

theorem isSpelled_shop : shop.IsSpelled := by
  refine isSpelled_of_allRequests ?_
  have hrequests : shop.allRequests = ["store", "log", "log"] := by decide +kernel
  rw [hrequests]
  decide +kernel

theorem isClosure_loadRoots_shop :
    ∃ s, shop.loadRoots ["store/", "app", " log", "app/"] .start = .ok () s ∧
      s.modules.modules.map (·.path) = ["log", "store", "app"] ∧
      s.modules.rootModules.map (·.path) = ["store", "app", "log"] ∧
      shop.IsClosure ["store/", "app", " log", "app/"] s.modules ∧ shop.IsSpelled := by
  have hvalue : (shop.loadRoots ["store/", "app", " log", "app/"]).value? .start = some () := by
    decide +kernel
  have hrun := Load.eq_ok_of_value? hvalue
  have hclosure := isClosure_loadRoots hrun
  refine ⟨_, hrun, by decide +kernel, ?_, hclosure, isSpelled_shop⟩
  rw [hclosure.roots]
  decide +kernel

end Shop

end Library

end Understudy
