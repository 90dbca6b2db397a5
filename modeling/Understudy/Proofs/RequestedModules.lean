import Understudy.Proofs.ImportClosure
import Understudy.Proofs.NameClosure

namespace Understudy

namespace ModuleSet

theorem get?_markRoot (s : ModuleSet) (path other : String) :
    (s.markRoot path).get? other = s.get? other := by
  rw [get?, modules_markRoot, get?]

theorem path_of_get? {s : ModuleSet} {path : String} {m : Module} (h : s.get? path = some m) :
    m.path = path := by
  simpa using List.find?_some h

theorem mem_of_mem_rootModules {s : ModuleSet} {m : Module} (h : m ∈ s.rootModules) :
    m ∈ s.modules := by
  obtain ⟨i, -, hi⟩ := List.mem_filterMap.1 h
  exact List.mem_of_getElem? hi

theorem mem_rootModules_of_get? {s : ModuleSet} {path : String} {m : Module}
    (hnodup : (s.modules.map (·.path)).Nodup) (hroot : path ∈ s.rootModules.map (·.path))
    (h : s.get? path = some m) : m ∈ s.rootModules := by
  obtain ⟨m', hm', rfl⟩ := List.mem_map.1 hroot
  rw [get?_of_mem hnodup (mem_of_mem_rootModules hm')] at h
  cases h
  exact hm'

end ModuleSet

namespace Library

open ModulePath (ofRequest requested)

variable {lib : Library}

/-- A module is made of the files in the directory that a request leads to. -/
def Builds (lib : Library) (request : String) (m : Module) : Prop :=
  ∃ directory files deps, lib.Makes request directory files deps m

theorem Builds.path {request : String} {m : Module} (h : lib.Builds request m) :
    m.path = requested request := by
  obtain ⟨directory, files, deps, hmakes⟩ := h
  exact hmakes.path

theorem Builds.congr {request request' : String} {m : Module} (h : lib.Builds request m)
    (hpath : requested request' = requested request)
    (hlocate : lib.locate (ofRequest request') (requested request') =
      lib.locate (ofRequest request) (requested request)) : lib.Builds request' m := by
  obtain ⟨directory, files, deps, hmakes⟩ := h
  refine ⟨directory, files, deps, hlocate.trans hmakes.located, ?_, hmakes.loaded, ?_, ?_⟩
  · rw [hpath]
    exact hmakes.read
  · rw [hpath]
    exact hmakes.clean
  · rw [hpath]
    exact hmakes.eq_module

/-- Each module in the set is built for one of these requests. -/
def ComesFrom (lib : Library) (sources : List String) (s : ModuleSet) : Prop :=
  ∀ m ∈ s.modules, ∃ q ∈ sources, lib.Builds q m

theorem comesFrom_empty (lib : Library) (sources : List String) : lib.ComesFrom sources .empty :=
  List.forall_mem_nil _

theorem ComesFrom.markRoot {sources : List String} {s : ModuleSet} (h : lib.ComesFrom sources s)
    (path : String) : lib.ComesFrom sources (s.markRoot path) := by
  rw [ComesFrom, ModuleSet.modules_markRoot]
  exact h

section Sources

variable {sources : List String} (himports : lib.allRequests ⊆ sources)

theorem comesFrom_loadAll {n : Nat} {loading : List String}
    (h : ∀ request ∈ sources, ∀ s path s', lib.ComesFrom sources s.modules →
      lib.loadWithin n loading request s = .ok path s' → lib.ComesFrom sources s'.modules)
    {requests : List String} (hrequests : requests ⊆ sources) {s s' : Session}
    (hs : lib.ComesFrom sources s.modules) (hrun : lib.loadAll n loading requests s = .ok () s') :
    lib.ComesFrom sources s'.modules := by
  induction requests generalizing s with
  | nil =>
    cases hrun
    exact hs
  | cons request rest ih =>
    obtain ⟨path, s₁, hfirst, hrest⟩ := exists_of_loadAll_cons hrun
    obtain ⟨hmem, hsub⟩ := List.cons_subset.1 hrequests
    exact ih hsub (h request hmem s path s₁ hs hfirst) hrest

include himports

theorem comesFrom_loadWithin {n : Nat} {loading : List String} {request path : String}
    (hrequest : request ∈ sources) {s s' : Session} (hs : lib.ComesFrom sources s.modules)
    (hrun : lib.loadWithin n loading request s = .ok path s') :
    lib.ComesFrom sources s'.modules := by
  induction n generalizing loading request path s s' with
  | zero => cases hrun
  | succ n ih =>
    have hvisits := lib.visits_loadWithin n loading request s
    rw [hrun] at hvisits
    cases hvisits with
    | known h => exact hs
    | @loaded directory files s₁ s₂ s₃ hopens h hclean hset =>
      obtain ⟨hmakes, hfresh, hfree⟩ := hopens.adds (lib.extends_loadWithin n) h hclean
      have hwanted : wanted files ⊆ sources := fun r hr ↦ himports (mem_allRequests hopens.read hr)
      have hall : lib.ComesFrom sources s₂.modules :=
        comesFrom_loadAll (fun _ hr _ _ _ ↦ ih hr) hwanted (hopens.modules ▸ hs) h
      rw [ComesFrom, hset, ModuleSet.insert_of_fresh hfresh]
      have hnew : lib.Builds request _ := ⟨directory, files, _, hmakes⟩
      exact List.forall_mem_append.2 ⟨hall, List.forall_mem_singleton.2 ⟨request, hrequest, hnew⟩⟩

theorem comesFrom_loadRoots {requests : List String} (hrequests : requests ⊆ sources)
    {s s' : Session} (hs : lib.ComesFrom sources s.modules)
    (hrun : lib.loadRoots requests s = .ok () s') : lib.ComesFrom sources s'.modules := by
  induction requests generalizing s with
  | nil =>
    cases hrun
    exact hs
  | cons request rest ih =>
    obtain ⟨path, s₁, hfirst, hrest⟩ := exists_of_loadRoots_cons hrun
    obtain ⟨hmem, hsub⟩ := List.cons_subset.1 hrequests
    exact ih hsub ((comesFrom_loadWithin himports hmem hs hfirst).markRoot path) hrest

end Sources

section Kept

variable {path : String} {m : Module}

theorem Grows.get? {loading : List String} {a b : ModuleSet} (h : lib.Grows loading a b)
    (hm : a.get? path = some m) : b.get? path = some m := by
  obtain ⟨later, rfl⟩ := h.exists_append
  rw [ModuleSet.get?, List.find?_append, ← ModuleSet.get?, hm, Option.some_or]

theorem get?_load {request p : String} {s s' : Session} (hrun : lib.load request s = .ok p s')
    (hm : s.modules.get? path = some m) : s'.modules.get? path = some m := by
  have hgrows := (lib.extends_loadWithin (lib.allRequests.length + 2) [] request s).grows
  rw [← load, hrun] at hgrows
  exact hgrows.get? hm

theorem get?_loadRoots {requests : List String} {s s' : Session}
    (hrun : lib.loadRoots requests s = .ok () s') (hm : s.modules.get? path = some m) :
    s'.modules.get? path = some m := by
  induction requests generalizing s with
  | nil =>
    cases hrun
    exact hm
  | cons request rest ih =>
    obtain ⟨p, s₁, hfirst, hrest⟩ := exists_of_loadRoots_cons hrun
    refine ih hrest ?_
    rw [ModuleSet.get?_markRoot]
    exact get?_load hfirst hm

end Kept

/-- What is loaded under a new path is built for the request itself: its imports cannot take the
path. -/
theorem builds_of_load {request path : String} {s s' : Session}
    (hrun : lib.load request s = .ok path s')
    (hfresh : s.modules.contains (requested request) = false) :
    ∃ m, s'.modules.get? (requested request) = some m ∧ lib.Builds request m := by
  have hvisits := lib.visits_loadWithin (lib.allRequests.length + 1) [] request s
  rw [← load, hrun] at hvisits
  cases hvisits with
  | known h =>
    rw [h] at hfresh
    cases hfresh
  | @loaded directory files s₁ s₂ s₃ hopens h hclean hset =>
    obtain ⟨hmakes, hnew, hfree⟩ := hopens.adds (lib.extends_loadWithin _) h hclean
    refine ⟨_, ?_, directory, files, _, hmakes⟩
    rw [hset, ← hmakes.path]
    exact ModuleSet.get?_insert_self hnew

theorem exists_of_loadRoots_append {before rest : List String} {s s' : Session}
    (h : lib.loadRoots (before ++ rest) s = .ok () s') :
    ∃ s₁, lib.loadRoots before s = .ok () s₁ ∧ lib.loadRoots rest s₁ = .ok () s' := by
  have happend : lib.loadRoots (before ++ rest) = lib.loadRoots before >>= fun _ ↦
      lib.loadRoots rest :=
    List.forM_append
  rw [happend] at h
  cases hbefore : lib.loadRoots before s with
  | ok u s₁ =>
    rw [Load.bind_ok hbefore] at h
    exact ⟨s₁, rfl, h⟩
  | error e s₁ =>
    rw [Load.bind_error hbefore] at h
    cases h

/-- The module that a request for a root gets from a set, which requests were loaded into before:
the one that is there under its path, which one of them or an import brought in, or else one that is
built for the request itself. -/
inductive Gets (lib : Library) (before : List String) (s : ModuleSet) (request : String)
    (m : Module) : Prop
  | known {q : String} (h : s.get? (requested request) = some m)
      (hq : q ∈ before ++ lib.allRequests) (hpath : requested q = requested request)
      (hbuilds : lib.Builds q m)
  | fresh (h : s.contains (requested request) = false) (hbuilds : lib.Builds request m)

theorem exists_gets {before after : List String} {request : String} {s : Session}
    (hrun : lib.loadRoots (before ++ request :: after) .start = .ok () s) :
    ∃ m, s.modules.get? (requested request) = some m ∧
      ∃ s₁, lib.loadRoots before .start = .ok () s₁ ∧ lib.Gets before s₁.modules request m := by
  obtain ⟨s₁, hbefore, hrest⟩ := exists_of_loadRoots_append hrun
  obtain ⟨path, s₂, hload, hafter⟩ := exists_of_loadRoots_cons hrest
  have hkeeps (m : Module) (hm : s₂.modules.get? (requested request) = some m) :
      s.modules.get? (requested request) = some m := by
    refine get?_loadRoots hafter ?_
    rwa [ModuleSet.get?_markRoot]
  cases hknown : s₁.modules.get? (requested request) with
  | some m =>
    have hcomes : lib.ComesFrom (before ++ lib.allRequests) s₁.modules :=
      comesFrom_loadRoots (List.subset_append_right _ _) (List.subset_append_left _ _)
        (comesFrom_empty lib _) hbefore
    obtain ⟨q, hq, hbuilds⟩ := hcomes m (ModuleSet.mem_of_get? hknown)
    have hpath : requested q = requested request :=
      hbuilds.path.symm.trans (ModuleSet.path_of_get? hknown)
    exact ⟨m, hkeeps m (get?_load hload hknown), s₁, hbefore, .known hknown hq hpath hbuilds⟩
  | none =>
    have hfresh : s₁.modules.contains (requested request) = false := by
      rw [ModuleSet.contains_eq, hknown, Option.isSome_none]
    obtain ⟨m, hm, hbuilds⟩ := builds_of_load hload hfresh
    exact ⟨m, hkeeps m hm, s₁, hbefore, .fresh hfresh hbuilds⟩

/-- The roots of a set that requests were loaded into. -/
structure IsRequested (lib : Library) (requests : List String) (s : ModuleSet) : Prop where
  roots : s.rootModules.map (·.path) = (requests.map requested).eraseDups
  /-- Two requests have the same root just if they ask for the same path. -/
  apart : ∀ r ∈ requests, ∀ r' ∈ requests, ∃ m ∈ s.rootModules, ∃ m' ∈ s.rootModules,
    m.path = requested r ∧ m'.path = requested r' ∧ (m = m' ↔ requested r = requested r')
  root : ∀ before r after, requests = before ++ r :: after →
    ∃ m ∈ s.rootModules, ∃ s₁, lib.loadRoots before .start = .ok () s₁ ∧
    lib.Gets before s₁.modules r m
  /-- Where nothing that asks for the path leads elsewhere, the root is built for its request. -/
  agreed : ∀ r ∈ requests, (∀ q ∈ requests ++ lib.allRequests, requested q = requested r →
    lib.locate (ofRequest q) (requested q) = lib.locate (ofRequest r) (requested r)) →
      ∃ m ∈ s.rootModules, lib.Builds r m

/-- Requests for roots get the module of their path, and this is the first one that was built for
the path. -/
theorem isRequested_loadRoots {requests : List String} {s : Session}
    (hrun : lib.loadRoots requests .start = .ok () s) : lib.IsRequested requests s.modules := by
  have hclosure := isClosure_loadRoots hrun
  have hroot {r : String} {m : Module} (hr : r ∈ requests)
      (hm : s.modules.get? (requested r) = some m) :
      m ∈ s.modules.rootModules := by
    refine ModuleSet.mem_rootModules_of_get? hclosure.nodup ?_ hm
    rw [hclosure.roots]
    exact List.mem_eraseDups.2 (List.mem_map_of_mem hr)
  have hget (r : String) (hr : r ∈ requests) : ∃ m, s.modules.get? (requested r) = some m := by
    obtain ⟨before, after, rfl⟩ := List.append_of_mem hr
    obtain ⟨m, hm, -⟩ := exists_gets hrun
    exact ⟨m, hm⟩
  refine ⟨hclosure.roots, ?_, ?_, ?_⟩
  · intro r hr r' hr'
    obtain ⟨m, hm⟩ := hget r hr
    obtain ⟨m', hm'⟩ := hget r' hr'
    have hpath := ModuleSet.path_of_get? hm
    have hpath' := ModuleSet.path_of_get? hm'
    refine ⟨m, hroot hr hm, m', hroot hr' hm', hpath, hpath', fun h ↦ ?_, fun h ↦ ?_⟩
    · rw [← hpath, ← hpath', h]
    · rw [h, hm'] at hm
      exact (Option.some.inj hm).symm
  · rintro before r after rfl
    obtain ⟨m, hm, s₁, hbefore, hgets⟩ := exists_gets hrun
    exact ⟨m, hroot (List.mem_append_right _ List.mem_cons_self) hm, s₁, hbefore, hgets⟩
  · intro r hr hagree
    obtain ⟨m, hm⟩ := hget r hr
    have hcomes : lib.ComesFrom (requests ++ lib.allRequests) s.modules :=
      comesFrom_loadRoots (List.subset_append_right _ _) (List.subset_append_left _ _)
        (comesFrom_empty lib _) hrun
    obtain ⟨q, hq, hbuilds⟩ := hcomes m (ModuleSet.mem_of_get? hm)
    have hpath : requested q = requested r := hbuilds.path.symm.trans (ModuleSet.path_of_get? hm)
    exact ⟨m, hroot hr hm, hbuilds.congr hpath.symm (hagree q hq hpath).symm⟩

section Vendored

/-- A module, and another one that an application keeps in a `vendor` directory of its own. -/
def vendored : Library :=
  ⟨.default, ⟨[(["", "", "lib"], .directory), (["", "", "app"], .directory),
    (["", "", "app", "vendor"], .directory), (["", "", "app", "vendor", "lib"], .directory),
    (["", "", "lib", "lib.api"], .file (some "package lib\ntype A int\n")),
    (["", "", "app", "vendor", "lib", "lib.api"], .file (some "package lib\ntype B int\n"))]⟩⟩

/-- Two requests lead to two directories, but ask for one path, so there is one root, built for the
first of them. -/
theorem one_root_vendored : ∃ s, vendored.loadRoots ["lib", "app/vendor/lib"] .start = .ok () s ∧
    (vendored.locate (ofRequest "lib") (requested "lib")).toOption = some "./lib" ∧
    (vendored.locate (ofRequest "app/vendor/lib") (requested "app/vendor/lib")).toOption =
      some "./app/vendor/lib" ∧
    s.modules.rootModules.map (·.path) = ["lib"] ∧
    s.modules.rootModules.map (fun m ↦ ((m.lookup? "A").isSome, (m.lookup? "B").isSome)) =
      [(true, false)] := by
  have hvalue : (vendored.loadRoots ["lib", "app/vendor/lib"]).value? .start = some () := by
    decide +kernel
  exact ⟨_, Load.eq_ok_of_value? hvalue,
    by decide +kernel, by decide +kernel, by decide +kernel, by decide +kernel⟩

theorem isRequested_loadRoots_vendored :
    ∃ s, vendored.loadRoots ["app/vendor/lib", "lib"] .start = .ok () s ∧
      vendored.IsRequested ["app/vendor/lib", "lib"] s.modules := by
  have hvalue : (vendored.loadRoots ["app/vendor/lib", "lib"]).value? .start = some () := by
    decide +kernel
  exact ⟨_, Load.eq_ok_of_value? hvalue, isRequested_loadRoots (Load.eq_ok_of_value? hvalue)⟩

end Vendored

end Library

end Understudy
