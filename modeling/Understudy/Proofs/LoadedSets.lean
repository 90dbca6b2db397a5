import Mathlib.Logic.Relation
import Understudy.Proofs.LoadSteps
import Understudy.Proofs.ResolvedModule

namespace Understudy

namespace ModuleSet

theorem contains_eq_true {s : ModuleSet} {path : String} :
    s.contains path = true ↔ path ∈ s.modules.map (·.path) := by
  rw [contains_eq, get?, List.find?_isSome]
  simp

theorem insert_of_fresh {s : ModuleSet} {m : Module} (h : s.contains m.path = false) :
    s.insert m = ⟨s.modules ++ [m], s.roots⟩ := by
  rw [insert, h]
  rfl

theorem contains_insert (s : ModuleSet) (m : Module) (path : String) :
    (s.insert m).contains path = (s.contains path || decide (m.path = path)) := by
  rw [contains_eq, get?_insert, contains_eq]
  by_cases h : m.path = path <;> simp [h]

theorem modules_markRoot (s : ModuleSet) (path : String) :
    (s.markRoot path).modules = s.modules := by
  unfold markRoot
  split
  · split <;> rfl
  · rfl

end ModuleSet

namespace Library

open ModulePath (ofRequest requested)

variable {lib : Library}

/-- What is found for a request makes a module out of what is in a set, where all its imports are
loaded. -/
structure Makes (lib : Library) (request directory : String) (files : List ReadFile)
    (deps : ModuleSet) (m : Module) : Prop where
  located : lib.locate (ofRequest request) (requested request) = .ok directory
  read : ∃ s s', lib.readFiles (requested request) directory s = .ok files s'
  loaded : ∀ r ∈ wanted files, deps.contains (requested r) = true
  clean : (resolution (requested request) files deps).diagnostics = []
  eq_module : m = (resolution (requested request) files deps).module

theorem Makes.path {request directory : String} {files : List ReadFile} {deps : ModuleSet}
    {m : Module} (h : lib.Makes request directory files deps m) : m.path = requested request := by
  rw [h.eq_module, resolution, Resolve.module_resolveModule]

/-- A module comes in under a new path that nothing waits for. -/
inductive Adds (lib : Library) (loading : List String) : ModuleSet → ModuleSet → Prop
  | intro {request directory : String} {files : List ReadFile} {deps : ModuleSet} {m : Module}
    (hmakes : lib.Makes request directory files deps m) (hfresh : deps.contains m.path = false)
    (hfree : m.path ∉ loading) : Adds lib loading deps (deps.insert m)

def Grows (lib : Library) (loading : List String) : ModuleSet → ModuleSet → Prop :=
  Relation.ReflTransGen (lib.Adds loading)

section Grows

variable {loading : List String} {a b : ModuleSet} {path : String}

theorem Adds.weaken {others : List String} (h : lib.Adds (loading ++ others) a b) :
    lib.Adds loading a b := by
  cases h with
  | intro hmakes hfresh hfree =>
    exact .intro hmakes hfresh fun hmem ↦ hfree (List.mem_append_left _ hmem)

theorem Grows.weaken {others : List String} (h : lib.Grows (loading ++ others) a b) :
    lib.Grows loading a b :=
  Relation.ReflTransGen.mono (fun _ _ h ↦ Adds.weaken h) _ _ h

theorem Grows.contains (h : lib.Grows loading a b) (hp : a.contains path = true) :
    b.contains path = true := by
  induction h with
  | refl => exact hp
  | tail _ hstep ih =>
    cases hstep with
    | intro => rw [ModuleSet.contains_insert, ih, Bool.true_or]

theorem Grows.free (h : lib.Grows loading a b) (hfree : path ∈ loading)
    (hp : a.contains path = false) : b.contains path = false := by
  induction h with
  | refl => exact hp
  | tail _ hstep ih =>
    cases hstep with
    | @intro request directory files deps m hmakes hfresh hnew =>
      have hne : m.path ≠ path := fun h ↦ hnew (h ▸ hfree)
      rw [ModuleSet.contains_insert, ih, Bool.false_or, decide_eq_false hne]

end Grows

/-- Whatever a request comes to, the set has grown by modules that nothing waits for; if there is a
result, it is the path that was asked for, and that module is in the set. -/
structure Extends (lib : Library) (loading : List String) (request : String) (s : Session)
    (r : EStateM.Result LoadError Session String) : Prop where
  grows : lib.Grows loading s.modules (Load.sessionOf r).modules
  result : ∀ {path s'}, r = .ok path s' → path = requested request ∧ s'.modules.contains path = true

section All

variable {n : Nat} {loading : List String}
  (h : ∀ request s, lib.Extends loading request s (lib.loadWithin n loading request s))

include h

theorem grows_loadAll (requests : List String) (s : Session) :
    lib.Grows loading s.modules ((lib.loadAll n loading requests).after s).modules := by
  induction requests generalizing s with
  | nil => exact .refl
  | cons request rest ih =>
    have hfirst := (h request s).grows
    cases hrun : lib.loadWithin n loading request s with
    | ok path s' =>
      rw [hrun] at hfirst
      rw [Load.after, loadAll_cons_ok hrun]
      exact hfirst.trans (ih s')
    | error e s' =>
      rw [hrun] at hfirst
      rwa [Load.after, loadAll_cons_error hrun]

theorem contains_of_loadAll {requests : List String} {s s' : Session}
    (hrun : lib.loadAll n loading requests s = .ok () s') :
    ∀ r ∈ requests, s'.modules.contains (requested r) = true := by
  induction requests generalizing s with
  | nil => exact List.forall_mem_nil _
  | cons request rest ih =>
    obtain ⟨path, s₁, hfirst, hrest⟩ := exists_of_loadAll_cons hrun
    obtain ⟨rfl, hcontains⟩ := (h request s).result hfirst
    have hgrows := grows_loadAll h rest s₁
    rw [Load.after_ok hrest] at hgrows
    exact List.forall_mem_cons.2 ⟨hgrows.contains hcontains, ih hrest⟩

end All

theorem Opens.modules {loading : List String} {request directory : String} {s s' : Session}
    {files : List ReadFile}
    (h : lib.Opens loading request s directory files s') : s'.modules = s.modules := by
  rw [← keepsModules_readFiles _ _ s, Load.after_ok h.read]

section Opened

variable {n : Nat} {loading : List String} {request directory : String} {s s₁ s₂ : Session}
    {files : List ReadFile} (hopens : lib.Opens loading request s directory files s₁)
    (ih : ∀ loading request s, lib.Extends loading request s (lib.loadWithin n loading request s))

include hopens ih

theorem Opens.grows : lib.Grows (loading ++ [requested request]) s.modules
    ((lib.loadAll n (loading ++ [requested request]) (wanted files)).after s₁).modules := by
  rw [← hopens.modules]
  exact grows_loadAll (ih _) _ _

/-- A module whose imports came in and that resolves without a report can come in itself: its own
path was waited for in the meantime, so it is still free. -/
theorem Opens.adds
    (h : lib.loadAll n (loading ++ [requested request]) (wanted files) s₁ = .ok () s₂)
    (hclean : (resolution (requested request) files s₂.modules).diagnostics = []) :
    lib.Makes request directory files s₂.modules
      (resolution (requested request) files s₂.modules).module ∧
      s₂.modules.contains (resolution (requested request) files s₂.modules).module.path = false ∧
      (resolution (requested request) files s₂.modules).module.path ∉ loading := by
  have hgrows := hopens.grows ih
  rw [Load.after_ok h] at hgrows
  have hmakes : lib.Makes request directory files s₂.modules
      (resolution (requested request) files s₂.modules).module :=
    ⟨hopens.located, ⟨s, s₁, hopens.read⟩, contains_of_loadAll (ih _) h, hclean, rfl⟩
  have hfresh := hgrows.free (List.mem_append_right _ (List.mem_singleton_self _)) hopens.fresh
  exact ⟨hmakes, hmakes.path ▸ hfresh, hmakes.path ▸ hopens.free⟩

end Opened

theorem Visits.extends {n : Nat} {loading : List String} {request : String} {s : Session}
    {r : EStateM.Result LoadError Session String} (h : lib.Visits n loading request s r)
    (ih : ∀ loading request s, lib.Extends loading request s (lib.loadWithin n loading request s)) :
    lib.Extends loading request s r := by
  cases h with
  | known h =>
    refine ⟨.refl, fun hr ↦ ?_⟩
    cases hr
    exact ⟨rfl, h⟩
  | cycle | missing => exact ⟨.refl, fun hr ↦ by cases hr⟩
  | unread hfresh hfree hlocated h =>
    refine ⟨?_, fun hr ↦ by cases hr⟩
    rw [Load.sessionOf, ← Load.after_error h, keepsModules_readFiles]
    exact .refl
  | blocked hopens h =>
    refine ⟨?_, fun hr ↦ by cases hr⟩
    have hgrows := hopens.grows ih
    rw [Load.after_error h] at hgrows
    exact hgrows.weaken
  | rejected hopens h hreports hs =>
    refine ⟨?_, fun hr ↦ by cases hr⟩
    have hgrows := hopens.grows ih
    rw [Load.after_ok h] at hgrows
    rw [Load.sessionOf, hs]
    exact hgrows.weaken
  | loaded hopens h hclean hs =>
    have hgrows := hopens.grows ih
    rw [Load.after_ok h] at hgrows
    obtain ⟨hmakes, hfresh, hfree⟩ := hopens.adds ih h hclean
    constructor
    · rw [Load.sessionOf, hs]
      exact hgrows.weaken.tail (.intro hmakes hfresh hfree)
    · rintro path s' ⟨⟩
      rw [hs, ModuleSet.contains_insert, hmakes.path, decide_eq_true rfl, Bool.or_true]
      exact ⟨rfl, rfl⟩

theorem extends_loadWithin (n : Nat) (loading : List String) (request : String) (s : Session) :
    lib.Extends loading request s (lib.loadWithin n loading request s) := by
  induction n generalizing loading request s with
  | zero => exact ⟨.refl, fun h ↦ by cases h⟩
  | succ n ih => exact (lib.visits_loadWithin n loading request s).extends ih

theorem loadRoot_ok {request path : String} {s s' : Session}
    (h : lib.load request s = .ok path s') :
    lib.loadRoot request s = .ok path { s' with modules := s'.modules.markRoot path } := by
  rw [loadRoot, Load.bind_ok h]
  rfl

theorem loadRoot_error {request : String} {s s' : Session} {e : LoadError}
    (h : lib.load request s = .error e s') :
    lib.loadRoot request s = .error e s' := by
  rw [loadRoot, Load.bind_error h]

theorem exists_of_loadRoots_cons {request : String} {rest : List String} {s s' : Session}
    (h : lib.loadRoots (request :: rest) s = .ok () s') :
    ∃ path s₁, lib.load request s = .ok path s₁ ∧
      lib.loadRoots rest { s₁ with modules := s₁.modules.markRoot path } = .ok () s' := by
  have hcons : lib.loadRoots (request :: rest) =
    discard (lib.loadRoot request) >>= fun _ ↦ lib.loadRoots rest := rfl
  rw [hcons] at h
  cases hfirst : lib.load request s with
  | error e s₁ =>
    rw [Load.bind_error (Load.discard_error (loadRoot_error hfirst))] at h
    cases h
  | ok path s₁ =>
    rw [Load.bind_ok (Load.discard_ok (loadRoot_ok hfirst))] at h
    exact ⟨path, s₁, rfl, h⟩

end Library

end Understudy
