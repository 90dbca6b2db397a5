import Understudy.Proofs.ReadFiles

namespace Understudy

namespace ModulePath

def requested (request : String) : String := unvendor (ofRequest request)

end ModulePath

namespace Load

variable {α β : Type}

theorem bind_ok {p : Load α} {f : α → Load β} {s s' : Session} {a : α} (h : p s = .ok a s') :
    (p >>= f) s = f a s' := by
  simp only [bind, EStateM.bind, h]

theorem bind_error {p : Load α} {f : α → Load β} {s s' : Session} {e : LoadError}
    (h : p s = .error e s') : (p >>= f) s = .error e s' := by
  simp only [bind, EStateM.bind, h]

theorem get_bind (f : Session → Load β) (s : Session) : (get >>= f) s = f s s := rfl

theorem log_bind (e : Event) (f : Unit → Load β) (s : Session) :
    (Library.log e >>= f) s = f () { s with events := s.events ++ [e] } := rfl

theorem discard_ok {p : Load α} {s s' : Session} {a : α} (h : p s = .ok a s') :
    (discard p) s = .ok () s' := by
  simp only [discard, Functor.mapConst, EStateM.map, Function.comp, Function.const, h]

theorem discard_error {p : Load α} {s s' : Session} {e : LoadError} (h : p s = .error e s') :
    (discard p) s = .error e s' := by
  simp only [discard, Functor.mapConst, EStateM.map, Function.comp, h]

def sessionOf : EStateM.Result LoadError Session α → Session
  | .ok _ s | .error _ s => s

def after (p : Load α) (s : Session) : Session := sessionOf (p s)

theorem after_ok {p : Load α} {s s' : Session} {a : α} (h : p s = .ok a s') : p.after s = s' := by
  rw [after, h, sessionOf]

theorem after_error {p : Load α} {s s' : Session} {e : LoadError} (h : p s = .error e s') :
    p.after s = s' := by
  rw [after, h, sessionOf]

def value? (p : Load α) (s : Session) : Option α :=
  match p s with
  | .ok a _ => some a
  | .error _ _ => none

theorem eq_ok_of_value? {p : Load α} {s : Session} {a : α} (h : p.value? s = some a) :
    p s = .ok a (p.after s) := by
  unfold value? at h
  rw [after]
  split at h
  · rename_i hp
    cases h
    rw [hp, sessionOf]
  · cases h

def KeepsModules (p : Load α) : Prop := ∀ s, (p.after s).modules = s.modules

theorem KeepsModules.bind {p : Load α} {f : α → Load β} (hp : p.KeepsModules)
    (hf : ∀ a, (f a).KeepsModules) :
    KeepsModules (p >>= f) := by
  intro s
  cases h : p s with
  | ok a s' =>
    have hs : s'.modules = s.modules := after_ok h ▸ hp s
    rw [after, bind_ok h]
    exact (hf a s').trans hs
  | error e s' =>
    rw [after_error (bind_error h), ← after_error h]
    exact hp s

theorem composes_keepsModules : Composes fun _ p ↦ p.KeepsModules where
  pure _ := fun _ ↦ rfl
  throw _ _ := fun _ ↦ rfl
  log _ := fun _ ↦ rfl
  bind := .bind

def FailsWith (P : LoadError → Prop) (p : Load α) : Prop := ∀ s e s', p s = .error e s' → P e

theorem failsWith_pure {P : LoadError → Prop} (a : α) : FailsWith P (pure a) := by
  intro _ _ _ h
  cases h

theorem failsWith_throw {P : LoadError → Prop} {e : LoadError} (he : P e) :
    FailsWith P (throw e : Load α) := by
  intro s e' s' h
  cases h
  exact he

theorem failsWith_log {P : LoadError → Prop} (e : Event) : FailsWith P (Library.log e) := by
  intro _ _ _ h
  cases h

theorem FailsWith.bind {P : LoadError → Prop} {p : Load α} {f : α → Load β} (hp : p.FailsWith P)
    (hf : ∀ a, (f a).FailsWith P) : FailsWith P (p >>= f) := by
  intro s e s' h
  cases hrun : p s with
  | ok a s₁ =>
    rw [bind_ok hrun] at h
    exact hf a s₁ e s' h
  | error e₁ s₁ =>
    rw [bind_error hrun] at h
    cases h
    exact hp s e s' hrun

theorem FailsWith.discard {P : LoadError → Prop} {p : Load α} (hp : p.FailsWith P) :
    FailsWith P (discard p) := by
  intro s e s' h
  cases hrun : p s with
  | ok a s₁ =>
    rw [discard_ok hrun] at h
    cases h
  | error e₁ s₁ =>
    rw [discard_error hrun] at h
    cases h
    exact hp s e s' hrun

theorem composes_failsWith : Composes fun _ p ↦ p.FailsWith LoadError.IsReading where
  pure := failsWith_pure
  throw _ := failsWith_throw
  log := failsWith_log
  bind := .bind

end Load

namespace Library

variable {lib : Library}

theorem keepsModules_readFiles (path directory : String) :
    (lib.readFiles path directory).KeepsModules :=
  Load.composes_keepsModules.readFiles path directory

theorem failsWith_readFiles (path directory : String) :
    (lib.readFiles path directory).FailsWith LoadError.IsReading :=
  Load.composes_failsWith.readFiles path directory

theorem failsWith_readEntries (path directory : String) (place : Location) (names : List String) :
    (lib.readEntries path directory place names).FailsWith LoadError.IsOfEntry := by
  induction names with
  | nil => exact Load.failsWith_pure []
  | cons name rest ih =>
    rw [readEntries]
    split
    · rename_i h
      exact Load.failsWith_throw (isOfEntry_entryText? h)
    · exact ih
    · exact (Load.failsWith_log _).bind fun _ ↦ ih.bind fun _ ↦ Load.failsWith_pure _

/-- What the files of a module come to against a set of modules. -/
def resolution (path : String) (files : List ReadFile) (deps : ModuleSet) : Resolution :=
  resolveModule path (files.filterMap (·.parsed?)) deps

section Resolving

variable {path : String} {files : List ReadFile} {s : Session}

theorem resolveFiles_apply : resolveFiles path files s =
    (if (resolution path files s.modules).diagnostics.isEmpty then
      pure (resolution path files s.modules).module
    else
      throw (.notResolved path
        ((ReadFile.sourceMap files).report (resolution path files s.modules).diagnostics)
        (resolution path files s.modules).diagnostics) : Load Module)
    { s with events := s.events ++
      [.resolved path (((resolution path files s.modules).module.scope.map (·.size)).getD 0)]
        } := by
  rw [resolveFiles, Load.get_bind]
  dsimp only
  rw [Load.log_bind, ← resolution]
  cases (resolution path files s.modules).diagnostics with
  | nil => rfl
  | cons d ds => rfl

theorem resolveFiles_ok (h : (resolution path files s.modules).diagnostics = []) :
    ∃ s', resolveFiles path files s = .ok (resolution path files s.modules).module s' ∧
    s'.modules = s.modules := by
  rw [resolveFiles_apply, h]
  exact ⟨_, rfl, rfl⟩

theorem resolveFiles_error (h : (resolution path files s.modules).diagnostics ≠ []) :
    ∃ s', resolveFiles path files s =
      .error (.notResolved path
        ((ReadFile.sourceMap files).report (resolution path files s.modules).diagnostics)
        (resolution path files s.modules).diagnostics) s' ∧ s'.modules = s.modules := by
  rw [resolveFiles_apply, List.isEmpty_eq_false_iff.2 h]
  exact ⟨_, rfl, rfl⟩

end Resolving

def wanted (files : List ReadFile) : List String := requests (files.filterMap (·.parsed?))

def loadAll (lib : Library) (n : Nat) (loading requests : List String) : Load Unit :=
  requests.forM fun request ↦ discard (lib.loadWithin n loading request)

open ModulePath (ofRequest requested)

section All

variable {n : Nat} {loading : List String} {request : String} {rest : List String} {s s' : Session}

theorem loadAll_cons : lib.loadAll n loading (request :: rest) =
    discard (lib.loadWithin n loading request) >>= fun _ ↦ lib.loadAll n loading rest := rfl

theorem loadAll_cons_ok {path : String} (h : lib.loadWithin n loading request s = .ok path s') :
    lib.loadAll n loading (request :: rest) s = lib.loadAll n loading rest s' := by
  rw [loadAll_cons, Load.bind_ok (Load.discard_ok h)]

theorem loadAll_cons_error {e : LoadError} (h : lib.loadWithin n loading request s = .error e s') :
    lib.loadAll n loading (request :: rest) s = .error e s' := by
  rw [loadAll_cons, Load.bind_error (Load.discard_error h)]

theorem exists_of_loadAll_cons {s'' : Session}
    (h : lib.loadAll n loading (request :: rest) s = .ok () s'') :
    ∃ path s', lib.loadWithin n loading request s = .ok path s' ∧
      lib.loadAll n loading rest s' = .ok () s'' := by
  cases hfirst : lib.loadWithin n loading request s with
  | ok path s' => exact ⟨path, s', rfl, loadAll_cons_ok hfirst ▸ h⟩
  | error e s' =>
    rw [loadAll_cons_error hfirst] at h
    cases h

theorem exists_of_loadAll_error {requests : List String} {e : LoadError}
    (h : lib.loadAll n loading requests s = .error e s') :
    ∃ r ∈ requests, ∃ s₁, lib.loadWithin n loading r s₁ = .error e s' := by
  induction requests generalizing s with
  | nil => cases h
  | cons request rest ih =>
    cases hone : lib.loadWithin n loading request s with
    | ok path s₁ =>
      rw [loadAll_cons_ok hone] at h
      obtain ⟨r, hr, hfails⟩ := ih h
      exact ⟨r, List.mem_cons_of_mem _ hr, hfails⟩
    | error e₁ s₁ =>
      rw [loadAll_cons_error hone] at h
      cases h
      exact ⟨request, List.mem_cons_self .., s, hone⟩

end All

/-- A request gets to the files of a module that is neither done nor waiting. -/
structure Opens (lib : Library) (loading : List String) (request : String) (s : Session)
    (directory : String) (files : List ReadFile) (s' : Session) : Prop where
  fresh : s.modules.contains (requested request) = false
  free : requested request ∉ loading
  located : lib.locate (ofRequest request) (requested request) = .ok directory
  read : lib.readFiles (requested request) directory s = .ok files s'

/-- All that a request can come to where `n + 1` modules can still wait for each other. -/
inductive Visits (lib : Library) (n : Nat) (loading : List String) (request : String)
    (s : Session) : EStateM.Result LoadError Session String → Prop
  | known (h : s.modules.contains (requested request) = true) :
    Visits lib n loading request s (.ok (requested request) s)
  | cycle (hfresh : s.modules.contains (requested request) = false)
      (h : requested request ∈ loading) : Visits lib n loading request s
      (.error (.importCycle (loading.dropWhile (· ≠ requested request) ++ [requested request])) s)
  | missing {e : LoadError} (hfresh : s.modules.contains (requested request) = false)
    (hfree : requested request ∉ loading)
    (h : lib.locate (ofRequest request) (requested request) = .error e) :
    Visits lib n loading request s (.error e s)
  | unread {directory : String} {e : LoadError} {s' : Session}
      (hfresh : s.modules.contains (requested request) = false)
      (hfree : requested request ∉ loading)
      (hlocated : lib.locate (ofRequest request) (requested request) = .ok directory)
      (h : lib.readFiles (requested request) directory s = .error e s') :
      Visits lib n loading request s (.error e s')
  | blocked {directory : String} {files : List ReadFile} {s₁ s₂ : Session} {e : LoadError}
    (hopens : lib.Opens loading request s directory files s₁)
    (h : lib.loadAll n (loading ++ [requested request]) (wanted files) s₁ = .error e s₂) :
    Visits lib n loading request s (.error e s₂)
  | rejected {directory : String} {files : List ReadFile} {s₁ s₂ s₃ : Session}
      (hopens : lib.Opens loading request s directory files s₁)
      (h : lib.loadAll n (loading ++ [requested request]) (wanted files) s₁ = .ok () s₂)
      (hreports : (resolution (requested request) files s₂.modules).diagnostics ≠ [])
      (hs : s₃.modules = s₂.modules) :
      Visits lib n loading request s (.error (.notResolved (requested request)
      ((ReadFile.sourceMap files).report
        (resolution (requested request) files s₂.modules).diagnostics)
      (resolution (requested request) files s₂.modules).diagnostics) s₃)
  | loaded {directory : String} {files : List ReadFile} {s₁ s₂ s₃ : Session}
    (hopens : lib.Opens loading request s directory files s₁)
    (h : lib.loadAll n (loading ++ [requested request]) (wanted files) s₁ = .ok () s₂)
    (hclean : (resolution (requested request) files s₂.modules).diagnostics = []) (hs : s₃.modules =
      s₂.modules.insert (resolution (requested request) files s₂.modules).module) :
    Visits lib n loading request s (.ok (requested request) s₃)

theorem visits_loadWithin (n : Nat) (loading : List String) (request : String) (s : Session) :
    lib.Visits n loading request s (lib.loadWithin (n + 1) loading request s) := by
  rw [loadWithin]
  dsimp only
  rw [Load.get_bind, ← requested]
  cases hfresh : s.modules.contains (requested request) with
  | true =>
    rw [if_pos rfl]
    exact .known hfresh
  | false =>
    rw [if_neg Bool.false_ne_true]
    by_cases hloading : requested request ∈ loading
    · rw [if_pos (List.contains_iff_mem.2 hloading)]
      exact .cycle hfresh hloading
    · rw [if_neg fun h ↦ hloading (List.contains_iff_mem.1 h)]
      cases hlocated : lib.locate (ofRequest request) (requested request) with
      | error e =>
        exact .missing hfresh hloading hlocated
      | ok directory =>
        dsimp only
        cases hread : lib.readFiles (requested request) directory s with
        | error e s₁ =>
          rw [Load.bind_error hread]
          exact .unread hfresh hloading hlocated hread
        | ok files s₁ =>
          have hopens : lib.Opens loading request s directory files s₁ :=
            ⟨hfresh, hloading, hlocated, hread⟩
          rw [Load.bind_ok hread, ← wanted, ← loadAll]
          cases hall : lib.loadAll n (loading ++ [requested request]) (wanted files) s₁ with
          | error e s₂ =>
            rw [Load.bind_error hall]
            exact .blocked hopens hall
          | ok u s₂ =>
            rw [Load.bind_ok hall]
            by_cases hclean : (resolution (requested request) files s₂.modules).diagnostics = []
            · obtain ⟨s₃, hs₃, hmodules⟩ := resolveFiles_ok hclean
              rw [Load.bind_ok hs₃]
              refine .loaded hopens hall hclean ?_
              rw [← hmodules]
            · obtain ⟨s₃, hs₃, hmodules⟩ := resolveFiles_error hclean
              rw [Load.bind_error hs₃]
              exact .rejected hopens hall hclean hmodules

end Library

end Understudy
