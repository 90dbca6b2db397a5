import Understudy.Proofs.LoadOutcomes

namespace Understudy

structure Loader where
  session : Session
  waiting : List String

namespace Loader

def start : Loader := ⟨.start, []⟩

abbrev Step (α : Type) := EStateM LoadError Loader α

variable {α β : Type}

def keep (waiting : List String) :
    EStateM.Result LoadError Session α → EStateM.Result LoadError Loader α
  | .ok a s => .ok a ⟨s, waiting⟩
  | .error e s => .error e ⟨s, waiting⟩

/-- What is done to the session alone. -/
def within (p : Load α) : Step α := fun l ↦ keep l.waiting (p l.session)

def attempt (p : Step α) : Step (Except LoadError α) := fun l ↦
  match p l with
  | .ok a l => .ok (.ok a) l
  | .error e l => .ok (.error e) l

def push (path : String) : Step Unit := modify fun l ↦ { l with waiting := l.waiting ++ [path] }

def pop : Step Unit := modify fun l ↦ { l with waiting := l.waiting.dropLast }

/-- Has a module wait while `p` is done. What is pushed is popped also if `p` fails. -/
def whileWaiting (path : String) (p : Step α) : Step α := do
  push path
  let result ← attempt p
  pop
  match result with
  | .error e => throw e
  | .ok a => return a

/-- The module in a directory, whose imports are loaded by `one`. -/
def loadDirectory (lib : Library) (one : String → Step String) (path directory : String) :
    Step Module := do
  let files ← within (lib.readFiles path directory)
  (Library.wanted files).forM fun dependency ↦ discard (one dependency)
  within (Library.resolveFiles path files)

/-- Loads the module that `request` asks for. -/
def load (lib : Library) : Nat → String → Step String
  | 0, request => throw (.exhausted request)
  | n + 1, request => do
    let request := ModulePath.ofRequest request
    let path := ModulePath.unvendor request
    let loader ← get
    if loader.session.modules.contains path then return path
    if loader.waiting.contains path then
      throw (.importCycle (loader.waiting.dropWhile (· ≠ path) ++ [path]))
    match lib.locate request path with
    | .error e => throw e
    | .ok directory =>
      let module ← whileWaiting path (loadDirectory lib (load lib n) path directory)
      within (Library.log (.loaded path directory))
      within (modify fun s ↦ { s with modules := s.modules.insert module })
      return path

def loadRoot (lib : Library) (request : String) : Step String := do
  let path ← load lib (lib.allRequests.length + 2) request
  within (modify fun s ↦ { s with modules := s.modules.markRoot path })
  return path

section Bind

variable {p : Step α} {f : α → Step β} {l l' : Loader}

theorem bind_ok {a : α} (h : p l = .ok a l') : (p >>= f) l = f a l' := by
  simp only [bind, EStateM.bind, h]

theorem bind_error {e : LoadError} (h : p l = .error e l') : (p >>= f) l = .error e l' := by
  simp only [bind, EStateM.bind, h]

theorem get_bind (f : Loader → Step β) (l : Loader) : (get >>= f) l = f l l := rfl

theorem within_ok {q : Load α} {s : Session} {a : α} (h : q l.session = .ok a s) :
    within q l = .ok a ⟨s, l.waiting⟩ := by
  rw [within, h, keep]

theorem within_error {q : Load α} {s : Session} {e : LoadError} (h : q l.session = .error e s) :
    within q l = .error e ⟨s, l.waiting⟩ := by
  rw [within, h, keep]

theorem bind_within {q : Load α} {g : α → Load β} (hp : p l = within q l)
    (hf : ∀ a s, f a ⟨s, l.waiting⟩ = within (g a) ⟨s, l.waiting⟩) :
    (p >>= f) l = within (q >>= g) l := by
  cases hq : q l.session with
  | ok a s =>
    rw [bind_ok (hp.trans (within_ok hq)), hf, within, within, Load.bind_ok hq]
  | error e s =>
    rw [bind_error (hp.trans (within_error hq)), within_error (Load.bind_error hq)]

theorem discard_within {q : Load α} (hp : p l = within q l) :
    (discard p) l = within (discard q) l := by
  cases hq : q l.session with
  | ok a s =>
    rw [within_ok (Load.discard_ok hq)]
    rw [within_ok hq] at hp
    simp only [discard, Functor.mapConst, EStateM.map, Function.comp, Function.const, hp]
  | error e s =>
    rw [within_error (Load.discard_error hq)]
    rw [within_error hq] at hp
    simp only [discard, Functor.mapConst, EStateM.map, Function.comp, hp]

theorem whileWaiting_within {q : Load α} {path : String} {s : Session} {waiting : List String}
    (hp : p ⟨s, waiting ++ [path]⟩ = within q ⟨s, waiting ++ [path]⟩) :
    whileWaiting path p ⟨s, waiting⟩ = within q ⟨s, waiting⟩ := by
  have hpush : push path ⟨s, waiting⟩ = .ok () ⟨s, waiting ++ [path]⟩ := rfl
  have hpop (s' : Session) : pop ⟨s', waiting ++ [path]⟩ = .ok () ⟨s', waiting⟩ := by
    change EStateM.Result.ok () (⟨s', (waiting ++ [path]).dropLast⟩ : Loader) = _
    rw [List.dropLast_concat]
  rw [whileWaiting, bind_ok hpush]
  cases hq : q s with
  | ok a s' =>
    have hresult : attempt p ⟨s, waiting ++ [path]⟩ = .ok (.ok a) ⟨s', waiting ++ [path]⟩ := by
      rw [attempt, hp, within_ok hq]
    rw [bind_ok hresult, bind_ok (hpop s'), within_ok hq]
    rfl
  | error e s' =>
    have hresult : attempt p ⟨s, waiting ++ [path]⟩ = .ok (.error e) ⟨s', waiting ++ [path]⟩ := by
      rw [attempt, hp, within_error hq]
    rw [bind_ok hresult, bind_ok (hpop s'), within_error hq]
    rfl

end Bind

open ModulePath (ofRequest requested)

variable {lib : Library} {n : Nat}

theorem loadAll_eq_within
    (h : ∀ request l, load lib n request l = within (lib.loadWithin n l.waiting request) l)
    (requests : List String) (l : Loader) :
    (requests.forM fun request ↦ discard (load lib n request)) l =
      within (lib.loadAll n l.waiting requests) l := by
  induction requests generalizing l with
  | nil => rfl
  | cons request rest ih =>
    rw [Library.loadAll_cons]
    exact bind_within (discard_within (h request l)) fun _ s ↦ ih ⟨s, l.waiting⟩

/-- What the session is asked to do for the module in a directory. -/
def directoryLoad (lib : Library) (n : Nat) (loading : List String) (path directory : String) :
    Load Module := do
  let files ← lib.readFiles path directory
  lib.loadAll n loading (Library.wanted files)
  Library.resolveFiles path files

theorem loadDirectory_eq_within
    (h : ∀ request l, load lib n request l = within (lib.loadWithin n l.waiting request) l)
    (path directory : String) (l : Loader) : loadDirectory lib (load lib n) path directory l =
      within (directoryLoad lib n l.waiting path directory) l :=
  bind_within rfl fun _ s ↦ bind_within (loadAll_eq_within h _ ⟨s, l.waiting⟩) fun _ _ ↦ rfl

theorem loadWithin_directoryLoad {loading : List String} {request directory : String} {s : Session}
    (hfresh : s.modules.contains (requested request) = false) (hfree : requested request ∉ loading)
    (h : lib.locate (ofRequest request) (requested request) = .ok directory) :
    lib.loadWithin (n + 1) loading request s = (do
      let module ← directoryLoad lib n (loading ++ [requested request])
        (requested request) directory
      Library.log (.loaded (requested request) directory)
      modify fun s ↦ { s with modules := s.modules.insert module }
      return requested request : Load String) s := by
  rw [Library.loadWithin_located hfresh hfree h]
  simp only [directoryLoad, bind_assoc]

/-- The stack holds what loading is given as the list of waiting modules, and is left as it was. -/
theorem load_eq_within (n : Nat) (request : String) (l : Loader) :
    load lib n request l = within (lib.loadWithin n l.waiting request) l := by
  induction n generalizing request l with
  | zero => rfl
  | succ n ih =>
    obtain ⟨s, waiting⟩ := l
    rw [load]
    dsimp only
    rw [get_bind, ← requested]
    dsimp only
    cases hfresh : s.modules.contains (requested request) with
    | true =>
      rw [if_pos rfl, within_ok (Library.loadWithin_known hfresh)]
      rfl
    | false =>
      rw [if_neg Bool.false_ne_true]
      by_cases hfree : requested request ∈ waiting
      · rw [if_pos (List.contains_iff_mem.2 hfree),
          within_error (Library.loadWithin_cycle hfresh hfree)]
        rfl
      · rw [if_neg fun h ↦ hfree (List.contains_iff_mem.1 h)]
        cases hlocated : lib.locate (ofRequest request) (requested request) with
        | error e =>
          rw [within_error (Library.loadWithin_missing hfresh hfree hlocated)]
          rfl
        | ok directory =>
          dsimp only
          rw [within, loadWithin_directoryLoad hfresh hfree hlocated, ← within]
          refine bind_within (whileWaiting_within ?_) fun _ _ ↦ rfl
          exact loadDirectory_eq_within ih (requested request) directory
            ⟨s, waiting ++ [requested request]⟩

theorem loadRoot_eq_within (request : String) (s : Session) :
    loadRoot lib request ⟨s, []⟩ = keep [] (lib.loadRoot request s) :=
  bind_within (load_eq_within _ request ⟨s, []⟩) fun _ _ ↦ rfl

def after (p : Step α) (l : Loader) : Loader :=
  match p l with
  | .ok _ l | .error _ l => l

theorem after_loadRoot (request : String) (s : Session) :
    after (loadRoot lib request) ⟨s, []⟩ = ⟨(lib.loadRoot request).after s, []⟩ := by
  rw [after, loadRoot_eq_within, Load.after]
  cases lib.loadRoot request s <;> rfl

def history (lib : Library) (past : List String) : Loader :=
  past.foldl (fun l request ↦ after (loadRoot lib request) l) start

end Loader

end Understudy
