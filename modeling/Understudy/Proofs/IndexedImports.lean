import Understudy.ImportRegistry.Indexed
import Understudy.Proofs.RegistryHistory

namespace Understudy

namespace ImportRegistry

inductive Answer
  | entry (i : Option Import)
  | known (b : Bool)

def answer (r : ImportRegistry) : Call → Answer
  | .register hint path => .entry ((r.register hint path).registered? path)
  | .markReferenced path => .known (r.find? path).isSome

/-- Calls with their answers, each given by what the calls before it led to. -/
def log (r : ImportRegistry) : List Call → List (Call × Answer)
  | [] => []
  | call :: rest => (call, r.answer call) :: (r.perform call).log rest

/-- A call for the module that `path` means was answered with an entry. -/
def Grants (log : List (Call × Answer)) (path : String) (i : Import) : Prop :=
  ∃ hint asked, (Call.register hint asked, Answer.entry (some i)) ∈ log ∧
    ModulePath.registered asked = ModulePath.registered path

section Log

variable {r : ImportRegistry} {calls : List Call} {path : String} {i : Import}

theorem map_log (r : ImportRegistry) (calls : List Call) : (r.log calls).map (·.1) = calls := by
  induction calls generalizing r with
  | nil => rfl
  | cons call rest ih => rw [log, List.map_cons, ih]

theorem mem_log {entry : Call × Answer} : entry ∈ r.log calls ↔ ∃ earlier later,
    calls = earlier ++ entry.1 :: later ∧ entry.2 = (r.performAll earlier).answer entry.1 := by
  induction calls generalizing r with
  | nil => simp [log]
  | cons call rest ih =>
    rw [log, List.mem_cons, ih]
    constructor
    · rintro (rfl | ⟨earlier, later, rfl, hanswer⟩)
      · exact ⟨[], rest, rfl, rfl⟩
      · exact ⟨call :: earlier, later, rfl, hanswer⟩
    · rintro ⟨earlier, later, hcalls, hanswer⟩
      cases earlier with
      | nil =>
        obtain ⟨rfl, rfl⟩ := List.cons.inj hcalls
        exact .inl (Prod.ext rfl hanswer)
      | cons first earlier =>
        obtain ⟨rfl, rfl⟩ := List.cons.inj hcalls
        exact .inr ⟨earlier, later, rfl, hanswer⟩

theorem grants_log_iff : Grants (r.log calls) path i ↔ r.Answers calls path i := by
  constructor
  · rintro ⟨hint, asked, hmem, hasked⟩
    obtain ⟨earlier, later, hcalls, hanswer⟩ := mem_log.1 hmem
    exact ⟨earlier, hint, asked, later, hcalls, hasked, (Answer.entry.inj hanswer).symm⟩
  · rintro ⟨earlier, hint, asked, later, hcalls, hasked, hi⟩
    exact ⟨hint, asked, mem_log.2 ⟨earlier, later, hcalls, congrArg Answer.entry hi.symm⟩, hasked⟩

end Log

end ImportRegistry

namespace IndexedImports

open ImportRegistry (Call Answer Grants)

def perform (r : IndexedImports) : Call → Except OutOfBounds (IndexedImports × Answer)
  | .register hint path =>
    let (r, entry) := r.register hint path
    .ok (r, .entry entry)
  | .markReferenced path => do
    let (r, known) ← r.markReferenced path
    return (r, .known known)

def performAll (r : IndexedImports) :
    List Call → Except OutOfBounds (IndexedImports × List (Call × Answer))
  | [] => .ok (r, [])
  | call :: rest => do
    let (r, answer) ← r.perform call
    let (r, log) ← r.performAll rest
    return (r, (call, answer) :: log)

def InStep (r : IndexedImports) : Prop := IsPathIndex r.positions (r.entries.map (·.path))

section Steps

variable {r : IndexedImports} {path : String} {i : Nat}

theorem inStep_create (destination : Option String) : (create destination).InStep := by
  cases destination <;> exact .nil

theorem forget_create (destination : Option String) :
    (create destination).forget = ImportRegistry.create destination := by
  cases destination <;> rfl

theorem InStep.entry?_eq (h : r.InStep) (path : String) :
    r.forget.entry? path = (r.positions.lookup path).bind (r.entries[·]?) := by
  rw [IsPathIndex.lookup h, List.findIdx?_map]
  exact List.find?_eq_bind_findIdx?_getElem?

theorem InStep.resolve_eq (h : r.InStep) (path : String) : r.resolve path = r.forget.find? path :=
  (h.entry?_eq _).symm

theorem InStep.exists_getElem? (h : r.InStep) (hi : r.positions.lookup path = some i) :
    ∃ e, r.entries[i]? = some e ∧ e.path = path := by
  have hpath := IsPathIndex.getElem?_of_lookup h hi
  rwa [List.getElem?_map, Option.map_eq_some_iff] at hpath

theorem InStep.concat (h : r.InStep) (hi : r.positions.lookup path = none) {e : Import}
    (he : e.path = path) :
    InStep ⟨r.entries ++ [e], (path, r.entries.length) :: r.positions, r.destination⟩ := by
  have hnew := IsPathIndex.concat h hi
  rw [← he, List.length_map] at hnew
  rw [InStep, List.map_append, ← he]
  exact hnew

theorem InStep.register (h : r.InStep) (hint path : String) : (r.register hint path).1.InStep ∧
    (r.register hint path).1.forget = r.forget.register hint path ∧
    (r.register hint path).2 = (r.forget.register hint path).registered? path := by
  rw [IndexedImports.register, ImportRegistry.register, ImportRegistry.registered?]
  generalize ModulePath.registered path = key
  dsimp only
  cases hrefuses : r.forget.refuses key with
  | true => simpa [hrefuses] using h
  | false =>
    rw [if_neg Bool.false_ne_true, Bool.false_or]
    cases hi : r.positions.lookup key with
    | some i =>
      obtain ⟨e, he, -⟩ := h.exists_getElem? hi
      have hentry : r.forget.entry? key = some e := by rw [h.entry?_eq, hi, Option.bind_some, he]
      rw [hentry, Option.isSome_some, if_pos rfl, hrefuses, if_neg Bool.false_ne_true, hentry]
      exact ⟨h, rfl, he⟩
    | none =>
      have hentry : r.forget.entry? key = none := by rw [h.entry?_eq, hi, Option.bind_none]
      have hstep := h.concat hi (rfl : (r.forget.newEntry hint key).path = key)
      have hfound := hstep.entry?_eq key
      rw [List.lookup_cons_self, Option.bind_some] at hfound
      rw [hentry, Option.isSome_none, if_neg Bool.false_ne_true]
      refine ⟨hstep, rfl, ?_⟩
      rw [← hfound]
      exact (if_neg (Bool.not_eq_true _ ▸ hrefuses)).symm

theorem map_ite_eq_set {entries : List Import} (hnodup : (entries.map (·.path)).Nodup) {e : Import}
    (he : entries[i]? = some e) (f : Import → Import) :
    (entries.map fun x ↦ if x.path = e.path then f x else x) = entries.set i (f e) := by
  have hlt : i < entries.length := (List.getElem?_eq_some_iff.1 he).1
  refine List.ext_getElem? fun j ↦ ?_
  rw [List.getElem?_map]
  by_cases hj : i = j
  · rw [← hj, he, Option.map_some, if_pos rfl, List.getElem?_set_self hlt]
  · rw [List.getElem?_set_ne hj]
    cases hx : entries[j]? with
    | none => rfl
    | some x =>
      have hpath : x.path ≠ e.path := by
        intro heq
        refine hj ((List.getElem?_inj (by rwa [List.length_map]) hnodup).1 ?_)
        rw [List.getElem?_map, List.getElem?_map, he, hx, Option.map_some, Option.map_some, heq]
      rw [Option.map_some, if_neg hpath]

/-- Where no path is there twice, the entry that the index leads to is the only one to mark. -/
theorem InStep.markReferenced (h : r.InStep) (hr : r.forget.IsDistinct) (path : String) :
    ∃ r', r.markReferenced path = .ok (r', (r.forget.find? path).isSome) ∧ r'.InStep ∧
      r'.forget = r.forget.markReferenced path := by
  have hpaths :=
    ImportRegistry.map_entries_markReferenced (f := (·.path)) (fun _ ↦ rfl) r.forget path
  rw [IndexedImports.markReferenced, ← h.resolve_eq, resolve]
  cases hi : r.positions.lookup (ModulePath.registered path) with
  | none =>
    refine ⟨r, rfl, h, ?_⟩
    have hentry : r.forget.entry? (ModulePath.registered path) = none := by
      rw [h.entry?_eq, hi, Option.bind_none]
    have hnew := ImportRegistry.entry?_eq_none_iff.1 hentry
    have hmarks : ∀ x ∈ r.entries,
        (if x.path = ModulePath.registered path then { x with referenced := true } else x) = x := by
      intro x hx
      refine if_neg fun (heq : x.path = _) ↦ hnew ?_
      exact heq ▸ List.mem_map_of_mem hx
    exact congrArg (ImportRegistry.mk · r.destination)
      ((List.map_congr_left hmarks).trans (List.map_id' _)).symm
  | some i =>
    obtain ⟨e, he, hpath⟩ := h.exists_getElem? hi
    have hforget : forget { r with entries := r.entries.set i { e with referenced := true } } =
        r.forget.markReferenced path := by
      rw [ImportRegistry.markReferenced, ← hpath]
      exact congrArg (ImportRegistry.mk · r.destination)
        (map_ite_eq_set hr.paths he fun x ↦ { x with referenced := true }).symm
    refine ⟨{ r with entries := r.entries.set i { e with referenced := true } }, ?_, ?_, hforget⟩
    · rw [Option.bind_some, he]
      simp only [elementAt_eq_ok he]
      rfl
    · rw [← hforget] at hpaths
      rw [InStep]
      exact hpaths ▸ h

theorem InStep.registerLeaf (h : r.InStep) (t : Ty) :
    (r.registerLeaf t).InStep ∧ (r.registerLeaf t).forget = r.forget.registerLeaf t := by
  rw [IndexedImports.registerLeaf, ImportRegistry.registerLeaf]
  cases t.module? with
  | none => exact ⟨h, rfl⟩
  | some m =>
    dsimp only
    split
    · exact ⟨h, rfl⟩
    · exact ⟨(h.register m.name m.path).1, (h.register m.name m.path).2.1⟩

theorem InStep.registerType (h : r.InStep) (t : Ty) :
    (r.registerType t).InStep ∧ (r.registerType t).forget = r.forget.registerType t := by
  rw [IndexedImports.registerType, ImportRegistry.registerType]
  induction t.leaves generalizing r with
  | nil => exact ⟨h, rfl⟩
  | cons leaf rest ih =>
    obtain ⟨hstep, hforget⟩ := h.registerLeaf leaf
    rw [List.foldl_cons, List.foldl_cons, ← hforget]
    exact ih hstep

end Steps

/-- A list of imports with an index does what the list without it does. -/
structure Mirrors (r : IndexedImports) (r' : ImportRegistry) : Prop where
  inStep : r.InStep
  forget : r.forget = r'
  isDistinct : r'.IsDistinct

section Mirrors

variable {r : IndexedImports} {r' : ImportRegistry}

theorem mirrors_create (destination : Option String) :
    (create destination).Mirrors (ImportRegistry.create destination) :=
  ⟨inStep_create destination, forget_create destination,
    ImportRegistry.isDistinct_create destination⟩

theorem Mirrors.perform (h : r.Mirrors r') (call : Call) :
    ∃ r₁, r.perform call = .ok (r₁, r'.answer call) ∧ r₁.Mirrors (r'.perform call) := by
  have hdistinct := h.isDistinct.perform call
  obtain ⟨hstep, rfl, hr⟩ := h
  cases call with
  | register hint path =>
    obtain ⟨hstep', hforget, hanswer⟩ := hstep.register hint path
    refine ⟨(r.register hint path).1, ?_, hstep', hforget, hdistinct⟩
    rw [IndexedImports.perform, ImportRegistry.answer, ← hanswer]
  | markReferenced path =>
    obtain ⟨r₁, hmark, hstep', hforget⟩ := hstep.markReferenced hr path
    refine ⟨r₁, ?_, hstep', hforget, hdistinct⟩
    rw [IndexedImports.perform, hmark]
    rfl

theorem Mirrors.performAll (h : r.Mirrors r') (calls : List Call) :
    ∃ r₁, r.performAll calls = .ok (r₁, r'.log calls) ∧ r₁.Mirrors (r'.performAll calls) := by
  induction calls generalizing r r' with
  | nil => exact ⟨r, rfl, h⟩
  | cons call rest ih =>
    obtain ⟨r₁, hcall, h₁⟩ := h.perform call
    obtain ⟨r₂, hrest, h₂⟩ := ih h₁
    refine ⟨r₂, ?_, h₂⟩
    rw [IndexedImports.performAll, hcall]
    simp only [bind, Except.bind, hrest]
    rfl

end Mirrors

/-- What holds of a list of imports with an index after some calls with these answers. -/
structure Follows (destination : Option String) (log : List (Call × Answer)) (r : IndexedImports) :
    Prop where
  positions_lt : ∀ entry ∈ r.positions, entry.2 < r.entries.length
  lookup_iff : ∀ path n, r.positions.lookup path = some n ↔
      ∃ i, r.entries[n]? = some i ∧ i.path = path
  paths : (r.entries.map (·.path)).Nodup
  qualifiers : (r.entries.map (·.qualifier)).Nodup
  /-- What was there stays in its place, and changes at most to be referenced. -/
  continues : ∀ earlier later, log.map (·.1) = earlier ++ later → ∃ r₀ log₀,
    (create destination).performAll earlier = .ok (r₀, log₀) ∧ r₀.forget.Continues r.forget
  found_iff : ∀ path, (∃ i, r.resolve path = some i) ↔ ∃ i, Grants log path i
  kept : ∀ path i, Grants log path i → ∃ j, r.resolve path = some j ∧ i.Keeps j
  forget : r.forget = (ImportRegistry.create destination).performAll (log.map (·.1))

/-- After any calls the index leads from the path of each entry to its position, no access went out
of bounds, and no path and no qualifier is there twice. A path is found exactly if a call for its
module was answered with an entry, with the qualifier of that answer. -/
theorem follows_performAll (destination : Option String) (calls : List Call) : ∃ r log,
    (create destination).performAll calls = .ok (r, log) ∧ log.map (·.1) = calls ∧
      Follows destination log r := by
  obtain ⟨r, hrun, hstep, hforget, hdistinct⟩ := (mirrors_create destination).performAll calls
  have hremembers := ImportRegistry.remembers_performAll destination calls
  have hcalls := (ImportRegistry.create destination).map_log calls
  have hlt := IsPathIndex.lt_length hstep
  rw [List.length_map] at hlt
  rw [← hforget] at hremembers hdistinct
  refine ⟨r, _, hrun, hcalls, hlt, fun path n ↦ ?_, hdistinct.paths, hdistinct.qualifiers,
    ?_, fun path ↦ ?_, fun path i hi ↦ ?_, ?_⟩
  · rw [IsPathIndex.lookup_iff hstep hdistinct.paths, List.getElem?_map, Option.map_eq_some_iff]
  · intro earlier later hsplit
    rw [hcalls] at hsplit
    obtain ⟨r₀, hrun₀, -, hforget₀, -⟩ := (mirrors_create destination).performAll earlier
    exact ⟨r₀, _, hrun₀, hforget₀ ▸ hremembers.continues earlier later hsplit⟩
  · simp only [hstep.resolve_eq, ImportRegistry.grants_log_iff]
    exact hremembers.found_iff path
  · rw [hstep.resolve_eq]
    exact hremembers.kept path i (ImportRegistry.grants_log_iff.1 hi)
  · rw [hcalls, hforget]

end IndexedImports

end Understudy
