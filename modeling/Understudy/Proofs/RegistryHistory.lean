import Mathlib.Data.List.Induction
import Understudy.Proofs.Generation
import Understudy.Proofs.OrderlyImports

namespace Understudy

/-- The second entry is the first one as it may stand later on. -/
structure Import.Keeps (i j : Import) : Prop where
  qualifier : j.qualifier = i.qualifier
  path : j.path = i.path
  referenced : i.referenced = true → j.referenced = true

theorem Import.Keeps.refl (i : Import) : i.Keeps i := ⟨rfl, rfl, id⟩

theorem Import.Keeps.trans {i j k : Import} (h : i.Keeps j) (h' : j.Keeps k) : i.Keeps k :=
  ⟨h'.qualifier.trans h.qualifier, h'.path.trans h.path, fun hi ↦ h'.referenced (h.referenced hi)⟩

namespace ImportRegistry

inductive Call
  | register (hint path : String)
  | markReferenced (path : String)

def perform (r : ImportRegistry) : Call → ImportRegistry
  | .register hint path => r.register hint path
  | .markReferenced path => r.markReferenced path

def performAll (r : ImportRegistry) (calls : List Call) : ImportRegistry := calls.foldl perform r

def create : Option String → ImportRegistry
  | none => empty
  | some destination => forDestination destination

theorem performAll_append (r : ImportRegistry) (earlier later : List Call) :
    r.performAll (earlier ++ later) = (r.performAll earlier).performAll later := List.foldl_append

theorem performAll_concat (r : ImportRegistry) (earlier : List Call) (call : Call) :
    r.performAll (earlier ++ [call]) = (r.performAll earlier).perform call :=
  r.performAll_append earlier [call]

theorem performAll_cons (r : ImportRegistry) (call : Call) (later : List Call) :
    r.performAll (call :: later) = (r.perform call).performAll later := rfl

/-- Each entry of one registry stands at the same place in another. -/
structure Continues (r r' : ImportRegistry) : Prop where
  destination : r'.destination = r.destination
  entries : ∀ (n : Nat) (i : Import), r.entries[n]? = some i →
      ∃ j, r'.entries[n]? = some j ∧ i.Keeps j

section Continues

variable {r r' r'' : ImportRegistry}

theorem Continues.refl (r : ImportRegistry) : r.Continues r := ⟨rfl, fun _ i hi ↦ ⟨i, hi, .refl i⟩⟩

theorem Continues.trans (h : r.Continues r') (h' : r'.Continues r'') : r.Continues r'' := by
  refine ⟨h'.destination.trans h.destination, fun n i hi ↦ ?_⟩
  obtain ⟨j, hj, hkeeps⟩ := h.entries n i hi
  obtain ⟨k, hk, hkeeps'⟩ := h'.entries n j hj
  exact ⟨k, hk, hkeeps.trans hkeeps'⟩

theorem continues_register (r : ImportRegistry) (hint path : String) :
    r.Continues (r.register hint path) := by
  obtain ⟨heq, -⟩ | ⟨qualifier, -, -, -, heq⟩ :=
    r.register_cases hint (rfl : ModulePath.registered path = _)
  · rw [heq]
    exact .refl r
  · rw [heq]
    refine ⟨rfl, fun n i hi ↦ ⟨i, ?_, .refl i⟩⟩
    have hlt : n < r.entries.length := (List.getElem?_eq_some_iff.1 hi).1
    rw [List.getElem?_append_left hlt, hi]

theorem continues_markReferenced (r : ImportRegistry) (path : String) :
    r.Continues (r.markReferenced path) := by
  refine ⟨rfl, fun n i hi ↦ ?_⟩
  rw [ImportRegistry.markReferenced, List.getElem?_map, hi]
  refine ⟨_, rfl, ?_⟩
  dsimp only
  split
  · exact ⟨rfl, rfl, fun _ ↦ rfl⟩
  · exact .refl i

theorem continues_perform (r : ImportRegistry) (call : Call) : r.Continues (r.perform call) := by
  cases call with
  | register hint path => exact r.continues_register hint path
  | markReferenced path => exact r.continues_markReferenced path

theorem continues_performAll (r : ImportRegistry) (calls : List Call) :
    r.Continues (r.performAll calls) := by
  induction calls generalizing r with
  | nil => exact .refl r
  | cons call rest ih => exact (r.continues_perform call).trans (ih _)

theorem Continues.exists_keeps (h : r.Continues r') (hd : r'.IsDistinct) {path : String}
    {i : Import} (hi : r.entry? path = some i) : ∃ j, r'.entry? path = some j ∧ i.Keeps j := by
  have hpath : i.path = path := by simpa using List.find?_some hi
  obtain ⟨n, hn⟩ := List.getElem?_of_mem (List.mem_of_find?_eq_some hi)
  obtain ⟨j, hj, hkeeps⟩ := h.entries n i hn
  exact ⟨j, hd.entry?_eq_some_iff.2 ⟨List.mem_of_getElem? hj, hkeeps.path.trans hpath⟩, hkeeps⟩

end Continues

theorem IsDistinct.perform {r : ImportRegistry} (h : r.IsDistinct) (call : Call) :
    (r.perform call).IsDistinct := by
  cases call with
  | register hint path => exact h.register hint path
  | markReferenced path => exact h.markReferenced path

theorem IsDistinct.performAll {r : ImportRegistry} (h : r.IsDistinct) (calls : List Call) :
    (r.performAll calls).IsDistinct := by
  induction calls generalizing r with
  | nil => exact h
  | cons call rest ih => exact ih (h.perform call)

theorem entries_create (destination : Option String) : (create destination).entries = [] := by
  cases destination <;> rfl

theorem isDistinct_create (destination : Option String) : (create destination).IsDistinct := by
  constructor <;> simp [entries_create]

/-- One of the calls registered the module that `path` means, and was answered with an entry. -/
def Answers (start : ImportRegistry) (calls : List Call) (path : String) (i : Import) : Prop :=
  ∃ earlier hint asked later, calls = earlier ++ .register hint asked :: later ∧
    ModulePath.registered asked = ModulePath.registered path ∧
    ((start.performAll earlier).register hint asked).registered? asked = some i

section Answers

variable {start r : ImportRegistry} {calls : List Call} {path : String} {i : Import}

theorem Answers.concat (h : start.Answers calls path i) (call : Call) :
    start.Answers (calls ++ [call]) path i := by
  obtain ⟨earlier, hint, asked, later, rfl, hasked, hi⟩ := h
  exact ⟨earlier, hint, asked, later ++ [call], by simp, hasked, hi⟩

theorem registered?_eq_some_iff : r.registered? path = some i ↔
    r.refuses (ModulePath.registered path) = false ∧
    r.entry? (ModulePath.registered path) = some i := by
  rw [registered?]
  cases r.refuses (ModulePath.registered path) <;> simp

theorem exists_answers (hstart : start.entries = [])
    (h : (start.performAll calls).find? path = some i) : ∃ j, start.Answers calls path j := by
  -- The last call brought in the entry, or it was there before.
  induction calls using List.reverseRecOn generalizing i with
  | nil =>
    rw [find?, performAll, List.foldl_nil, entry?, hstart] at h
    cases h
  | append_singleton calls call ih =>
    have hold {i : Import} (h : (start.performAll calls).find? path = some i) :
        ∃ j, start.Answers (calls ++ [call]) path j := by
      obtain ⟨j, hj⟩ := ih h
      exact ⟨j, hj.concat call⟩
    rw [performAll_concat] at h
    cases call with
    | markReferenced marked =>
      rw [perform, find?, entry?_markReferenced, Option.map_eq_some_iff] at h
      obtain ⟨j, hj, -⟩ := h
      exact hold hj
    | register hint asked =>
      rw [perform] at h
      obtain ⟨heq, -⟩ | ⟨qualifier, -, hrefuses, hnone, heq⟩ :=
        (start.performAll calls).register_cases hint (rfl : ModulePath.registered asked = _)
      · rw [heq] at h
        exact hold h
      · cases hfind : (start.performAll calls).find? path with
        | some j => exact hold hfind
        | none =>
          have hnew : ModulePath.registered asked = ModulePath.registered path := by
            rw [find?, entry?] at hfind
            rw [find?, heq, entry?, List.find?_append, hfind, Option.none_or,
              List.find?_singleton] at h
            by_contra hne
            simp [hne] at h
          refine ⟨i, calls, hint, asked, [], rfl, hnew, ?_⟩
          rw [find?, ← hnew] at h
          refine registered?_eq_some_iff.2 ⟨?_, h⟩
          rw [heq]
          exact hrefuses

end Answers

/-- What a registry has after some calls. -/
structure Remembers (start : ImportRegistry) (calls : List Call) (r : ImportRegistry) : Prop where
  paths : (r.entries.map (·.path)).Nodup
  qualifiers : (r.entries.map (·.qualifier)).Nodup
  continues : ∀ earlier later, calls = earlier ++ later → (start.performAll earlier).Continues r
  found_iff : ∀ path, (∃ i, r.find? path = some i) ↔ ∃ i, start.Answers calls path i
  kept : ∀ path i, start.Answers calls path i → ∃ j, r.find? path = some j ∧ i.Keeps j

/-- After any calls no path and no qualifier is there twice, what was there is still there, and a
path is found exactly if a call for its module was answered, with the qualifier of that answer. -/
theorem remembers_performAll (destination : Option String) (calls : List Call) :
    (create destination).Remembers calls ((create destination).performAll calls) := by
  have hdistinct := (isDistinct_create destination).performAll calls
  have hkept : ∀ path i, (create destination).Answers calls path i →
      ∃ j, ((create destination).performAll calls).find? path = some j ∧ i.Keeps j := by
    rintro path i ⟨earlier, hint, asked, later, rfl, hasked, hi⟩
    rw [performAll_append, performAll_cons] at hdistinct ⊢
    rw [find?, ← hasked]
    exact (continues_performAll _ later).exists_keeps hdistinct (registered?_eq_some_iff.1 hi).2
  refine ⟨hdistinct.paths, hdistinct.qualifiers, ?_, fun path ↦ ⟨?_, ?_⟩, hkept⟩
  · rintro earlier later rfl
    rw [performAll_append]
    exact continues_performAll _ later
  · rintro ⟨i, hi⟩
    exact exists_answers (entries_create destination) hi
  · rintro ⟨i, hi⟩
    obtain ⟨j, hj, -⟩ := hkept path i hi
    exact ⟨j, hj⟩

-- A qualifier that looks like a numbered one is numbered itself if it is taken.
example :
    ((create none).performAll [.register "log" "a/log", .register "log" "b/log",
      .markReferenced "b/log",
    .register "log1" "c/log1", .register "other" "vendor/a/log"]).entries =
    [⟨"log", "a/log", false⟩, ⟨"log1", "b/log", true⟩, ⟨"log11", "c/log1", false⟩] := by
  decide +kernel

end ImportRegistry

end Understudy
