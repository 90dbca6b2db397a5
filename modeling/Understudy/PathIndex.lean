namespace Understudy

structure OutOfBounds where
  position : Nat

def elementAt {α : Type} (xs : List α) (i : Nat) : Except OutOfBounds α :=
  match xs[i]? with
  | some x => .ok x
  | none => .error ⟨i⟩

theorem elementAt_eq_ok {α : Type} {xs : List α} {i : Nat} {x : α} (h : xs[i]? = some x) :
    elementAt xs i = .ok x := by
  rw [elementAt, h]

/-- An index leads from each path to its first position, and from nothing else anywhere. -/
structure IsPathIndex (positions : List (String × Nat)) (paths : List String) : Prop where
  lookup : ∀ path, positions.lookup path = paths.findIdx? (· = path)
  positions : ∀ entry ∈ positions, paths[entry.2]? = some entry.1

namespace IsPathIndex

variable {positions : List (String × Nat)} {paths : List String} {path : String} {i : Nat}

theorem nil : IsPathIndex [] [] := ⟨fun _ ↦ rfl, List.forall_mem_nil _⟩

theorem lt_length (h : IsPathIndex positions paths) : ∀ entry ∈ positions, entry.2 < paths.length :=
  fun entry hentry ↦ (List.getElem?_eq_some_iff.1 (h.positions entry hentry)).1

theorem getElem?_of_lookup (h : IsPathIndex positions paths) (hi : positions.lookup path = some i) :
    paths[i]? = some path := by
  rw [h.lookup] at hi
  obtain ⟨hlt, hpath, -⟩ := List.findIdx?_eq_some_iff_getElem.1 hi
  rw [List.getElem?_eq_getElem hlt, of_decide_eq_true hpath]

theorem lookup_iff (h : IsPathIndex positions paths) (hnodup : paths.Nodup) :
    positions.lookup path = some i ↔ paths[i]? = some path := by
  refine ⟨h.getElem?_of_lookup, fun hi ↦ ?_⟩
  have hmem : (paths.findIdx? (· = path)).isSome := by
    rw [List.findIdx?_isSome, List.any_eq_true]
    exact ⟨path, List.mem_of_getElem? hi, decide_eq_true rfl⟩
  obtain ⟨j, hj⟩ := Option.isSome_iff_exists.1 hmem
  rw [← h.lookup] at hj
  have hlt : i < paths.length := (List.getElem?_eq_some_iff.1 hi).1
  rwa [(List.getElem?_inj hlt hnodup).1 (hi.trans (h.getElem?_of_lookup hj).symm)]

theorem concat (h : IsPathIndex positions paths) (hnew : positions.lookup path = none) :
    IsPathIndex ((path, paths.length) :: positions) (paths ++ [path]) := by
  constructor
  · intro other
    rw [List.lookup_cons, List.findIdx?_append, List.findIdx?_singleton, ← h.lookup]
    by_cases hother : other = path
    · subst hother
      rw [beq_self_eq_true, hnew]
      simp
    · rw [beq_eq_false_iff_ne.2 hother]
      simp [Ne.symm hother]
  · refine List.forall_mem_cons.2 ⟨?_, fun entry hentry ↦ ?_⟩
    · simp
    · have hold := h.positions entry hentry
      rw [List.getElem?_append_left (List.getElem?_eq_some_iff.1 hold).1, hold]

end IsPathIndex

end Understudy
