import Understudy.ModuleSet.Indexed
import Understudy.Proofs.ImportClosure

namespace Understudy

namespace ModuleSet

inductive Call
  | insert (m : Module)
  | insertRoot (m : Module)
  | markRoot (path : String)
  | ofRoots (ms : List Module)

def Call.startsOver : Call → Bool
  | .ofRoots _ => true
  | _ => false

def perform (s : ModuleSet) : Call → ModuleSet
  | .insert m => s.insert m
  | .insertRoot m => s.insertRoot m
  | .markRoot path => s.markRoot path
  | .ofRoots ms => .ofRoots ms

def performAll (s : ModuleSet) (calls : List Call) : ModuleSet := calls.foldl perform s

theorem performAll_append (s : ModuleSet) (earlier later : List Call) :
    s.performAll (earlier ++ later) = (s.performAll earlier).performAll later := List.foldl_append

/-- What a set was given since it was begun. -/
structure History where
  /-- All modules, those under a path that was taken included. -/
  modules : List Module
  /-- The paths of what was made a root, each as often as it was. -/
  roots : List String

def History.begin : History := ⟨[], []⟩

def History.perform (h : History) : Call → History
  | .insert m => { h with modules := h.modules ++ [m] }
  | .insertRoot m => ⟨h.modules ++ [m], h.roots ++ [m.path]⟩
  | .markRoot path =>
    if path ∈ h.modules.map (·.path) then { h with roots := h.roots ++ [path] } else h
  | .ofRoots ms => ⟨ms, ms.map (·.path)⟩

def History.performAll (h : History) (calls : List Call) : History := calls.foldl History.perform h

section Continues

/-- Every module and every root of one set stands at the same place in another. -/
structure Continues (s s' : ModuleSet) : Prop where
  modules : s.modules <+: s'.modules
  roots : s.roots <+: s'.roots

variable {s s' s'' : ModuleSet}

theorem Continues.refl : s.Continues s := ⟨List.prefix_rfl, List.prefix_rfl⟩

theorem Continues.trans (h : s.Continues s') (h' : s'.Continues s'') : s.Continues s'' :=
  ⟨h.modules.trans h'.modules, h.roots.trans h'.roots⟩

theorem continues_insert (s : ModuleSet) (m : Module) : s.Continues (s.insert m) := by
  unfold insert
  split
  · exact .refl
  · exact ⟨List.prefix_append _ _, List.prefix_rfl⟩

theorem continues_markRoot (s : ModuleSet) (path : String) : s.Continues (s.markRoot path) := by
  unfold markRoot
  split
  · split
    · exact .refl
    · exact ⟨List.prefix_rfl, List.prefix_append _ _⟩
  · exact .refl

theorem continues_perform (s : ModuleSet) {call : Call} (h : call.startsOver = false) :
    s.Continues (s.perform call) := by
  cases call with
  | insert m => exact s.continues_insert m
  | insertRoot m => exact (s.continues_insert m).trans (continues_markRoot _ m.path)
  | markRoot path => exact s.continues_markRoot path
  | ofRoots ms => cases h

theorem continues_performAll (s : ModuleSet) {calls : List Call}
    (h : ∀ call ∈ calls, call.startsOver = false) : s.Continues (s.performAll calls) := by
  induction calls generalizing s with
  | nil => exact .refl
  | cons call rest ih =>
    obtain ⟨hcall, hrest⟩ := List.forall_mem_cons.1 h
    exact (s.continues_perform hcall).trans (ih _ hrest)

end Continues

section Recalls

/-- A set keeps of what it was given the first module under each path, and the first time that one
was made a root. -/
structure Recalls (s : ModuleSet) (h : History) : Prop where
  nodup : (s.modules.map (·.path)).Nodup
  isRooted : s.IsRooted
  nodup_roots : s.roots.Nodup
  get : ∀ path, s.get? path = h.modules.find? (·.path = path)
  rootPaths : s.rootPaths = h.roots.eraseDups

variable {s : ModuleSet} {h : History}

theorem recalls_empty : empty.Recalls .begin :=
  ⟨List.nodup_nil, List.forall_mem_nil _, List.nodup_nil, fun _ ↦ rfl, rfl⟩

theorem Recalls.contains_iff (hs : s.Recalls h) {path : String} :
    s.contains path = true ↔ path ∈ h.modules.map (·.path) := by
  rw [contains_eq, hs.get, List.find?_isSome]
  simp

theorem Recalls.insert (hs : s.Recalls h) (m : Module) :
    (s.insert m).Recalls (h.perform (.insert m)) := by
  have hget : ∀ path, (s.insert m).get? path = (h.modules ++ [m]).find? (·.path = path) := by
    intro path
    rw [get?_insert, hs.get, List.find?_append, List.find?_singleton]
    simp only [decide_eq_true_eq]
  cases hm : s.contains m.path with
  | true =>
    have hsame : s.insert m = s := by rw [ModuleSet.insert, hm, if_pos rfl]
    rw [hsame] at hget ⊢
    exact ⟨hs.nodup, hs.isRooted, hs.nodup_roots, hget, hs.rootPaths⟩
  | false =>
    rw [insert_of_fresh hm] at hget ⊢
    refine ⟨?_, fun i hi ↦ ?_, hs.nodup_roots, hget,
      (rootPaths_append hs.isRooted).trans hs.rootPaths⟩
    · have hfresh : m.path ∉ s.modules.map (·.path) := by
        rw [← contains_eq_true, hm]
        exact Bool.false_ne_true
      rw [List.map_append, List.map_singleton]
      exact List.nodup_append_comm.1 (List.nodup_cons.2 ⟨hfresh, hs.nodup⟩)
    · rw [List.length_append]
      exact Nat.lt_add_right _ (hs.isRooted i hi)

theorem nodup_roots_markRoot (hs : s.roots.Nodup) (path : String) :
    (s.markRoot path).roots.Nodup := by
  unfold markRoot
  split
  · split
    · exact hs
    · exact List.nodup_append_comm.1 (List.nodup_cons.2 ⟨‹_›, hs⟩)
  · exact hs

theorem Recalls.markRoot_of_contains (hs : s.Recalls h) {path : String}
    (hp : s.contains path = true) :
    (s.markRoot path).Recalls { h with roots := h.roots ++ [path] } := by
  refine ⟨?_, hs.isRooted.markRoot hs.nodup hp, nodup_roots_markRoot hs.nodup_roots path,
    fun other ↦ ?_, ?_⟩
  · rw [modules_markRoot]
    exact hs.nodup
  · rw [get?, modules_markRoot]
    exact hs.get other
  · rw [rootPaths_markRoot hs.nodup hp, hs.rootPaths, eraseDups_append_singleton]
    simp only [List.mem_eraseDups]

theorem Recalls.markRoot (hs : s.Recalls h) (path : String) :
    (s.markRoot path).Recalls (h.perform (.markRoot path)) := by
  rw [History.perform]
  split
  · exact hs.markRoot_of_contains (hs.contains_iff.2 ‹_›)
  · have hnone : s.index? path = none := by
      rw [← Option.not_isSome_iff_eq_none]
      exact fun hsome ↦ absurd (hs.contains_iff.1 hsome) ‹_›
    rw [ModuleSet.markRoot, hnone]
    exact hs

theorem Recalls.insertRoot (hs : s.Recalls h) (m : Module) :
    (s.insertRoot m).Recalls (h.perform (.insertRoot m)) := by
  apply (hs.insert m).markRoot_of_contains
  rw [contains_insert, decide_eq_true rfl, Bool.or_true]

theorem Recalls.foldl_insertRoot (hs : s.Recalls h) (ms : List Module) :
    (ms.foldl ModuleSet.insertRoot s).Recalls ⟨h.modules ++ ms, h.roots ++ ms.map (·.path)⟩ := by
  induction ms generalizing s h with
  | nil => simpa using hs
  | cons m rest ih => simpa [History.perform] using ih (hs.insertRoot m)

theorem Recalls.perform (hs : s.Recalls h) (call : Call) :
    (s.perform call).Recalls (h.perform call) := by
  cases call with
  | insert m => exact hs.insert m
  | insertRoot m => exact hs.insertRoot m
  | markRoot path => exact hs.markRoot path
  | ofRoots ms => exact recalls_empty.foldl_insertRoot ms

theorem Recalls.performAll (hs : s.Recalls h) (calls : List Call) :
    (s.performAll calls).Recalls (h.performAll calls) := by
  induction calls generalizing s h with
  | nil => exact hs
  | cons call rest ih => exact ih (hs.perform call)

end Recalls

end ModuleSet

namespace IndexedSet

open ModuleSet (Call History)

def perform (s : IndexedSet) : Call → IndexedSet
  | .insert m => (s.insert m).1
  | .insertRoot m => (s.insertRoot m).1
  | .markRoot path => (s.markRoot path).1
  | .ofRoots ms => .ofRoots ms

def performAll (s : IndexedSet) (calls : List Call) : IndexedSet := calls.foldl perform s

def InStep (s : IndexedSet) : Prop := IsPathIndex s.positions (s.modules.map (·.path))

variable {s : IndexedSet}

theorem inStep_empty : empty.InStep := .nil

theorem InStep.lookup (h : s.InStep) (path : String) :
    s.positions.lookup path = s.forget.index? path := by
  rw [IsPathIndex.lookup h, List.findIdx?_map]
  rfl

theorem InStep.contains_eq (h : s.InStep) (path : String) :
    s.contains path = s.forget.contains path := by
  rw [IndexedSet.contains, h.lookup, ModuleSet.contains]

theorem forget_addRoot (s : IndexedSet) (i : Nat) :
    (s.addRoot i).forget = if i ∈ s.roots then s.forget
    else { s.forget with roots := s.roots ++ [i] } := by
  rw [addRoot]
  split <;> rfl

theorem InStep.addRoot (h : s.InStep) (i : Nat) : (s.addRoot i).InStep := by
  unfold IndexedSet.addRoot
  split <;> exact h

theorem InStep.insert (h : s.InStep) (m : Module) : (s.insert m).1.InStep ∧
    (s.insert m).1.forget = s.forget.insert m ∧ (s.forget.insert m).index? m.path =
      some (s.insert m).2 := by
  rw [IndexedSet.insert, h.lookup]
  cases hi : s.forget.index? m.path with
  | some i =>
    have hsame : s.forget.insert m = s.forget := by
      rw [ModuleSet.insert, ModuleSet.contains, hi, Option.isSome_some, if_pos rfl]
    rw [hsame]
    exact ⟨h, rfl, hi⟩
  | none =>
    have hfresh : s.forget.contains m.path = false := by
      rw [ModuleSet.contains, hi, Option.isSome_none]
    have hnew := IsPathIndex.concat h ((h.lookup m.path).trans hi)
    rw [List.length_map, ← List.map_singleton, ← List.map_append] at hnew
    rw [ModuleSet.insert_of_fresh hfresh]
    have hstep : InStep ⟨s.modules ++ [m], s.roots, (m.path, s.modules.length) :: s.positions⟩ :=
      hnew
    refine ⟨hstep, rfl, (hstep.lookup m.path).symm.trans ?_⟩
    simp

/-- A set with an index does what the set without it does. -/
structure Mirrors (s : IndexedSet) (s' : ModuleSet) : Prop where
  inStep : s.InStep
  forget : s.forget = s'

section Mirrors

variable {s' : ModuleSet}

theorem Mirrors.insert (h : s.Mirrors s') (m : Module) : (s.insert m).1.Mirrors (s'.insert m) := by
  obtain ⟨hstep, hforget, -⟩ := h.inStep.insert m
  exact ⟨hstep, hforget.trans (congrArg (·.insert m) h.forget)⟩

theorem Mirrors.addRoot (h : s.Mirrors s') {i : Nat} {path : String}
    (hi : s'.index? path = some i) : (s.addRoot i).Mirrors (s'.markRoot path) := by
  obtain ⟨hstep, rfl⟩ := h
  refine ⟨hstep.addRoot i, ?_⟩
  rw [forget_addRoot, ModuleSet.markRoot, hi]
  rfl

theorem Mirrors.insertRoot (h : s.Mirrors s') (m : Module) :
    (s.insertRoot m).1.Mirrors (s'.insertRoot m) := by
  obtain ⟨hstep, rfl⟩ := h
  obtain ⟨hstep', hforget, hindex⟩ := hstep.insert m
  exact Mirrors.addRoot ⟨hstep', hforget⟩ hindex

theorem Mirrors.markRoot (h : s.Mirrors s') (path : String) :
    (s.markRoot path).1.Mirrors (s'.markRoot path) ∧ (s.markRoot path).2 = s'.contains path := by
  have hlookup : s.positions.lookup path = s'.index? path := by rw [h.inStep.lookup, h.forget]
  rw [IndexedSet.markRoot, hlookup, ModuleSet.contains]
  cases hi : s'.index? path with
  | some i => exact ⟨h.addRoot hi, rfl⟩
  | none =>
    rw [ModuleSet.markRoot, hi]
    exact ⟨h, rfl⟩

theorem Mirrors.foldl_insertRoot (h : s.Mirrors s') (ms : List Module) :
    (ms.foldl (fun s m ↦ (s.insertRoot m).1) s).Mirrors (ms.foldl ModuleSet.insertRoot s') := by
  induction ms generalizing s s' with
  | nil => exact h
  | cons m rest ih => exact ih (h.insertRoot m)

theorem Mirrors.perform (h : s.Mirrors s') (call : Call) :
    (s.perform call).Mirrors (s'.perform call) := by
  cases call with
  | insert m => exact h.insert m
  | insertRoot m => exact h.insertRoot m
  | markRoot path => exact (h.markRoot path).1
  | ofRoots ms => exact Mirrors.foldl_insertRoot ⟨inStep_empty, rfl⟩ ms

theorem Mirrors.performAll (h : s.Mirrors s') (calls : List Call) :
    (s.performAll calls).Mirrors (s'.performAll calls) := by
  induction calls generalizing s s' with
  | nil => exact h
  | cons call rest ih => exact ih (h.perform call)

end Mirrors

section Access

theorem InStep.get_eq (h : s.InStep) (path : String) : s.get path = .ok (s.forget.get? path) := by
  have hget : s.forget.get? path = (s.forget.index? path).bind (s.modules[·]?) :=
    List.find?_eq_bind_findIdx?_getElem?
  rw [get, h.lookup, hget]
  cases hi : s.forget.index? path with
  | none => rfl
  | some i =>
    have hlt : i < s.modules.length := (List.findIdx?_eq_some_iff_getElem.1 hi).1
    have hm := List.getElem?_eq_getElem hlt
    dsimp only [Option.bind_some]
    rw [moduleAt, elementAt_eq_ok hm, hm]
    rfl

theorem mapM_moduleAt {positions : List Nat} (h : ∀ i ∈ positions, i < s.modules.length) :
    positions.mapM s.moduleAt = .ok (positions.filterMap (s.modules[·]?)) := by
  induction positions with
  | nil => rfl
  | cons i rest ih =>
    obtain ⟨hi, hrest⟩ := List.forall_mem_cons.1 h
    have hget := List.getElem?_eq_getElem hi
    rw [List.mapM_cons, moduleAt, elementAt_eq_ok hget, ih hrest, List.filterMap_cons_some hget]
    rfl

theorem InStep.lookup_iff (h : s.InStep) (hnodup : (s.modules.map (·.path)).Nodup) {path : String}
    {i : Nat} : s.positions.lookup path = some i ↔ ∃ m, s.modules[i]? = some m ∧ m.path = path := by
  rw [IsPathIndex.lookup_iff h hnodup, List.getElem?_map, Option.map_eq_some_iff]

end Access

/-- What holds after some calls of a set with an index and of the set without it. -/
structure Represents (calls : List Call) (s : IndexedSet) (s' : ModuleSet) : Prop where
  forget : s.forget = s'
  positions_lt : ∀ entry ∈ s.positions, entry.2 < s.modules.length
  roots_lt : ∀ i ∈ s.roots, i < s.modules.length
  lookup_iff : ∀ path i, s.positions.lookup path = some i ↔
      ∃ m, s.modules[i]? = some m ∧ m.path = path
  nodup : (s.modules.map (·.path)).Nodup
  nodup_roots : s.roots.Nodup
  get : ∀ path, s.get path = .ok (s'.get? path)
  rootModules : s.rootModules = .ok s'.rootModules
  /-- The first module that came in under a path is the one that is found. -/
  first : ∀ path, s'.get? path = (History.begin.performAll calls).modules.find? (·.path = path)
  /-- The roots are in the order in which they became roots for the first time. -/
  ordered : s'.rootModules.map (·.path) = (History.begin.performAll calls).roots.eraseDups
  /-- What was there stays in its place, unless a new set was begun since. -/
  continues : ∀ earlier later, calls = earlier ++ later →
      (∀ call ∈ later, call.startsOver = false) →
    (empty.performAll earlier).modules <+: s.modules ∧ (empty.performAll earlier).roots <+: s.roots

/-- After any calls each path of a module leads to its position and no access goes out of bounds.
The first module under a path stays, and so does each root. -/
theorem represents_performAll (calls : List Call) :
    Represents calls (empty.performAll calls) (ModuleSet.empty.performAll calls) := by
  have hmirrors : ∀ calls, (empty.performAll calls).Mirrors (ModuleSet.empty.performAll calls) :=
    Mirrors.performAll ⟨inStep_empty, rfl⟩
  obtain ⟨hstep, hforget⟩ := hmirrors calls
  have hrecalls := ModuleSet.recalls_empty.performAll calls
  rw [← hforget] at hrecalls ⊢
  have hlt := IsPathIndex.lt_length hstep
  rw [List.length_map] at hlt
  refine ⟨rfl, hlt, hrecalls.isRooted, fun path i ↦ hstep.lookup_iff hrecalls.nodup, hrecalls.nodup,
    hrecalls.nodup_roots, hstep.get_eq, mapM_moduleAt hrecalls.isRooted, hrecalls.get,
    hrecalls.rootPaths, ?_⟩
  rintro earlier later rfl hlater
  have hcontinues := (ModuleSet.empty.performAll earlier).continues_performAll hlater
  rw [← ModuleSet.performAll_append, ← hforget, ← (hmirrors earlier).forget] at hcontinues
  exact ⟨hcontinues.modules, hcontinues.roots⟩

-- A module under a path that is taken does not come in, but makes the first one a root.
example :
    (empty.performAll [.insert ⟨"dep", "dep", none, []⟩, .insertRoot ⟨"b", "b", none, []⟩,
      .markRoot "c",
    .insertRoot ⟨"dep", "other", none, []⟩, .markRoot "b"]).roots = [1, 0] := by decide

end IndexedSet

end Understudy
