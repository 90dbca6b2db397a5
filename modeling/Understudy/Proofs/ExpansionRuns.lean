import Mathlib.Data.List.Perm.Basic
import Understudy.Proofs.Embedding

namespace Understudy

def ModuleSet.isExpandable (s : ModuleSet) (t : Ty) : Bool :=
  match s.underlying? t with
  | some (.interface _ _) => true
  | _ => false

theorem Ty.asNamed?_eq_some {t : Ty} {name : TypeName} :
    t.asNamed? = some name ↔ t = .named (some name) := by
  cases t <;> simp [asNamed?]

namespace Expansion

open Ty (errorName)

inductive Fate
  | passed
  | error
  | expanded (methods : List (Method Ty)) (embedded : List Ty)
  | refused

/-- Only interfaces are expanded, whether they stand there themselves or behind a name. -/
def behind (s : ModuleSet) (t : Ty) : Fate :=
  match s.underlying? t with
  | some (.interface methods embedded) => .expanded methods embedded
  | _ => .refused

/-- A name that was dealt with is passed over, and the method of the type of failures is known. -/
def fate (s : ModuleSet) (x : Expansion) (t : Ty) : Fate :=
  if t.asNamed?.any x.seen.contains then .passed
  else if t.asNamed? = some errorName then .error
  else behind s t

def meet (x : Expansion) (t : Ty) : Expansion :=
  match t.asNamed? with
  | some name => x.mark name
  | none => x

/-- What is done with an embedded type: the interface behind it is expanded, which embeds some
types, or it is reported. -/
inductive Step
  | expand (t : Ty) (embedded : List Ty)
  | refuse (t : Ty)

namespace Step

def type : Step → Ty
  | .expand t _ => t
  | .refuse t => t

def embedded : Step → List Ty
  | .expand _ embedded => embedded
  | .refuse _ => []

def expanded? : Step → Option Ty
  | .expand t _ => some t
  | .refuse _ => none

def refused? : Step → Option Ty
  | .expand _ _ => none
  | .refuse t => some t

end Step

/-- The expansion of the types that an interface embeds, with its steps in their order. -/
inductive Runs (s : ModuleSet) : Expansion → List Ty → List Step → Expansion → Prop
  | done (x : Expansion) : Runs s x [] [] x
  | passed {x y : Expansion} {t : Ty} {rest : List Ty} {steps : List Step}
      (h : x.fate s t = .passed) (hrest : Runs s x rest steps y) : Runs s x (t :: rest) steps y
  | error {x y : Expansion} {t : Ty} {rest : List Ty} {steps : List Step} (h : x.fate s t = .error)
    (hrest : Runs s ((x.meet t).add [errorMethod]) rest steps y) : Runs s x (t :: rest) steps y
  | expanded {x y z : Expansion} {t : Ty} {rest embedded : List Ty} {methods : List (Method Ty)}
      {inner later : List Step} (h : x.fate s t = .expanded methods embedded)
      (hinner : Runs s ((x.meet t).add methods) embedded inner y) (hrest : Runs s y rest later z) :
      Runs s x (t :: rest) (.expand t embedded :: (inner ++ later)) z
  | refused {x y : Expansion} {t : Ty} {rest : List Ty} {steps : List Step}
      (h : x.fate s t = .refused) (hrest : Runs s ((x.meet t).refuse t) rest steps y) :
      Runs s x (t :: rest) (.refuse t :: steps) y

variable {s : ModuleSet} {x y z : Expansion} {t : Ty} {ts us : List Ty} {steps later : List Step}
    {name : TypeName}

section Fates

def IsNew (x : Expansion) (t : Ty) : Prop := ∀ name, t.asNamed? = some name → name ∉ x.seen

/-- What a fate says of the type that meets it. -/
def Fate.Tells (s : ModuleSet) (x : Expansion) (t : Ty) : Fate → Prop
  | .passed => ∃ name, t.asNamed? = some name ∧ name ∈ x.seen
  | .error => t.asNamed? = some errorName ∧ x.IsNew t
  | .expanded methods embedded => t.asNamed? ≠ some errorName ∧ x.IsNew t ∧
      s.underlying? t = some (.interface methods embedded)
  | .refused => t.asNamed? ≠ some errorName ∧ x.IsNew t ∧ s.isExpandable t = false

theorem fate_tells (s : ModuleSet) (x : Expansion) (t : Ty) : (x.fate s t).Tells s x t := by
  unfold fate
  split
  · simpa [Fate.Tells, Option.any_eq_true] using ‹t.asNamed?.any x.seen.contains = true›
  · rename_i hany
    have hnew : x.IsNew t := by
      intro name hname hseen
      apply hany
      rw [hname]
      exact List.contains_iff_mem.2 hseen
    split
    · exact ⟨‹_›, hnew⟩
    · rename_i herror
      unfold behind
      split
      · exact ⟨herror, hnew, ‹_›⟩
      · rename_i hne
        refine ⟨herror, hnew, ?_⟩
        unfold ModuleSet.isExpandable
        split
        · exact absurd ‹_› (hne _ _)
        · rfl

theorem fate_of_asNamed?_eq_none (h : t.asNamed? = none) (x : Expansion) :
    x.fate s t = behind s t := by
  rw [fate, h]
  rfl

theorem behind_eq_refused
    (h : ∀ methods embedded, s.underlying? t ≠ some (.interface methods embedded)) :
    behind s t = .refused := by
  unfold behind
  split
  · exact absurd ‹_› (h _ _)
  · rfl

theorem Fate.Tells.of_eq {fate : Fate} (h : x.fate s t = fate) : fate.Tells s x t :=
  h ▸ fate_tells s x t

theorem mem_seen_meet : name ∈ (x.meet t).seen ↔ t.asNamed? = some name ∨ name ∈ x.seen := by
  unfold meet
  split
  · rename_i other h
    rw [h, mark, List.mem_cons, Option.some.injEq, eq_comm]
  · rename_i h
    simp [h]

theorem extends_meet (x : Expansion) (t : Ty) : x.Extends (x.meet t) := by
  unfold meet
  split
  · exact x.extends_mark _
  · exact .refl

theorem problems_meet (x : Expansion) (t : Ty) : (x.meet t).problems = x.problems := by
  unfold meet
  split <;> rfl

end Fates

section Runs

theorem Runs.append (h : Runs s x ts steps y) (h' : Runs s y us later z) :
    Runs s x (ts ++ us) (steps ++ later) z := by
  induction h with
  | done => exact h'
  | passed hfate _ ih => exact .passed hfate (ih h')
  | error hfate _ ih => exact .error hfate (ih h')
  | expanded hfate hinner _ _ ih =>
    rw [List.cons_append, List.cons_append, List.append_assoc]
    exact .expanded hfate hinner (ih h')
  | refused hfate _ ih => exact .refused hfate (ih h')

theorem Runs.unique (h : Runs s x ts steps y) (h' : Runs s x ts later z) :
    later = steps ∧ z = y := by
  induction h generalizing later z with
  | done =>
    cases h'
    exact ⟨rfl, rfl⟩
  | passed hfate _ ih =>
    cases h' with
    | passed _ hrest => exact ih hrest
    | error hfate' _ | expanded hfate' _ _ | refused hfate' _ => cases hfate.symm.trans hfate'
  | error hfate _ ih =>
    cases h' with
    | error _ hrest => exact ih hrest
    | passed hfate' _ | expanded hfate' _ _ | refused hfate' _ => cases hfate.symm.trans hfate'
  | expanded hfate _ _ ihinner ihrest =>
    cases h' with
    | expanded hfate' hinner hrest =>
      cases hfate.symm.trans hfate'
      obtain ⟨rfl, rfl⟩ := ihinner hinner
      obtain ⟨rfl, rfl⟩ := ihrest hrest
      exact ⟨rfl, rfl⟩
    | passed hfate' _ | error hfate' _ | refused hfate' _ => cases hfate.symm.trans hfate'
  | refused hfate _ ih =>
    cases h' with
    | refused _ hrest =>
      obtain ⟨rfl, rfl⟩ := ih hrest
      exact ⟨rfl, rfl⟩
    | passed hfate' _ | error hfate' _ | expanded hfate' _ _ => cases hfate.symm.trans hfate'

theorem Runs.extends (h : Runs s x ts steps y) : x.Extends y := by
  induction h with
  | done => exact .refl
  | passed _ _ ih => exact ih
  | error _ _ ih => exact ((extends_meet _ _).trans (extends_add _ _)).trans ih
  | expanded _ _ _ ihinner ihrest =>
    exact (((extends_meet _ _).trans (extends_add _ _)).trans ihinner).trans ihrest
  | refused _ _ ih => exact ((extends_meet _ _).trans (extends_refuse _ _)).trans ih

end Runs

end Expansion

namespace Ty

open Expansion (left Runs)

/-- What follows the names that are embedded is a run, where fewer than `n` names are left. -/
def RunsBelow (s : ModuleSet) (names : List TypeName) (n : Nat)
    (named : List (Method Ty) → List Ty → Expansion → Expansion) : Prop :=
  ∀ methods embedded x, embeddedNamesAll embedded ⊆ names → left names x < n →
    ∃ steps, Runs s (x.add methods) embedded steps (named methods embedded x)

section Ends

variable {s : ModuleSet} {names : List TypeName} {n : Nat}
    {named : List (Method Ty) → List Ty → Expansion → Expansion}

theorem runs_named (hs : s.embeddedNames ⊆ names) (hnamed : RunsBelow s names n named)
    {x : Expansion} {name : TypeName} (hname : name ∈ names) (hx : left names x ≤ n) :
    ∃ steps, Runs s x [.named (some name)] steps (embed s named x (.named (some name))) := by
  have hfate : x.fate s (.named (some name)) = if x.seen.contains name then .passed else
      if name = errorName then .error else Expansion.behind s (.named (some name)) := by
    simp [Expansion.fate, asNamed?]
  rw [embed]
  split
  · rename_i hseen
    rw [if_pos hseen] at hfate
    exact ⟨[], .passed hfate (.done x)⟩
  · rename_i hnew
    rw [if_neg hnew] at hfate
    have hleft : left names (x.mark name) < n := by
      refine Nat.lt_of_lt_of_le (Expansion.left_mark_lt hname fun hseen ↦ hnew ?_) hx
      exact List.contains_iff_mem.2 hseen
    dsimp only
    split
    · rename_i herror
      rw [if_pos herror] at hfate
      exact ⟨[], .error hfate (.done _)⟩
    · rename_i herror
      rw [if_neg herror] at hfate
      split
      · rename_i methods embedded hu
        rw [Expansion.behind, hu] at hfate
        have hembedded : embeddedNamesAll embedded ⊆ names :=
          List.Subset.trans (embeddedNames_subset_of_ne hu fun h ↦ by cases h) hs
        obtain ⟨steps, hsteps⟩ := hnamed methods embedded (x.mark name) hembedded hleft
        exact ⟨_, .expanded hfate hsteps (.done _)⟩
      · rename_i hne
        exact ⟨_, .refused (hfate.trans (Expansion.behind_eq_refused hne)) (.done _)⟩

mutual

theorem runs_embed (hs : s.embeddedNames ⊆ names) (hnamed : RunsBelow s names n named)
    {x : Expansion} {t : Ty} (ht : t.embeddedNames ⊆ names) (hx : left names x ≤ n) :
    ∃ steps, Runs s x [t] steps (embed s named x t) := by
  cases t with
  | interface methods embedded =>
    have hfate : x.fate s (.interface methods embedded) = .expanded methods embedded := by
      have hself : s.underlying? (.interface methods embedded) =
          some (.interface methods embedded) :=
        ModuleSet.underlying?_of_ne nofun
      rw [Expansion.fate_of_asNamed?_eq_none rfl, Expansion.behind, hself]
    have hleft : left names (x.add methods) ≤ left names x :=
      Expansion.left_le (x.extends_add methods)
    obtain ⟨steps, hsteps⟩ := runs_embedAll hs hnamed ht (Nat.le_trans hleft hx)
    exact ⟨_, .expanded hfate hsteps (.done _)⟩
  | named name =>
    cases name with
    | none =>
      refine ⟨_, .refused ((Expansion.fate_of_asNamed?_eq_none rfl x).trans ?_) (.done _)⟩
      apply Expansion.behind_eq_refused
      intro methods embedded hu
      rw [ModuleSet.underlying?, ModuleSet.expand?] at hu
      cases hu
    | some name => exact runs_named hs hnamed (ht (List.mem_singleton_self _)) hx
  | _ =>
    refine ⟨_, .refused ((Expansion.fate_of_asNamed?_eq_none rfl x).trans ?_) (.done _)⟩
    apply Expansion.behind_eq_refused
    intro methods embedded hu
    rcases ModuleSet.eq_or_named hu with heq | ⟨name, heq⟩ <;> cases heq
termination_by structural t

theorem runs_embedAll (hs : s.embeddedNames ⊆ names) (hnamed : RunsBelow s names n named)
    {x : Expansion} {ts : List Ty} (hts : embeddedNamesAll ts ⊆ names) (hx : left names x ≤ n) :
    ∃ steps, Runs s x ts steps (embedAll s named x ts) := by
  cases ts with
  | nil => exact ⟨[], .done x⟩
  | cons t rest =>
    obtain ⟨ht, hrest⟩ := List.append_subset.1 hts
    obtain ⟨steps, hsteps⟩ := runs_embed hs hnamed ht hx
    have hleft : left names (embed s named x t) ≤ left names x := Expansion.left_le hsteps.extends
    obtain ⟨later, hlater⟩ := runs_embedAll hs hnamed hrest (Nat.le_trans hleft hx)
    exact ⟨_, hsteps.append hlater⟩
termination_by structural ts

end

/-- No bound on the depth shows, as long as it exceeds the number of names that are left. -/
theorem runsBelow_expand (hs : s.embeddedNames ⊆ names) (n : Nat) :
    RunsBelow s names n (expand s n) := by
  induction n with
  | zero =>
    intro methods embedded x _ hx
    omega
  | succ n ih =>
    intro methods embedded x hembedded hx
    have hleft : left names (x.add methods) ≤ left names x :=
      Expansion.left_le (x.extends_add methods)
    exact runs_embedAll hs ih hembedded (by omega)

theorem runs_expansion (s : ModuleSet) (methods : List (Method Ty)) (embedded : List Ty) :
    ∃ steps, Runs s (Expansion.start.add methods) embedded steps
      (expansion s methods embedded) := by
  have hs := List.subset_append_left s.embeddedNames (embeddedNamesAll embedded)
  apply runsBelow_expand hs _ methods embedded .start (List.subset_append_right _ _)
  exact Nat.lt_succ_of_le List.countP_le_length

end Ends

end Ty

namespace Expansion

open Ty (errorName)

section Accounts

variable {s : ModuleSet} {x y z : Expansion} {t : Ty} {ts : List Ty} {steps : List Step}
    {name : TypeName}

def namesOf (ts : List Ty) : List TypeName := ts.filterMap Ty.asNamed?

theorem mem_namesOf : name ∈ namesOf ts ↔ .named (some name) ∈ ts := by
  simp [namesOf, Ty.asNamed?_eq_some]

theorem mem_namesOf_cons :
    name ∈ namesOf (t :: ts) ↔ t.asNamed? = some name ∨ name ∈ namesOf ts := by
  rw [mem_namesOf, mem_namesOf, List.mem_cons, Ty.asNamed?_eq_some, eq_comm]

theorem namesOf_append (ts us : List Ty) : namesOf (ts ++ us) = namesOf ts ++ namesOf us :=
  List.filterMap_append

theorem nodup_namesOf_cons (ht : ∀ name, t.asNamed? = some name → name ∉ namesOf ts)
    (h : (namesOf ts).Nodup) : (namesOf (t :: ts)).Nodup := by
  cases hname : t.asNamed? with
  | none =>
    rw [namesOf, List.filterMap_cons_none hname]
    exact h
  | some name =>
    rw [namesOf, List.filterMap_cons_some hname]
    exact List.nodup_cons.2 ⟨ht name hname, h⟩

/-- The types that are met in a run: those that it starts with, and what the interfaces embed that
it expands. -/
def met (ts : List Ty) (steps : List Step) : List Ty := ts ++ steps.flatMap Step.embedded

theorem met_cons (t : Ty) (ts : List Ty) (steps : List Step) :
    met (t :: ts) steps = t :: met ts steps := rfl

theorem met_refuse (t : Ty) (ts : List Ty) (steps : List Step) :
    met ts (.refuse t :: steps) = met ts steps := rfl

theorem perm_met_expand (t : Ty) (rest embedded : List Ty) (inner later : List Step) :
    (met (t :: rest) (.expand t embedded :: (inner ++ later))).Perm
    (t :: (met embedded inner ++ met rest later)) := by
  simp only [met, List.flatMap_cons, List.flatMap_append, Step.embedded, List.cons_append]
  apply List.Perm.cons
  simpa only [List.append_assoc]
    using List.perm_append_comm_assoc rest (embedded ++ inner.flatMap Step.embedded)
    (later.flatMap Step.embedded)

theorem mem_namesOf_met_expand {rest embedded : List Ty} {inner later : List Step} :
    name ∈ namesOf (met (t :: rest) (.expand t embedded :: (inner ++ later))) ↔
      t.asNamed? = some name ∨ name ∈ namesOf (met embedded inner) ∨
      name ∈ namesOf (met rest later) := by
  have hperm := (perm_met_expand t rest embedded inner later).filterMap Ty.asNamed?
  rw [namesOf, hperm.mem_iff, ← namesOf, mem_namesOf_cons, namesOf_append, List.mem_append]

theorem Runs.mem_seen (h : Runs s x ts steps y) :
    name ∈ y.seen ↔ name ∈ x.seen ∨ name ∈ namesOf (met ts steps) := by
  induction h with
  | done => simp [met, namesOf]
  | passed hfate _ ih =>
    obtain ⟨other, hother, hseen⟩ := Fate.Tells.of_eq hfate
    rw [ih, met_cons, mem_namesOf_cons, hother]
    grind
  | error hfate _ ih =>
    rw [ih, add, mem_seen_meet, met_cons, mem_namesOf_cons]
    grind
  | expanded hfate _ _ ihinner ihrest =>
    rw [ihrest, ihinner, add, mem_seen_meet, mem_namesOf_met_expand]
    grind
  | refused hfate _ ih =>
    rw [ih, refuse, mem_seen_meet, met_cons, met_refuse, mem_namesOf_cons]
    grind

theorem Runs.mem_types (h : Runs s x ts steps y) : name ∈ namesOf (steps.map Step.type) ↔
    name ∈ namesOf (met ts steps) ∧ name ∉ x.seen ∧ name ≠ errorName := by
  induction h with
  | done => simp [met, namesOf]
  | passed hfate _ ih =>
    obtain ⟨other, hother, hseen⟩ := Fate.Tells.of_eq hfate
    rw [ih, met_cons, mem_namesOf_cons, hother]
    grind
  | error hfate _ ih =>
    obtain ⟨hname, hnew⟩ := Fate.Tells.of_eq hfate
    rw [ih, add, mem_seen_meet, met_cons, mem_namesOf_cons, hname]
    grind
  | @expanded x y z t rest embedded methods inner later hfate hinner _ ihinner ihrest =>
    obtain ⟨herror, hnew, -⟩ := Fate.Tells.of_eq hfate
    have hnew := hnew name
    have hseen : name ∈ y.seen ↔ _ := hinner.mem_seen
    have hmeet : name ∈ (x.meet t).seen ↔ _ := mem_seen_meet
    rw [List.map_cons, List.map_append, mem_namesOf_cons, namesOf_append, List.mem_append,
      ihinner, ihrest, hseen, add, hmeet, mem_namesOf_met_expand]
    grind [Step.type]
  | refused hfate _ ih =>
    obtain ⟨herror, hnew, -⟩ := Fate.Tells.of_eq hfate
    have hnew := hnew name
    rw [List.map_cons, mem_namesOf_cons, ih, refuse, mem_seen_meet, met_cons, met_refuse,
      mem_namesOf_cons]
    grind [Step.type]

theorem Runs.nodup (h : Runs s x ts steps y) : (namesOf (steps.map Step.type)).Nodup := by
  induction h with
  | done => exact List.nodup_nil
  | passed _ _ ih | error _ _ ih => exact ih
  | @expanded x y z t rest embedded methods inner later hfate hinner hrest ihinner ihrest =>
    rw [List.map_cons, List.map_append]
    apply nodup_namesOf_cons
    · intro name hname hmem
      have hmeet : name ∈ ((x.meet t).add methods).seen := mem_seen_meet.2 (.inl hname)
      rw [namesOf_append, List.mem_append] at hmem
      rcases hmem with hmem | hmem
      · exact (hinner.mem_types.1 hmem).2.1 hmeet
      · exact (hrest.mem_types.1 hmem).2.1 (hinner.extends.seen hmeet)
    · rw [namesOf_append]
      refine List.nodup_append.2 ⟨ihinner, ihrest, ?_⟩
      rintro name hname _ hlater rfl
      -- All that is met inside has been dealt with when the run goes on.
      have hseen := hinner.mem_seen.2 (.inr (hinner.mem_types.1 hname).1)
      exact (hrest.mem_types.1 hlater).2.1 hseen
  | @refused x y t rest steps hfate hrest ih =>
    rw [List.map_cons]
    apply nodup_namesOf_cons _ ih
    intro name hname hmem
    exact (hrest.mem_types.1 hmem).2.1 (mem_seen_meet.2 (.inl hname))

def unnamed (ts : List Ty) : List Ty := ts.filter (·.asNamed?.isNone)

theorem unnamed_cons_of_asNamed? (h : t.asNamed? = some name) (ts : List Ty) :
    unnamed (t :: ts) = unnamed ts :=
  List.filter_cons_of_neg (by simp [h])

theorem perm_unnamed_cons {us : List Ty} (h : (unnamed ts).Perm (unnamed us)) (t : Ty) :
    (unnamed (t :: ts)).Perm (unnamed (t :: us)) := by
  rw [unnamed, unnamed, List.filter_cons, List.filter_cons]
  split
  · exact h.cons t
  · exact h

theorem Runs.perm_unnamed (h : Runs s x ts steps y) :
    (unnamed (steps.map Step.type)).Perm (unnamed (met ts steps)) := by
  induction h with
  | done => exact .refl _
  | passed hfate _ ih =>
    obtain ⟨name, hname, -⟩ := Fate.Tells.of_eq hfate
    rw [met_cons, unnamed_cons_of_asNamed? hname]
    exact ih
  | error hfate _ ih =>
    obtain ⟨hname, -⟩ := Fate.Tells.of_eq hfate
    rw [met_cons, unnamed_cons_of_asNamed? hname]
    exact ih
  | @expanded x y z t rest embedded methods inner later _ _ _ ihinner ihrest =>
    have hperm := (perm_met_expand t rest embedded inner later).filter (·.asNamed?.isNone)
    rw [List.map_cons, List.map_append]
    refine .trans (perm_unnamed_cons ?_ t) hperm.symm
    rw [unnamed, unnamed, List.filter_append, List.filter_append]
    exact ihinner.append ihrest
  | refused _ _ ih => exact perm_unnamed_cons ih _

/-- What is done with a type goes by what stands behind it. -/
def Step.Fits (s : ModuleSet) : Step → Prop
  | .expand t embedded => ∃ methods, s.underlying? t = some (.interface methods embedded)
  | .refuse t => s.isExpandable t = false

theorem Runs.fits (h : Runs s x ts steps y) : ∀ step ∈ steps, step.Fits s := by
  induction h with
  | done => exact List.forall_mem_nil _
  | passed _ _ ih | error _ _ ih => exact ih
  | expanded hfate _ _ ihinner ihrest =>
    obtain ⟨-, -, hu⟩ := Fate.Tells.of_eq hfate
    exact List.forall_mem_cons.2 ⟨⟨_, hu⟩, List.forall_mem_append.2 ⟨ihinner, ihrest⟩⟩
  | refused hfate _ ih =>
    obtain ⟨-, -, hbehind⟩ := Fate.Tells.of_eq hfate
    exact List.forall_mem_cons.2 ⟨hbehind, ih⟩

theorem Step.Fits.isExpandable {embedded : List Ty} (h : (Step.expand t embedded).Fits s) :
    s.isExpandable t = true := by
  obtain ⟨methods, hu⟩ := h
  rw [ModuleSet.isExpandable, hu]

theorem Step.Fits.expanded? {step : Step} (h : step.Fits s) :
    step.expanded? = Option.guard s.isExpandable step.type := by
  cases step with
  | expand t embedded => simp [Step.expanded?, Step.type, h.isExpandable]
  | refuse t =>
    have hbehind : s.isExpandable t = false := h
    simp [Step.expanded?, Step.type, Option.guard, hbehind]

theorem Step.Fits.refused? {step : Step} (h : step.Fits s) :
    step.refused? = Option.guard (!s.isExpandable ·) step.type := by
  cases step with
  | expand t embedded => simp [Step.refused?, Step.type, Option.guard, h.isExpandable]
  | refuse t =>
    have hbehind : s.isExpandable t = false := h
    simp [Step.refused?, Step.type, hbehind]

theorem filterMap_eq_filter_types {f : Step → Option Ty} {p : Ty → Bool}
    (h : ∀ step ∈ steps, f step = Option.guard p step.type) :
    steps.filterMap f = (steps.map Step.type).filter p := by
  rw [← List.filterMap_eq_filter, List.filterMap_map]
  exact List.filterMap_congr h

theorem Runs.problems_eq (h : Runs s x ts steps y) :
    y.problems = x.problems ++ (steps.filterMap Step.refused?).map refusal := by
  induction h with
  | done => exact (List.append_nil _).symm
  | passed _ _ ih => exact ih
  | error _ _ ih => rw [ih, add, problems_meet]
  | expanded _ _ _ ihinner ihrest =>
    rw [ihrest, ihinner, add, problems_meet,
      List.append_assoc, ← List.map_append, ← List.filterMap_append]
    rfl
  | refused _ _ ih =>
    rw [ih, refuse, problems_meet, List.append_assoc]
    rfl

theorem isNew_start (methods : List (Method Ty)) (t : Ty) : (start.add methods).IsNew t :=
  fun _ _ ↦ List.not_mem_nil

theorem Runs.exists_step (h : Runs s x ts steps y) (ht : t ∈ met ts steps) (hnew : x.IsNew t)
    (herror : t ≠ .named (some errorName)) : ∃ step ∈ steps, step.type = t := by
  cases hname : t.asNamed? with
  | none =>
    have hmem : t ∈ unnamed (steps.map Step.type) :=
      h.perm_unnamed.mem_iff.2 (List.mem_filter.2 ⟨ht, by rw [hname]; rfl⟩)
    exact List.mem_map.1 (List.mem_of_mem_filter hmem)
  | some name =>
    obtain rfl := Ty.asNamed?_eq_some.1 hname
    have hne : name ≠ errorName := fun heq ↦ herror (by rw [heq])
    have hmem : name ∈ namesOf (steps.map Step.type) :=
      h.mem_types.2 ⟨mem_namesOf.2 ht, hnew name rfl, hne⟩
    exact List.mem_map.1 (mem_namesOf.1 hmem)

end Accounts

section Closure

variable {s : ModuleSet} {root : Ty} {methods : List (Method Ty)} {embedded : List Ty}
    {steps : List Step} {x y : Expansion} {ts : List Ty}

def Embeds (s : ModuleSet) (root t : Ty) : Prop :=
  ∃ methods embedded, Ty.Reaches s root (.interface methods embedded) ∧ t ∈ embedded

theorem Runs.embeds (h : Runs s x ts steps y) (hts : ∀ t ∈ ts, Embeds s root t) :
    ∀ t ∈ met ts steps, Embeds s root t := by
  induction h with
  | done => simp [met]
  | passed _ _ ih | error _ _ ih | refused _ _ ih =>
    obtain ⟨ht, hrest⟩ := List.forall_mem_cons.1 hts
    exact List.forall_mem_cons.2 ⟨ht, ih hrest⟩
  | @expanded x y z t rest embedded methods inner later hfate _ _ ihinner ihrest =>
    obtain ⟨ht, hrest⟩ := List.forall_mem_cons.1 hts
    obtain ⟨-, -, hu⟩ := Fate.Tells.of_eq hfate
    obtain ⟨_, _, hreaches, hmem⟩ := ht
    have hembedded : ∀ u ∈ embedded, Embeds s root u :=
      fun u hu' ↦ ⟨methods, embedded, .embedded hreaches hmem hu, hu'⟩
    intro u hmet
    rcases List.mem_cons.1 ((perm_met_expand t rest embedded inner later).mem_iff.1 hmet)
      with rfl | hmet
    · exact ⟨_, _, hreaches, hmem⟩
    · rcases List.mem_append.1 hmet with hmet | hmet
      · exact ihinner hembedded u hmet
      · exact ihrest hrest u hmet

theorem embedded_subset_met {t : Ty} (h : .expand t embedded ∈ steps) (ts : List Ty) :
    embedded ⊆ met ts steps :=
  fun _ hmem ↦ List.mem_append_right _ (List.mem_flatMap.2 ⟨_, h, hmem⟩)

theorem Runs.mem_met_of_reaches (h : Runs s (start.add methods) embedded steps y) {t : Ty}
    (ht : Ty.Reaches s (.interface methods embedded) t) :
    ∀ methods' embedded', t = .interface methods' embedded' → embedded' ⊆ met embedded steps := by
  induction ht with
  | root =>
    rintro _ _ ⟨⟩
    exact List.subset_append_left _ _
  | @embedded methods₁ methods₂ embedded₁ embedded₂ u _ hu hbehind ih =>
    rintro _ _ ⟨⟩
    have hmet : u ∈ met embedded steps := ih _ _ rfl hu
    have herror : u ≠ .named (some errorName) := by
      rintro rfl
      rw [ModuleSet.underlying?_errorName] at hbehind
      cases hbehind
    obtain ⟨step, hstep, rfl⟩ := h.exists_step hmet (isNew_start methods u) herror
    have hfits := h.fits step hstep
    -- An interface stands behind the type, so it was not refused, and what it embeds is what the
    -- step says.
    cases step with
    | expand u embedded' =>
      obtain ⟨methods', hu'⟩ := hfits
      cases hu'.symm.trans hbehind
      exact embedded_subset_met hstep embedded
    | refuse u =>
      have hbehind : s.underlying? u = some (.interface methods₂ embedded₂) := hbehind
      have hrefused : s.isExpandable u = false := hfits
      rw [ModuleSet.isExpandable, hbehind] at hrefused
      cases hrefused

/-- The types that are met are those that the interfaces embed to which embedding leads. -/
theorem Runs.mem_met_iff (h : Runs s (start.add methods) embedded steps y) {t : Ty} :
    t ∈ met embedded steps ↔ Embeds s (.interface methods embedded) t := by
  constructor
  · exact h.embeds (fun u hu ↦ ⟨methods, embedded, .root, hu⟩) t
  · rintro ⟨methods', embedded', hreaches, ht⟩
    exact h.mem_met_of_reaches hreaches methods' embedded' rfl ht

end Closure

section Reports

variable {s : ModuleSet} {methods : List (Method Ty)} {embedded : List Ty} {steps : List Step}
    {y : Expansion}

/-- What the steps of an expansion come to, where interfaces are expanded that embed the types in
`embeds`. -/
structure Accounts (s : ModuleSet) (embeds : List Ty) (steps : List Step) : Prop where
  /-- No name is expanded twice. -/
  expanded : (namesOf (steps.filterMap Step.expanded?)).Nodup
  /-- No name is reported twice. -/
  refused : (namesOf (steps.filterMap Step.refused?)).Nodup
  /-- The names that are reported are those without an interface behind them, apart from the type of
  failures. -/
  named : ∀ name, .named (some name) ∈ steps.filterMap Step.refused? ↔
    .named (some name) ∈ embeds ∧ name ≠ errorName ∧ s.isExpandable (.named (some name)) = false
  /-- Other types are reported as often as they are embedded. -/
  unnamed : (unnamed (steps.filterMap Step.refused?)).Perm
      ((unnamed embeds).filter (!s.isExpandable ·))

theorem Runs.accounts (h : Runs s (start.add methods) embedded steps y) :
    Accounts s (met embedded steps) steps := by
  have hexpanded := filterMap_eq_filter_types fun step hstep ↦ (h.fits step hstep).expanded?
  have hrefused := filterMap_eq_filter_types fun step hstep ↦ (h.fits step hstep).refused?
  refine ⟨?_, ?_, ?_, ?_⟩
  · rw [hexpanded]
    exact h.nodup.sublist (List.filter_sublist.filterMap _)
  · rw [hrefused]
    exact h.nodup.sublist (List.filter_sublist.filterMap _)
  · intro name
    have hnew : name ∉ (start.add methods).seen := List.not_mem_nil
    rw [hrefused, List.mem_filter, ← mem_namesOf, h.mem_types, mem_namesOf,
      Bool.not_eq_true', and_assoc]
    grind
  · rw [hrefused, unnamed, List.filter_comm]
    exact h.perm_unnamed.filter _

end Reports

end Expansion

/-- Without a bound on its depth an interface is expanded in one way. Each name is expanded once at
the most. Of all that the interfaces embed to which embedding leads, the types without an interface
behind them are reported, except the type of failures: each name once and other types each time that
they are embedded. -/
theorem Ty.expansion_reports_refused (s : ModuleSet) (methods : List (Method Ty))
    (embedded : List Ty) :
    ∃ steps, (∀ later z, Expansion.Runs s (Expansion.start.add methods) embedded later z ↔
        later = steps ∧ z = expansion s methods embedded) ∧
      (∀ t, t ∈ Expansion.met embedded steps ↔ Expansion.Embeds s (.interface methods embedded) t) ∧
      Expansion.Accounts s (Expansion.met embedded steps) steps ∧
      (expansion s methods embedded).problems =
        (steps.filterMap Expansion.Step.refused?).map Expansion.refusal := by
  obtain ⟨steps, hsteps⟩ := runs_expansion s methods embedded
  refine ⟨steps, fun later z ↦ ⟨hsteps.unique, ?_⟩, fun t ↦ hsteps.mem_met_iff, hsteps.accounts,
    hsteps.problems_eq⟩
  rintro ⟨rfl, rfl⟩
  exact hsteps

example :
    ((Ty.expansion .empty [] [.basic .int, .named (some ⟨"Gone", none⟩),
      .interface [] [.basic .int],
    .named (some ⟨"Gone", none⟩)]).problems.map Diagnostic.message) =
    ["cannot expand embedded type int", "cannot expand embedded type Gone",
      "cannot expand embedded type int"] := by
  decide +kernel

end Understudy
