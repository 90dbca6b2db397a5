import Understudy.Proofs.Definitions
import Understudy.Ty.MethodSet

namespace Understudy

namespace Ty

variable {s : ModuleSet} {root : Ty}

/-- The interfaces that embedding leads to. Behind the type of failures is none. -/
inductive Reaches (s : ModuleSet) (root : Ty) : Ty → Prop
  | root : Reaches s root root
  | embedded {methods methods' : List (Method Ty)} {embedded embedded' : List Ty} {t : Ty}
      (h : Reaches s root (.interface methods embedded)) (ht : t ∈ embedded)
      (hu : s.underlying? t = some (.interface methods' embedded')) :
      Reaches s root (.interface methods' embedded')

/-- The methods of the interfaces that embedding leads to, and that of the type of failures if one
embeds it. -/
inductive Asks (s : ModuleSet) (root : Ty) : Method Ty → Prop
  | own {methods : List (Method Ty)} {embedded : List Ty} {m : Method Ty}
    (h : Reaches s root (.interface methods embedded)) (hm : m ∈ methods) : Asks s root m
  | error {methods : List (Method Ty)} {embedded : List Ty}
    (h : Reaches s root (.interface methods embedded)) (he : .named (some errorName) ∈ embedded) :
    Asks s root errorMethod

theorem Reaches.trans {t u : Ty} (h : Reaches s root t) (h' : Reaches s t u) :
    Reaches s root u := by
  induction h' with
  | root => exact h
  | embedded _ ht hu ih => exact .embedded ih ht hu

section Interface

variable {methods : List (Method Ty)} {embedded : List Ty}

theorem Reaches.eq_or_exists {t : Ty} (h : Reaches s (.interface methods embedded) t) :
    t = .interface methods embedded ∨ ∃ u ∈ embedded, ∃ methods' embedded',
      s.underlying? u = some (.interface methods' embedded') ∧
      Reaches s (.interface methods' embedded') t := by
  induction h with
  | root => exact .inl rfl
  | embedded _ ht hu ih =>
    rcases ih with heq | ⟨u, hmem, methods', embedded', hu', hreaches⟩
    · cases heq
      exact .inr ⟨_, ht, _, _, hu, .root⟩
    · exact .inr ⟨u, hmem, methods', embedded', hu', .embedded hreaches ht hu⟩

theorem asks_interface_iff {m : Method Ty} : Asks s (.interface methods embedded) m ↔
    m ∈ methods ∨ (.named (some errorName) ∈ embedded ∧ m = errorMethod) ∨
    ∃ u ∈ embedded, ∃ methods' embedded',
      s.underlying? u = some (.interface methods' embedded') ∧
      Asks s (.interface methods' embedded') m := by
  constructor
  · intro h
    cases h with
    | own hreaches hm =>
      rcases hreaches.eq_or_exists with heq | ⟨u, hmem, methods', embedded', hu, hreaches⟩
      · cases heq
        exact .inl hm
      · exact .inr (.inr ⟨u, hmem, methods', embedded', hu, .own hreaches hm⟩)
    | error hreaches he =>
      rcases hreaches.eq_or_exists with heq | ⟨u, hmem, methods', embedded', hu, hreaches⟩
      · cases heq
        exact .inr (.inl ⟨he, rfl⟩)
      · exact .inr (.inr ⟨u, hmem, methods', embedded', hu, .error hreaches he⟩)
  · rintro (hm | ⟨he, rfl⟩ | ⟨u, hmem, methods', embedded', hu, h⟩)
    · exact .own .root hm
    · exact .error .root he
    · have hfirst : Reaches s (.interface methods embedded) (.interface methods' embedded') :=
        .embedded .root hmem hu
      cases h with
      | own hreaches hm => exact .own (hfirst.trans hreaches) hm
      | error hreaches he => exact .error (hfirst.trans hreaches) he

end Interface

theorem embeddedNames_subset_of_ne {t u : Ty} (h : s.underlying? t = some u) (hne : u ≠ t) :
    u.embeddedNames ⊆ s.embeddedNames := by
  intro name hname
  obtain ⟨m, hm, scope, hscope, entry, hentry, decl, hd, rfl⟩ :=
    (ModuleSet.declared_of_underlying? h).resolve_left hne
  refine List.mem_flatMap.2 ⟨m, hm, ?_⟩
  rw [hscope]
  refine List.mem_flatMap.2 ⟨entry, hentry, ?_⟩
  simpa only [hd] using hname

end Ty

namespace Expansion

open Ty (errorName)

variable {s : ModuleSet} {x y z : Expansion}

structure Extends (x y : Expansion) : Prop where
  methods : x.methods <+: y.methods
  seen : x.seen ⊆ y.seen
  problems : x.problems <+: y.problems

theorem Extends.refl : x.Extends x := ⟨List.prefix_rfl, List.Subset.refl _, List.prefix_rfl⟩

theorem Extends.trans (h : x.Extends y) (h' : y.Extends z) : x.Extends z :=
  ⟨h.methods.trans h'.methods, List.Subset.trans h.seen h'.seen, h.problems.trans h'.problems⟩

theorem extends_add (x : Expansion) (methods : List (Method Ty)) : x.Extends (x.add methods) :=
  ⟨List.prefix_append _ _, List.Subset.refl _, List.prefix_rfl⟩

theorem extends_mark (x : Expansion) (name : TypeName) : x.Extends (x.mark name) :=
  ⟨List.prefix_rfl, List.subset_cons_self _ _, List.prefix_rfl⟩

def refusal (t : Ty) : Diagnostic := .warning ("cannot expand embedded type " ++ t.display) none

theorem extends_refuse (x : Expansion) (t : Ty) : x.Extends (x.refuse t) :=
  ⟨List.prefix_rfl, List.Subset.refl _, List.prefix_append _ _⟩

mutual

/-- What a type that is embedded asks for has come in, names left to be dealt with by themselves. -/
def Has (x : Expansion) : Ty → Prop
  | .named (some name) => name ∈ x.seen
  | .interface methods embedded => methods ⊆ x.methods ∧ HasAll x embedded
  | _ => True
termination_by structural t => t

def HasAll (x : Expansion) : List Ty → Prop
  | [] => True
  | t :: rest => Has x t ∧ HasAll x rest
termination_by structural ts => ts

end

theorem hasAll_iff {ts : List Ty} : x.HasAll ts ↔ ∀ t ∈ ts, x.Has t := by
  induction ts with
  | nil => simp [HasAll]
  | cons t rest ih => simp [HasAll, ih]

mutual

theorem Extends.has (h : x.Extends y) (t : Ty) (ht : x.Has t) : y.Has t := by
  cases t with
  | named name =>
    cases name with
    | none => trivial
    | some name => exact h.seen ht
  | interface methods embedded =>
    exact ⟨List.Subset.trans ht.1 h.methods.subset, h.hasAll embedded ht.2⟩
  | _ => trivial
termination_by structural t

theorem Extends.hasAll (h : x.Extends y) (ts : List Ty) (hts : x.HasAll ts) : y.HasAll ts := by
  cases ts with
  | nil => trivial
  | cons t rest => exact ⟨h.has t hts.1, h.hasAll rest hts.2⟩
termination_by structural ts

end

/-- All that stands behind a name has come in, or the name has been reported. -/
structure Settles (s : ModuleSet) (x : Expansion) (name : TypeName) : Prop where
  error : name = errorName → errorMethod ∈ x.methods
  has : ∀ t, s.underlying? (.named (some name)) = some t → x.Has t
  refused : name ≠ errorName → (∀ methods embedded, s.underlying? (.named (some name)) ≠
    some (.interface methods embedded)) → refusal (.named (some name)) ∈ x.problems

theorem Extends.settles (h : x.Extends y) {name : TypeName} (hx : x.Settles s name) :
    y.Settles s name where
  error hname := h.methods.subset (hx.error hname)
  has t ht := h.has t (hx.has t ht)
  refused hname hu := h.problems.subset (hx.refused hname hu)

/-- From one expansion to the next, all that comes to be dealt with comes in. -/
structure Completes (s : ModuleSet) (x y : Expansion) : Prop where
  extends_ : x.Extends y
  settles : ∀ name ∈ y.seen, name ∈ x.seen ∨ y.Settles s name

theorem Completes.refl : x.Completes s x := ⟨.refl, fun _ h ↦ .inl h⟩

theorem Completes.trans (h : x.Completes s y) (h' : y.Completes s z) : x.Completes s z := by
  refine ⟨h.extends_.trans h'.extends_, fun name hname ↦ ?_⟩
  rcases h'.settles name hname with hname | hsettles
  · exact (h.settles name hname).imp_right h'.extends_.settles
  · exact .inr hsettles

theorem completes_add (x : Expansion) (methods : List (Method Ty)) :
    x.Completes s (x.add methods) :=
  ⟨x.extends_add methods, fun _ h ↦ .inl h⟩

theorem completes_refuse (x : Expansion) (t : Ty) : x.Completes s (x.refuse t) :=
  ⟨x.extends_refuse t, fun _ h ↦ .inl h⟩

theorem completes_of_mark {name : TypeName} (h : (x.mark name).Completes s y)
    (hy : y.Settles s name) : x.Completes s y := by
  refine ⟨(x.extends_mark name).trans h.extends_, fun other hother ↦ ?_⟩
  rcases h.settles other hother with hmem | hsettles
  · rcases List.mem_cons.1 hmem with rfl | hmem
    · exact .inr hy
    · exact .inl hmem
  · exact .inr hsettles

def left (names : List TypeName) (x : Expansion) : Nat :=
  names.countP fun name ↦ !x.seen.contains name

theorem left_le {names : List TypeName} (h : x.Extends y) : left names y ≤ left names x := by
  refine List.countP_mono_left fun name _ hname ↦ ?_
  simp only [Bool.not_eq_true', List.contains_eq_mem, decide_eq_false_iff_not] at hname ⊢
  exact fun hmem ↦ hname (h.seen hmem)

theorem left_mark_lt {names : List TypeName} {name : TypeName} (hname : name ∈ names)
    (hx : name ∉ x.seen) : left names (x.mark name) < left names x := by
  obtain ⟨before, after, rfl⟩ := List.append_of_mem hname
  have hbefore : left before (x.mark name) ≤ left before x := left_le (x.extends_mark name)
  have hafter : left after (x.mark name) ≤ left after x := left_le (x.extends_mark name)
  have hmark : name ∈ (x.mark name).seen := List.mem_cons_self ..
  simp only [left, List.countP_append, List.countP_cons] at hbefore hafter ⊢
  simp only [List.contains_eq_mem, hmark, hx, decide_true, decide_false, Bool.not_true,
    Bool.not_false, if_true, Bool.false_eq_true, if_false]
  simp only [List.contains_eq_mem] at hbefore hafter
  omega

end Expansion

namespace Ty

open Expansion (left)

/-- What follows the names that are embedded brings in all of an interface, where fewer than `n`
names are left. -/
def Follows (s : ModuleSet) (names : List TypeName) (n : Nat)
    (named : List (Method Ty) → List Ty → Expansion → Expansion) : Prop :=
  ∀ methods embedded x, embeddedNamesAll embedded ⊆ names → left names x < n →
    x.Completes s (named methods embedded x) ∧
    (named methods embedded x).Has (.interface methods embedded)

section Complete

variable {s : ModuleSet} {names : List TypeName} {n : Nat}
    {named : List (Method Ty) → List Ty → Expansion → Expansion} {x : Expansion}

theorem settles_embed (hs : s.embeddedNames ⊆ names) (hnamed : Follows s names n named)
    {name : TypeName} (hname : name ∈ names) (hx : left names x ≤ n) (hfresh : name ∉ x.seen) :
    (x.mark name).Completes s (embed s named x (.named (some name))) ∧
      (embed s named x (.named (some name))).Settles s name := by
  have hleft : left names (x.mark name) < n :=
    Nat.lt_of_lt_of_le (Expansion.left_mark_lt hname hfresh) hx
  rw [embed, if_neg fun hseen ↦ hfresh (List.contains_iff_mem.1 hseen)]
  dsimp only
  split
  · rename_i herror
    subst herror
    refine ⟨(x.mark errorName).completes_add [errorMethod], ?_, ?_, fun hne ↦ absurd rfl hne⟩
    · intro _
      exact List.mem_append_right _ (List.mem_singleton_self _)
    · intro t ht
      rw [ModuleSet.underlying?_errorName] at ht
      cases ht
  · rename_i hne
    split
    · rename_i methods embedded hu
      have hembedded : embeddedNamesAll embedded ⊆ names :=
        List.Subset.trans (embeddedNames_subset_of_ne hu fun h ↦ by cases h) hs
      obtain ⟨hall, hhas⟩ := hnamed methods embedded (x.mark name) hembedded hleft
      refine ⟨hall, fun h ↦ absurd h hne, ?_, fun _ h ↦ absurd hu (h methods embedded)⟩
      intro t ht
      obtain rfl := Option.some.inj (hu.symm.trans ht)
      exact hhas
    · rename_i hu
      refine ⟨(x.mark name).completes_refuse _, fun h ↦ absurd h hne, ?_, ?_⟩
      · intro t ht
        cases t with
        | interface methods embedded => exact absurd ht (hu methods embedded)
        | named other => exact absurd ht (ModuleSet.underlying?_ne_named other)
        | _ => trivial
      · intro _ _
        exact List.mem_append_right _ (List.mem_singleton_self _)

mutual

theorem completes_embed (hs : s.embeddedNames ⊆ names) (hnamed : Follows s names n named)
    {x : Expansion} {t : Ty} (ht : t.embeddedNames ⊆ names) (hx : left names x ≤ n) :
    x.Completes s (embed s named x t) ∧ (embed s named x t).Has t := by
  cases t with
  | interface methods embedded =>
    rw [embed]
    have hadd := x.completes_add (s := s) methods
    have hleft : left names (x.add methods) ≤ left names x := Expansion.left_le hadd.extends_
    obtain ⟨hall, hhas⟩ := completes_embedAll hs hnamed ht (Nat.le_trans hleft hx)
    refine ⟨hadd.trans hall, ?_, hhas⟩
    exact List.Subset.trans (List.subset_append_right _ _) hall.extends_.methods.subset
  | named name =>
    cases name with
    | none => exact ⟨x.completes_refuse _, trivial⟩
    | some name =>
      by_cases hseen : name ∈ x.seen
      · rw [embed, if_pos (List.contains_iff_mem.2 hseen)]
        exact ⟨.refl, hseen⟩
      · obtain ⟨hcompletes, hsettles⟩ :=
          settles_embed hs hnamed (ht (List.mem_singleton_self _)) hx hseen
        refine ⟨Expansion.completes_of_mark hcompletes hsettles, ?_⟩
        exact hcompletes.extends_.seen (List.mem_cons_self ..)
  | _ => exact ⟨x.completes_refuse _, trivial⟩
termination_by structural t

theorem completes_embedAll (hs : s.embeddedNames ⊆ names) (hnamed : Follows s names n named)
    {x : Expansion} {ts : List Ty} (hts : embeddedNamesAll ts ⊆ names) (hx : left names x ≤ n) :
    x.Completes s (embedAll s named x ts) ∧ (embedAll s named x ts).HasAll ts := by
  cases ts with
  | nil => exact ⟨.refl, trivial⟩
  | cons t rest =>
    rw [embedAll]
    obtain ⟨ht, hrest⟩ := List.append_subset.1 hts
    obtain ⟨hfirst, hhas⟩ := completes_embed hs hnamed ht hx
    have hleft : left names (embed s named x t) ≤ left names x := Expansion.left_le hfirst.extends_
    obtain ⟨hlater, hall⟩ := completes_embedAll hs hnamed hrest (Nat.le_trans hleft hx)
    exact ⟨hfirst.trans hlater, hlater.extends_.has t hhas, hall⟩
termination_by structural ts

end

/-- The bound on the depth is enough where it exceeds the number of names that are left. -/
theorem follows_expand (hs : s.embeddedNames ⊆ names) (n : Nat) :
    Follows s names n (expand s n) := by
  -- Each level deals with one more name before it goes down, so the depth and the names left
  -- decrease together.
  induction n with
  | zero =>
    intro methods embedded x _ hx
    omega
  | succ n ih =>
    intro methods embedded x hembedded hx
    have hadd := x.completes_add (s := s) methods
    have hleft : left names (x.add methods) ≤ left names x := Expansion.left_le hadd.extends_
    obtain ⟨hall, hhas⟩ := completes_embedAll hs ih hembedded (x := x.add methods) (by omega)
    rw [expand]
    refine ⟨hadd.trans hall, ?_, hhas⟩
    exact List.Subset.trans (List.subset_append_right _ _) hall.extends_.methods.subset

end Complete

section Sound

variable {s : ModuleSet} {root : Ty} {named : List (Method Ty) → List Ty → Expansion → Expansion}

mutual

theorem asks_embed
    (hnamed : ∀ methods embedded x, Reaches s root (.interface methods embedded) →
      (∀ m ∈ x.methods, Asks s root m) → ∀ m ∈ (named methods embedded x).methods, Asks s root m)
    {methods : List (Method Ty)} {embedded : List Ty}
    (hroot : Reaches s root (.interface methods embedded)) {x : Expansion} {t : Ty}
    (ht : t ∈ embedded) (hx : ∀ m ∈ x.methods, Asks s root m) :
    ∀ m ∈ (embed s named x t).methods, Asks s root m := by
  cases t with
  | interface methods' embedded' =>
    have hreaches : Reaches s root (.interface methods' embedded') :=
      .embedded hroot ht (ModuleSet.underlying?_of_ne fun _ h ↦ by cases h)
    rw [embed]
    refine asks_embedAll hnamed hreaches (fun _ h ↦ h) (List.forall_mem_append.2 ⟨hx, ?_⟩)
    exact fun m hm ↦ .own hreaches hm
  | named name =>
    cases name with
    | none => exact hx
    | some name =>
      rw [embed]
      split
      · exact hx
      · dsimp only
        split
        · rename_i hname
          subst hname
          exact List.forall_mem_append.2 ⟨hx, List.forall_mem_singleton.2 (.error hroot ht)⟩
        · split
          · rename_i hu
            exact hnamed _ _ _ (.embedded hroot ht hu) hx
          · exact hx
  | _ => exact hx
termination_by structural t

theorem asks_embedAll
    (hnamed : ∀ methods embedded x, Reaches s root (.interface methods embedded) →
      (∀ m ∈ x.methods, Asks s root m) → ∀ m ∈ (named methods embedded x).methods, Asks s root m)
    {methods : List (Method Ty)} {embedded : List Ty}
    (hroot : Reaches s root (.interface methods embedded)) {x : Expansion} {ts : List Ty}
    (hts : ts ⊆ embedded) (hx : ∀ m ∈ x.methods, Asks s root m) :
    ∀ m ∈ (embedAll s named x ts).methods, Asks s root m := by
  cases ts with
  | nil => exact hx
  | cons t rest =>
    obtain ⟨ht, hrest⟩ := List.cons_subset.1 hts
    rw [embedAll]
    exact asks_embedAll hnamed hroot hrest (asks_embed hnamed hroot ht hx)
termination_by structural ts

end

theorem asks_expand (n : Nat) {methods : List (Method Ty)} {embedded : List Ty} {x : Expansion}
    (hroot : Reaches s root (.interface methods embedded)) (hx : ∀ m ∈ x.methods, Asks s root m) :
    ∀ m ∈ (expand s n methods embedded x).methods, Asks s root m := by
  induction n generalizing methods embedded x with
  | zero => exact hx
  | succ n ih =>
    rw [expand]
    refine asks_embedAll (fun _ _ _ ↦ ih) hroot (fun _ h ↦ h) (List.forall_mem_append.2 ⟨hx, ?_⟩)
    exact fun m hm ↦ .own hroot hm

end Sound

section Expansion

variable {s : ModuleSet} {methods : List (Method Ty)} {embedded : List Ty}

theorem completes_expansion (s : ModuleSet) (methods : List (Method Ty)) (embedded : List Ty) :
    (Expansion.start.add methods).Completes s (expansion s methods embedded) ∧
      (expansion s methods embedded).HasAll embedded := by
  have hs := List.subset_append_left s.embeddedNames (embeddedNamesAll embedded)
  refine completes_embedAll hs (follows_expand hs _) (List.subset_append_right _ _) ?_
  exact List.countP_le_length

theorem settles_expansion {name : TypeName} (h : name ∈ (expansion s methods embedded).seen) :
    (expansion s methods embedded).Settles s name :=
  ((completes_expansion s methods embedded).1.settles name h).resolve_left List.not_mem_nil

theorem prefix_expansion (s : ModuleSet) (methods : List (Method Ty)) (embedded : List Ty) :
    methods <+: (expansion s methods embedded).methods :=
  (completes_expansion s methods embedded).1.extends_.methods

theorem has_of_reaches {t : Ty} (h : Reaches s (.interface methods embedded) t) :
    (expansion s methods embedded).Has t := by
  -- Along the closure: what has come in embeds names that have been dealt with, and these are
  -- settled in the end.
  induction h with
  | root =>
    exact ⟨(prefix_expansion s methods embedded).subset, (completes_expansion s methods embedded).2⟩
  | @embedded methods₁ methods₂ embedded₁ embedded₂ t h ht hu ih =>
    have hmem := Expansion.hasAll_iff.1 ih.2 t ht
    rcases ModuleSet.eq_or_named hu with rfl | ⟨name, rfl⟩
    · exact hmem
    · exact (settles_expansion hmem).has _ hu

/-- An expansion brings in the methods of the embedding closure and no others. -/
theorem mem_expansion_iff {m : Method Ty} :
    m ∈ (expansion s methods embedded).methods ↔ Asks s (.interface methods embedded) m := by
  constructor
  · exact asks_expand _ .root (List.forall_mem_nil _) m
  · intro h
    cases h with
    | own h hm => exact (has_of_reaches h).1 hm
    | error h he =>
      have hseen := Expansion.hasAll_iff.1 (has_of_reaches h).2 _ he
      exact (settles_expansion hseen).error rfl

end Expansion

section Keeps

/-- What holds of an expansion as it goes on, whatever comes in. -/
structure IsKept (P : Expansion → Prop) : Prop where
  add : ∀ {x : Expansion} (methods : List (Method Ty)), P x → P (x.add methods)
  mark : ∀ {x : Expansion} (name : TypeName), P x → P (x.mark name)
  refuse : ∀ {x : Expansion} (t : Ty), P x → P (x.refuse t)

variable {s : ModuleSet} {named : List (Method Ty) → List Ty → Expansion → Expansion}
    {P : Expansion → Prop}

mutual

theorem IsKept.embed (h : IsKept P)
    (hnamed : ∀ methods embedded x, P x → P (named methods embedded x)) {x : Expansion} (hx : P x)
    (t : Ty) : P (Ty.embed s named x t) := by
  cases t with
  | interface methods embedded => exact h.embedAll hnamed (h.add methods hx) embedded
  | named name =>
    cases name with
    | none => exact h.refuse _ hx
    | some name =>
      rw [Ty.embed]
      split
      · exact hx
      · have hmark := h.mark name hx
        dsimp only
        split
        · exact h.add _ hmark
        · split
          · exact hnamed _ _ _ hmark
          · exact h.refuse _ hmark
  | _ => exact h.refuse _ hx
termination_by structural t

theorem IsKept.embedAll (h : IsKept P)
    (hnamed : ∀ methods embedded x, P x → P (named methods embedded x)) {x : Expansion} (hx : P x)
    (ts : List Ty) : P (Ty.embedAll s named x ts) := by
  cases ts with
  | nil => exact hx
  | cons t rest => exact h.embedAll hnamed (h.embed hnamed hx t) rest
termination_by structural ts

end

theorem IsKept.expand (h : IsKept P) (s : ModuleSet) (n : Nat) (methods : List (Method Ty))
    (embedded : List Ty) {x : Expansion} (hx : P x) : P (Ty.expand s n methods embedded x) := by
  induction n generalizing methods embedded x with
  | zero => exact hx
  | succ n ih => exact h.embedAll (fun _ _ _ ↦ ih _ _) (h.add methods hx) embedded

theorem isKept_extends (x : Expansion) : IsKept x.Extends where
  add methods h := h.trans (Expansion.extends_add _ methods)
  mark name h := h.trans (Expansion.extends_mark _ name)
  refuse t h := h.trans (Expansion.extends_refuse _ t)

theorem extends_embed
    (hnamed : ∀ methods embedded x, Expansion.Extends x (named methods embedded x)) (x : Expansion)
    (t : Ty) : x.Extends (embed s named x t) :=
  (isKept_extends x).embed (fun _ _ _ h ↦ h.trans (hnamed _ _ _)) .refl t

theorem extends_expand (s : ModuleSet) (n : Nat) (methods : List (Method Ty)) (embedded : List Ty)
    (x : Expansion) : x.Extends (expand s n methods embedded x) :=
  (isKept_extends x).expand s n methods embedded .refl

theorem problems_expansion (s : ModuleSet) (methods : List (Method Ty)) (embedded : List Ty) :
    ∀ d ∈ (expansion s methods embedded).problems, ∃ t, d = Expansion.refusal t := by
  have hkept : IsKept fun x ↦ ∀ d ∈ x.problems, ∃ t, d = Expansion.refusal t := by
    refine ⟨fun _ h ↦ h, fun _ h ↦ h, fun t h ↦ ?_⟩
    exact List.forall_mem_append.2 ⟨h, List.forall_mem_singleton.2 ⟨t, rfl⟩⟩
  exact hkept.expand s _ methods embedded (List.forall_mem_nil _)

end Keeps

end Ty

end Understudy
