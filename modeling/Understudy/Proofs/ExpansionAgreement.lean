import Understudy.Proofs.Embedding

namespace Understudy

namespace Expansion

variable {names : List TypeName} {x y z : Expansion}

/-- Some names apart, the same names have been dealt with, and under each name the same method came
in first. -/
structure Agrees (names : List TypeName) (x y : Expansion) : Prop where
  first : ∀ name, x.methods.find? (·.name = name) = y.methods.find? (·.name = name)
  seen : ∀ name, name ∉ names → (name ∈ x.seen ↔ name ∈ y.seen)

theorem Agrees.refl : x.Agrees names x := ⟨fun _ ↦ rfl, fun _ _ ↦ Iff.rfl⟩

theorem Agrees.symm (h : x.Agrees names y) : y.Agrees names x :=
  ⟨fun name ↦ (h.first name).symm, fun name hname ↦ (h.seen name hname).symm⟩

theorem Agrees.trans (h : x.Agrees names y) (h' : y.Agrees names z) : x.Agrees names z :=
  ⟨fun name ↦ (h.first name).trans (h'.first name),
    fun name hname ↦ (h.seen name hname).trans (h'.seen name hname)⟩

theorem Agrees.add (h : x.Agrees names y) (methods : List (Method Ty)) :
    (x.add methods).Agrees names (y.add methods) := by
  refine ⟨fun name ↦ ?_, h.seen⟩
  simp only [Expansion.add, List.find?_append, h.first name]

theorem Agrees.mark (h : x.Agrees names y) (name : TypeName) :
    (x.mark name).Agrees names (y.mark name) := by
  refine ⟨h.first, fun other hother ↦ ?_⟩
  simp only [Expansion.mark, List.mem_cons, h.seen other hother]

theorem Agrees.refuse (h : x.Agrees names y) (t u : Ty) : (x.refuse t).Agrees names (y.refuse u) :=
  ⟨h.first, h.seen⟩

theorem agrees_mark {name : TypeName} (h : name ∈ names) : x.Agrees names (x.mark name) := by
  refine ⟨fun _ ↦ rfl, fun other hother ↦ ?_⟩
  simp only [mark, List.mem_cons]
  exact ⟨.inr, fun h' ↦ h'.resolve_left fun heq ↦ hother (heq ▸ h)⟩

theorem agrees_refuse (x : Expansion) (t : Ty) : x.Agrees names (x.refuse t) :=
  ⟨fun _ ↦ rfl, fun _ _ ↦ Iff.rfl⟩

theorem agrees_add_of_subset {methods : List (Method Ty)} (h : methods ⊆ x.methods) :
    x.Agrees names (x.add methods) := by
  refine ⟨fun name ↦ ?_, fun _ _ ↦ Iff.rfl⟩
  rw [add, List.find?_append]
  cases hfirst : x.methods.find? (·.name = name) with
  | some m => rfl
  | none =>
    rw [Option.none_or, eq_comm, List.find?_eq_none]
    exact fun m hm ↦ List.find?_eq_none.1 hfirst m (h hm)

end Expansion

namespace Ty

open Expansion (left Agrees)

variable {s : ModuleSet} {named named' : List (Method Ty) → List Ty → Expansion → Expansion}

theorem embedAll_append (x : Expansion) (ts us : List Ty) :
    embedAll s named x (ts ++ us) = embedAll s named (embedAll s named x ts) us := by
  induction ts generalizing x with
  | nil => rfl
  | cons t rest ih => exact ih _

section Depth

variable {names : List TypeName} {n : Nat}

mutual

theorem embed_congr (hnamed : ∀ methods embedded x, Expansion.Extends x (named methods embedded x))
    (heq : ∀ methods embedded x, embeddedNamesAll embedded ⊆ names → left names x < n →
      named methods embedded x = named' methods embedded x) (hs : s.embeddedNames ⊆ names)
    {x : Expansion} {t : Ty} (ht : t.embeddedNames ⊆ names) (hx : left names x ≤ n) :
    embed s named x t = embed s named' x t := by
  cases t with
  | interface methods embedded =>
    rw [embed, embed]
    exact embedAll_congr hnamed heq hs ht
      (Nat.le_trans (Expansion.left_le (x.extends_add methods)) hx)
  | named name =>
    cases name with
    | none => rfl
    | some name =>
      have hname : name ∈ names := ht (List.mem_singleton_self _)
      rw [embed, embed]
      split
      · rfl
      · rename_i hfresh
        dsimp only
        split
        · rfl
        · split
          · rename_i methods embedded hu
            have hembedded : embeddedNamesAll embedded ⊆ names :=
              List.Subset.trans (embeddedNames_subset_of_ne hu fun h ↦ by cases h) hs
            refine heq methods embedded _ hembedded
              (Nat.lt_of_lt_of_le (Expansion.left_mark_lt hname ?_) hx)
            exact fun hseen ↦ hfresh (List.contains_iff_mem.2 hseen)
          · rfl
  | _ => rfl
termination_by structural t

theorem embedAll_congr
    (hnamed : ∀ methods embedded x, Expansion.Extends x (named methods embedded x))
    (heq : ∀ methods embedded x, embeddedNamesAll embedded ⊆ names → left names x < n →
      named methods embedded x = named' methods embedded x) (hs : s.embeddedNames ⊆ names)
    {x : Expansion} {ts : List Ty} (hts : embeddedNamesAll ts ⊆ names) (hx : left names x ≤ n) :
    embedAll s named x ts = embedAll s named' x ts := by
  cases ts with
  | nil => rfl
  | cons t rest =>
    obtain ⟨ht, hrest⟩ := List.append_subset.1 hts
    rw [embedAll, embedAll, ← embed_congr hnamed heq hs ht hx]
    exact embedAll_congr hnamed heq hs hrest
      (Nat.le_trans (Expansion.left_le (extends_embed hnamed x t)) hx)
termination_by structural ts

end

theorem expand_congr (hs : s.embeddedNames ⊆ names) {n n' : Nat} {methods : List (Method Ty)}
    {embedded : List Ty} {x : Expansion} (hembedded : embeddedNamesAll embedded ⊆ names)
    (hn : left names x < n) (hn' : left names x < n') :
    expand s n methods embedded x = expand s n' methods embedded x := by
  induction n generalizing n' methods embedded x with
  | zero => omega
  | succ n ih =>
    cases n' with
    | zero => omega
    | succ n' =>
      rw [expand, expand]
      have hadd : left names (x.add methods) ≤ left names x :=
        Expansion.left_le (x.extends_add methods)
      refine embedAll_congr (extends_expand s n) (fun methods embedded y hsub hy ↦ ?_) hs
        hembedded hadd
      exact ih hsub (by omega) (by omega)

end Depth

section Again

variable {names : List TypeName} {x : Expansion}

mutual

theorem agrees_embed_of_has {x : Expansion} {t : Ty} (h : x.Has t) :
    x.Extends (embed s named x t) ∧ x.Agrees names (embed s named x t) := by
  cases t with
  | interface methods embedded =>
    rw [embed]
    have hadd := x.extends_add methods
    obtain ⟨hextends, hagrees⟩ := agrees_embedAll_of_has (hadd.hasAll embedded h.2)
    exact ⟨hadd.trans hextends, (Expansion.agrees_add_of_subset h.1).trans hagrees⟩
  | named name =>
    cases name with
    | none => exact ⟨x.extends_refuse _, x.agrees_refuse _⟩
    | some name =>
      rw [embed, if_pos (List.contains_iff_mem.2 h)]
      exact ⟨.refl, .refl⟩
  | _ => exact ⟨x.extends_refuse _, x.agrees_refuse _⟩
termination_by structural t

theorem agrees_embedAll_of_has {x : Expansion} {ts : List Ty} (h : x.HasAll ts) :
    x.Extends (embedAll s named x ts) ∧ x.Agrees names (embedAll s named x ts) := by
  cases ts with
  | nil => exact ⟨.refl, .refl⟩
  | cons t rest =>
    rw [embedAll]
    obtain ⟨hextends, hagrees⟩ := agrees_embed_of_has h.1
    obtain ⟨hextends', hagrees'⟩ := agrees_embedAll_of_has (hextends.hasAll rest h.2)
    exact ⟨hextends.trans hextends', hagrees.trans hagrees'⟩
termination_by structural ts

end

theorem agrees_expand_of_has {n : Nat} {methods : List (Method Ty)} {embedded : List Ty}
    (h : x.Has (.interface methods embedded)) : x.Agrees names (expand s n methods embedded x) := by
  cases n with
  | zero => exact .refl
  | succ n => exact (agrees_embed_of_has (t := .interface methods embedded) h).2

end Again

section Alike

/-- Nothing that embedding leads to embeds one of these names. -/
def Avoids (s : ModuleSet) (names : List TypeName) (root : Ty) : Prop :=
  ∀ methods embedded, Reaches s root (.interface methods embedded) →
    ∀ name ∈ names, .named (some name) ∉ embedded

theorem Avoids.of_reaches {names : List TypeName} {root t : Ty} (h : Avoids s names root)
    (ht : Reaches s root t) : Avoids s names t :=
  fun methods embedded h' ↦ h methods embedded (ht.trans h')

/-- Names that all stand for one type, if for any. -/
structure Synonyms (s : ModuleSet) (names : List TypeName) (behind : Option Ty) : Prop where
  underlying : ∀ name ∈ names, s.underlying? (.named (some name)) = behind
  ne_errorName : ∀ name ∈ names, name ≠ errorName

/-- What stands behind the names will not come up, or has come in. -/
def Prepared (s : ModuleSet) (names : List TypeName) (behind : Option Ty) (root : Ty)
    (x y : Expansion) : Prop :=
  Avoids s names root ∨ ∀ u ∈ behind, x.Has u ∧ y.Has u

variable {names : List TypeName} {behind : Option Ty} {x y : Expansion}

theorem Prepared.mono {x' y' : Expansion} {root t : Ty} (h : Prepared s names behind root x y)
    (ht : Reaches s root t) (hx : x.Extends x') (hy : y.Extends y') :
    Prepared s names behind t x' y' := by
  refine h.imp (fun h ↦ h.of_reaches ht) fun h u hu ↦ ?_
  exact ⟨hx.has u (h u hu).1, hy.has u (h u hu).2⟩

theorem agrees_embed_synonym (h : Synonyms s names behind) {n : Nat} {name : TypeName}
    (hname : name ∈ names) (hx : ∀ u ∈ behind, x.Has u) :
    x.Agrees names (embed s (expand s n) x (.named (some name))) := by
  rw [embed]
  split
  · exact .refl
  · dsimp only
    rw [if_neg (h.ne_errorName name hname)]
    refine (Expansion.agrees_mark hname).trans ?_
    split
    · rename_i methods embedded hu
      rw [h.underlying name hname] at hu
      exact agrees_expand_of_has ((x.extends_mark name).has _ (hx _ hu))
    · exact Expansion.agrees_refuse _ _

mutual

theorem agrees_embed (h : Synonyms s names behind) {n : Nat}
    (halike : ∀ methods embedded x y, Prepared s names behind (.interface methods embedded) x y →
      x.Agrees names y →
      (expand s n methods embedded x).Agrees names (expand s n methods embedded y))
    {methods : List (Method Ty)} {embedded : List Ty} {x y : Expansion}
    (hprepared : Prepared s names behind (.interface methods embedded) x y) {t : Ty}
    (ht : t ∈ embedded) (hagrees : x.Agrees names y) :
    (embed s (expand s n) x t).Agrees names (embed s (expand s n) y t) := by
  cases t with
  | interface methods' embedded' =>
    rw [embed, embed]
    have hreaches : Reaches s (.interface methods embedded) (.interface methods' embedded') :=
      .embedded .root ht (ModuleSet.underlying?_of_ne fun _ h ↦ by cases h)
    exact agrees_embedAll h halike (hprepared.mono hreaches (x.extends_add _) (y.extends_add _))
      (fun _ h ↦ h) (hagrees.add methods')
  | named name =>
    cases name with
    | none => exact hagrees.refuse _ _
    | some name =>
      by_cases hname : name ∈ names
      -- A synonym does not come up, or adds nothing on either side, whichever side has dealt with
      -- it.
      · rcases hprepared with havoids | hhas
        · exact absurd ht (havoids methods embedded .root name hname)
        · have hx := agrees_embed_synonym h (n := n) hname fun u hu ↦ (hhas u hu).1
          have hy := agrees_embed_synonym h (n := n) hname fun u hu ↦ (hhas u hu).2
          exact (hx.symm.trans hagrees).trans hy
      · have hseen : x.seen.contains name = y.seen.contains name := by
          rw [Bool.eq_iff_iff, List.contains_iff_mem, List.contains_iff_mem]
          exact hagrees.seen name hname
        rw [embed, embed, hseen]
        split
        · exact hagrees
        · have hmark := hagrees.mark name
          dsimp only
          split
          · exact hmark.add _
          · split
            · rename_i hu
              exact halike _ _ _ _
                (hprepared.mono (.embedded .root ht hu) (x.extends_mark _) (y.extends_mark _)) hmark
            · exact hmark.refuse _ _
  | _ => exact hagrees.refuse _ _
termination_by structural t

theorem agrees_embedAll (h : Synonyms s names behind) {n : Nat}
    (halike : ∀ methods embedded x y, Prepared s names behind (.interface methods embedded) x y →
      x.Agrees names y →
      (expand s n methods embedded x).Agrees names (expand s n methods embedded y))
    {methods : List (Method Ty)} {embedded : List Ty} {x y : Expansion}
    (hprepared : Prepared s names behind (.interface methods embedded) x y) {ts : List Ty}
    (hts : ts ⊆ embedded) (hagrees : x.Agrees names y) :
    (embedAll s (expand s n) x ts).Agrees names (embedAll s (expand s n) y ts) := by
  cases ts with
  | nil => exact hagrees
  | cons t rest =>
    obtain ⟨ht, hrest⟩ := List.cons_subset.1 hts
    rw [embedAll, embedAll]
    have hfirst := agrees_embed h halike hprepared ht hagrees
    have hextends := extends_embed (s := s) (extends_expand s n)
    exact agrees_embedAll h halike (hprepared.mono .root (hextends x t) (hextends y t)) hrest hfirst
termination_by structural ts

end

/-- Expansions that agree, and are prepared for the synonyms, still agree after the same
interface. -/
theorem agrees_expand (h : Synonyms s names behind) {n : Nat} {methods : List (Method Ty)}
    {embedded : List Ty} (hprepared : Prepared s names behind (.interface methods embedded) x y)
    (hagrees : x.Agrees names y) :
    (expand s n methods embedded x).Agrees names (expand s n methods embedded y) := by
  induction n generalizing methods embedded x y with
  | zero => exact hagrees
  | succ n ih =>
    rw [expand, expand]
    exact agrees_embedAll h (fun _ _ _ _ ↦ ih)
      (hprepared.mono .root (x.extends_add _) (y.extends_add _))
      (fun _ h ↦ h) (hagrees.add methods)

end Alike

end Ty

end Understudy
