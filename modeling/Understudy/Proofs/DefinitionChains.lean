import Mathlib.Data.Finset.Card
import Mathlib.Data.Finset.Dedup
import Understudy.Proofs.Definitions

namespace Understudy

namespace ModuleSet

def definition? (s : ModuleSet) : Ty → Option Ty
  | .named (some name) => (s.lookupType? name).map (·.type)
  | _ => none

/-- The type at this place of the chain that starts at `t` and goes from a name to its
definition. -/
def chain? (s : ModuleSet) (t : Ty) : Nat → Option Ty
  | 0 => some t
  | n + 1 => (s.chain? t n).bind s.definition?

/-- The names that lead nowhere: none at all, those known everywhere, and those that no module
declares as a type. -/
inductive IsDeadEnd (s : ModuleSet) : Option TypeName → Prop
  | unnamed : IsDeadEnd s none
  | universal (name : String) : IsDeadEnd s (some ⟨name, none⟩)
  | undeclared {name : String} {ref : ModuleRef}
      (h : ∀ m scope decl, s.get? ref.path = some m → m.scope = some scope →
        scope.lookup? name ≠ some (.type decl)) : IsDeadEnd s (some ⟨name, some ref⟩)

def links (s : ModuleSet) : List TypeName :=
  s.modules.flatMap fun m ↦ (m.scope.map fun scope ↦ scope.objects.filterMap fun entry ↦
    match entry.2 with
    | .type decl => decl.type.asNamed?
    | .func _ => none).getD []

/-- The names that may come up from this type on. -/
def ahead (s : ModuleSet) (t : Ty) : Finset TypeName := (t.asNamed?.toList ++ s.links).toFinset

variable {s : ModuleSet} {t u : Ty} {name : TypeName}

theorem mem_links {decl : TypeDecl} {next : TypeName} (hd : s.lookupType? name = some decl)
    (hnext : decl.type.asNamed? = some next) : next ∈ s.links := by
  obtain ⟨m, ref, scope, hm, -, hscope, hmem⟩ := exists_of_lookupType? hd
  refine List.mem_flatMap.2 ⟨m, List.mem_of_find?_eq_some hm, ?_⟩
  rw [hscope]
  exact List.mem_filterMap.2 ⟨_, hmem, hnext⟩

/-- A definition has fewer new names ahead than the name, which is not new any more. -/
theorem card_ahead_lt {decl : TypeDecl} (hd : s.lookupType? name = some decl)
    {seen : Finset TypeName} (hnew : name ∉ seen) :
    (s.ahead decl.type \ (seen ∪ {name})).card < (s.ahead (.named (some name)) \ seen).card := by
  have hname : name ∈ s.ahead (.named (some name)) := by simp [ahead, Ty.asNamed?]
  have hsubset : s.ahead decl.type ⊆ s.ahead (.named (some name)) := by
    intro next hnext
    rw [ahead, List.mem_toFinset, List.mem_append, Option.mem_toList] at hnext
    rw [ahead, List.mem_toFinset]
    exact List.mem_append_right _ (hnext.elim (fun h ↦ mem_links hd h) id)
  apply Finset.card_lt_card
  refine (Finset.ssubset_iff_of_subset ?_).2 ⟨name, Finset.mem_sdiff.2 ⟨hname, hnew⟩, by simp⟩
  exact Finset.sdiff_subset_sdiff hsubset Finset.subset_union_left

/-- Goes from name to definition until there is no name, or one that was seen before. -/
def follow (s : ModuleSet) (seen : Finset TypeName) : Ty → Option Ty
  | .named none => none
  | .named (some name) =>
    if name ∈ seen then none
    else
      match _hd : s.lookupType? name with
      | none => none
      | some decl => s.follow (seen ∪ {name}) decl.type
  | t => some t
termination_by t => (s.ahead t \ seen).card
decreasing_by exact card_ahead_lt _hd ‹name ∉ seen›

theorem follow_of_ne (h : ∀ name, t ≠ .named name) (seen : Finset TypeName) :
    s.follow seen t = some t := by
  cases t with
  | named name => exact absurd rfl (h name)
  | _ => rw [follow] <;> nofun

theorem follow_named {decl : TypeDecl} {seen : Finset TypeName} (hnew : name ∉ seen)
    (hd : s.lookupType? name = some decl) :
    s.follow seen (.named (some name)) = s.follow (seen ∪ {name}) decl.type := by
  rw [follow, if_neg hnew]
  split
  · rename_i hnone
    cases hd.symm.trans hnone
  · rename_i decl' hd'
    cases hd.symm.trans hd'
    rfl

def placeOf (name : TypeName) : Option (String × String) :=
  name.module.map fun ref ↦ (ref.path, name.name)

/-- No chain that ends is cut short: it does not even come to two names of one declaration. -/
theorem Unfolds.follow_eq {places : List (String × String)} (h : s.Unfolds places t u)
    {seen : Finset TypeName} (hseen : ∀ name ∈ seen, ∀ place ∈ places, placeOf name ≠ some place) :
    s.follow seen t = some u := by
  induction h generalizing seen with
  | here hne => exact follow_of_ne hne seen
  | @named name ref decl places u hd h ih =>
    have hnew : ⟨name, some ref⟩ ∉ seen :=
      fun hmem ↦ hseen _ hmem (ref.path, name) List.mem_cons_self rfl
    have hnodup : (ref.path, name) ∉ places := (List.nodup_cons.1 (Unfolds.named hd h).nodup).1
    rw [follow_named hnew hd]
    refine ih fun other hother place hplace heq ↦ ?_
    rcases Finset.mem_union.1 hother with hother | hother
    · exact hseen other hother place (List.mem_cons_of_mem _ hplace) heq
    · rw [Finset.mem_singleton.1 hother] at heq
      have hsame : (ref.path, name) = place := Option.some.inj heq
      exact hnodup (hsame ▸ hplace)

theorem exists_unfolds_of_follow {seen : Finset TypeName} (h : s.follow seen t = some u) :
    ∃ places, s.Unfolds places t u := by
  fun_induction follow s seen t with
  | case1 => cases h
  | case2 => cases h
  | case3 => cases h
  | case4 seen name hnew decl hd ih =>
    obtain ⟨places, hplaces⟩ := ih h
    obtain ⟨m, ref, scope, -, hname, -⟩ := exists_of_lookupType? hd
    rw [hname] at hd ⊢
    exact ⟨_, .named hd hplaces⟩
  | case5 seen t hnone hsome =>
    cases h
    refine ⟨[], .here fun name ht ↦ ?_⟩
    cases name with
    | none => exact hnone ht
    | some name => exact hsome name ht

theorem follow_empty (s : ModuleSet) (t : Ty) : s.follow ∅ t = s.underlying? t := by
  ext u
  rw [underlying?_eq_some_iff]
  constructor
  · exact exists_unfolds_of_follow
  · rintro ⟨places, h⟩
    exact h.follow_eq (by simp)

section Chains

theorem chain?_succ (s : ModuleSet) (t : Ty) (n : Nat) :
    s.chain? t (n + 1) = (s.definition? t).bind (s.chain? · n) := by
  induction n with
  | zero =>
    rw [chain?, chain?, Option.bind_some]
    cases s.definition? t <;> rfl
  | succ n ih =>
    rw [chain?, ih, Option.bind_assoc]
    rfl

theorem definition?_eq_some_iff : s.definition? t = some u ↔
    ∃ name decl, t = .named (some name) ∧ s.lookupType? name = some decl ∧ decl.type = u := by
  constructor
  · intro h
    unfold definition? at h
    split at h
    · rename_i name
      obtain ⟨decl, hd, rfl⟩ := Option.map_eq_some_iff.1 h
      exact ⟨name, decl, rfl, hd, rfl⟩
    · cases h
  · rintro ⟨name, decl, rfl, hd, rfl⟩
    rw [definition?, hd]
    rfl

theorem exists_unfolds_iff :
    (∃ places, s.Unfolds places t u) ↔ ∃ n, s.chain? t n = some u ∧ ∀ name, u ≠ .named name := by
  constructor
  · rintro ⟨places, h⟩
    induction h with
    | here hne => exact ⟨0, rfl, hne⟩
    | named hd _ ih =>
      obtain ⟨n, hn, hne⟩ := ih
      refine ⟨n + 1, ?_, hne⟩
      rw [chain?_succ, definition?_eq_some_iff.2 ⟨_, _, rfl, hd, rfl⟩, Option.bind_some, hn]
  · rintro ⟨n, hn, hne⟩
    induction n generalizing t with
    | zero =>
      cases hn
      exact ⟨[], .here hne⟩
    | succ n ih =>
      rw [chain?_succ, Option.bind_eq_some_iff] at hn
      obtain ⟨next, hnext, hn⟩ := hn
      obtain ⟨name, decl, rfl, hd, rfl⟩ := definition?_eq_some_iff.1 hnext
      obtain ⟨places, hplaces⟩ := ih hn
      obtain ⟨m, ref, scope, -, hname, -⟩ := exists_of_lookupType? hd
      rw [hname] at hd ⊢
      exact ⟨_, .named hd hplaces⟩

theorem exists_name_of_lt {n m : Nat} (h : s.chain? t n = some u) (hm : m < n) :
    ∃ name, s.chain? t m = some (.named (some name)) := by
  induction n generalizing u with
  | zero => exact absurd hm (Nat.not_lt_zero m)
  | succ n ih =>
    obtain ⟨v, hv, hstep⟩ := Option.bind_eq_some_iff.1 h
    obtain ⟨name, decl, rfl, -⟩ := definition?_eq_some_iff.1 hstep
    rcases Nat.lt_succ_iff_lt_or_eq.1 hm with hlt | rfl
    · exact ih hv hlt
    · exact ⟨name, hv⟩

theorem lookupType?_eq_none_of_isDeadEnd (h : s.IsDeadEnd (some name)) :
    s.lookupType? name = none := by
  rw [Option.eq_none_iff_forall_ne_some]
  intro decl hd
  cases h with
  | universal => cases hd
  | @undeclared name ref h =>
    rw [lookupType?_eq, Option.bind_eq_some_iff] at hd
    obtain ⟨m, hm, hd⟩ := hd
    rw [Module.lookupType?_eq_some, Module.lookup?, Option.bind_eq_some_iff] at hd
    obtain ⟨scope, hscope, hd⟩ := hd
    exact h m scope decl hm hscope hd

theorem isDeadEnd_or_exists (s : ModuleSet) (name : Option TypeName) :
    s.IsDeadEnd name ∨ ∃ next, s.definition? (.named name) = some next := by
  cases name with
  | none => exact .inl .unnamed
  | some name =>
    obtain ⟨name, ref⟩ := name
    cases ref with
    | none => exact .inl (.universal name)
    | some ref =>
      cases hd : s.lookupType? ⟨name, some ref⟩ with
      | some decl => exact .inr ⟨_, definition?_eq_some_iff.2 ⟨_, decl, rfl, hd, rfl⟩⟩
      | none =>
        refine .inl (.undeclared fun m scope decl hm hscope hobject ↦ ?_)
        rw [lookupType?_eq, hm, Option.bind_some, Module.lookupType?, hscope, Option.bind_some,
          Scope.lookupType?, hobject] at hd
        cases hd

theorem chain?_of_isDeadEnd {n : Nat} {name : Option TypeName}
    (hn : s.chain? t n = some (.named name)) (hdead : s.IsDeadEnd name) :
    s.chain? t (n + 1) = none := by
  rw [chain?, hn, Option.bind_some, Option.eq_none_iff_forall_ne_some]
  intro u hu
  obtain ⟨name', decl, hname, hd, -⟩ := definition?_eq_some_iff.1 hu
  obtain rfl : name = some name' := Ty.named.inj hname
  rw [lookupType?_eq_none_of_isDeadEnd hdead] at hd
  cases hd

theorem exists_name_of_not_isDeadEnd
    (hnamed : ∀ n u, s.chain? t n = some u → ∃ name, u = .named name)
    (hdead : ¬∃ n name, s.chain? t n = some (.named name) ∧ s.IsDeadEnd name) (n : Nat) :
    ∃ name, s.chain? t n = some (.named name) := by
  induction n with
  | zero =>
    obtain ⟨name, rfl⟩ := hnamed 0 t rfl
    exact ⟨name, rfl⟩
  | succ n ih =>
    obtain ⟨name, hn⟩ := ih
    obtain hend | ⟨next, hnext⟩ := s.isDeadEnd_or_exists name
    · exact absurd ⟨n, name, hn, hend⟩ hdead
    · have hn' : s.chain? t (n + 1) = some next := by rw [chain?, hn, Option.bind_some, hnext]
      obtain ⟨name', rfl⟩ := hnamed (n + 1) next hn'
      exact ⟨name', hn'⟩

theorem not_isDeadEnd_of_chain? {n m : Nat} {name : Option TypeName} (hn : s.chain? t n = some u)
    (hne : ∀ name, u ≠ .named name) (hm : s.chain? t m = some (.named name)) :
    ¬s.IsDeadEnd name := by
  intro hdead
  have hend := chain?_of_isDeadEnd hm hdead
  rcases Nat.lt_trichotomy (m + 1) n with hlt | rfl | hlt
  · obtain ⟨name', hname'⟩ := exists_name_of_lt hn hlt
    cases hend.symm.trans hname'
  · cases hend.symm.trans hn
  · rcases Nat.lt_succ_iff_lt_or_eq.1 hlt with hlt | rfl
    · obtain ⟨name', hname'⟩ := exists_name_of_lt hm hlt
      exact hne _ (Option.some.inj (hn.symm.trans hname'))
    · exact hne name (Option.some.inj (hn.symm.trans hm))

/-- What stands behind a type is the first type that is no name on the chain of its definitions, if
there is one. There is none exactly if the chain comes to a name that leads nowhere, or has a name
at every place. The search that stops at a name it has seen comes to an end on every chain, with the
same answer. -/
theorem follows_definitions (s : ModuleSet) (t : Ty) :
    (∀ u, s.underlying? t = some u ↔ ∃ n, s.chain? t n = some u ∧ (∀ name, u ≠ .named name) ∧
      ∀ m < n, ∃ name, s.chain? t m = some (.named name)) ∧
    (s.underlying? t = none ↔ (∃ n name, s.chain? t n = some (.named name) ∧ s.IsDeadEnd name) ∨
      ∀ n, ∃ name, s.chain? t n = some (.named name)) ∧
    s.follow ∅ t = s.underlying? t := by
  have hsome : ∀ u, s.underlying? t = some u ↔ ∃ n, s.chain? t n = some u ∧
      ∀ name, u ≠ .named name := fun u ↦
    underlying?_eq_some_iff.trans exists_unfolds_iff
  refine ⟨fun u ↦ (hsome u).trans (exists_congr fun n ↦ and_congr_right fun hn ↦ ?_),
    ⟨fun hnone ↦ ?_, ?_⟩, follow_empty s t⟩
  · refine ⟨fun hne ↦ ⟨hne, fun m hm ↦ ?_⟩, And.left⟩
    obtain ⟨name, hname⟩ := exists_name_of_lt hn hm
    exact ⟨some name, hname⟩
  · refine Classical.or_iff_not_imp_left.2 fun hdead ↦ exists_name_of_not_isDeadEnd
      (fun n u hn ↦ ?_) hdead
    cases u with
    | named name => exact ⟨name, rfl⟩
    | _ => cases hnone.symm.trans ((hsome _).2 ⟨n, hn, nofun⟩)
  · intro h
    rw [Option.eq_none_iff_forall_ne_some]
    intro u hu
    obtain ⟨n, hn, hne⟩ := (hsome u).1 hu
    rcases h with ⟨m, name, hm, hdead⟩ | hnames
    · exact not_isDeadEnd_of_chain? hn hne hm hdead
    · obtain ⟨name, hname⟩ := hnames n
      exact hne name (Option.some.inj (hn.symm.trans hname))

end Chains

end ModuleSet

end Understudy
