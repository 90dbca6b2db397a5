import Mathlib.Data.List.Nodup
import Mathlib.Logic.Relation
import Understudy.Proofs.ResolvedModule

namespace Understudy

namespace ModuleSet

variable {s : ModuleSet}

/-- A name leads over the declarations at these places, by path and name, to a type that is no
name. -/
inductive Unfolds (s : ModuleSet) : List (String × String) → Ty → Ty → Prop
  | here {t : Ty} (h : ∀ name, t ≠ .named name) : Unfolds s [] t t
  | named {name : String} {ref : ModuleRef} {decl : TypeDecl} {places : List (String × String)}
      {u : Ty} (hd : s.lookupType? ⟨name, some ref⟩ = some decl)
      (h : Unfolds s places decl.type u) :
      Unfolds s ((ref.path, name) :: places) (.named (some ⟨name, some ref⟩)) u

theorem lookupType?_eq (s : ModuleSet) (name : String) (ref : ModuleRef) :
    s.lookupType? ⟨name, some ref⟩ = (s.get? ref.path).bind (·.lookupType? name) := rfl

def places (s : ModuleSet) : List (String × String) :=
  s.modules.flatMap fun m ↦
    (m.scope.map fun scope ↦ scope.objects.map fun entry ↦ (m.path, entry.1)).getD []

theorem length_places (s : ModuleSet) : s.places.length = s.declCount := by
  obtain ⟨modules, roots⟩ := s
  induction modules with
  | nil => rfl
  | cons m rest ih =>
    have hcount : declCount ⟨m :: rest, roots⟩ = (m.scope.map Scope.size).getD 0 + declCount
      ⟨rest, roots⟩ := rfl
    rw [places, List.flatMap_cons, List.length_append, hcount, ← ih]
    cases m.scope with
    | none => rfl
    | some scope => simp [Scope.size, places]

theorem exists_of_lookupType? {name : TypeName} {decl : TypeDecl}
    (h : s.lookupType? name = some decl) :
    ∃ m ref scope, s.get? ref.path = some m ∧ name = ⟨name.name, some ref⟩ ∧ m.scope = some scope ∧
      (name.name, .type decl) ∈ scope.objects := by
  obtain ⟨name, ref⟩ := name
  cases ref with
  | none => cases h
  | some ref =>
    rw [lookupType?_eq, Option.bind_eq_some_iff] at h
    obtain ⟨m, hm, hd⟩ := h
    rw [Module.lookupType?_eq_some, Module.lookup?, Option.bind_eq_some_iff] at hd
    obtain ⟨scope, hscope, hd⟩ := hd
    exact ⟨m, ref, scope, hm, rfl, hscope, Scope.mem_of_lookup? hd⟩

theorem mem_places {name : String} {ref : ModuleRef} {decl : TypeDecl}
    (h : s.lookupType? ⟨name, some ref⟩ = some decl) : (ref.path, name) ∈ s.places := by
  obtain ⟨m, ref', scope, hm, hname, hscope, hmem⟩ := exists_of_lookupType? h
  cases hname
  have hpath : m.path = ref.path := by simpa using List.find?_some hm
  refine List.mem_flatMap.2 ⟨m, List.mem_of_find?_eq_some hm, ?_⟩
  rw [hscope, ← hpath]
  exact List.mem_map.2 ⟨_, hmem, rfl⟩

namespace Unfolds

variable {places places' : List (String × String)} {t u u' : Ty}

theorem unique (h : s.Unfolds places t u) (h' : s.Unfolds places' t u') :
    places = places' ∧ u = u' := by
  induction h generalizing places' with
  | here hne =>
    cases h' with
    | here => exact ⟨rfl, rfl⟩
    | named => exact absurd rfl (hne _)
  | named hd _ ih =>
    cases h' with
    | here hne => exact absurd rfl (hne _)
    | named hd' h' =>
      obtain rfl := Option.some.inj (hd.symm.trans hd')
      obtain ⟨rfl, rfl⟩ := ih h'
      exact ⟨rfl, rfl⟩

theorem ne_named (h : s.Unfolds places t u) (name : Option TypeName) : u ≠ .named name := by
  induction h with
  | here hne => exact hne name
  | named _ _ ih => exact ih

theorem subset_places (h : s.Unfolds places t u) : places ⊆ s.places := by
  induction h with
  | here => exact List.nil_subset _
  | named hd _ ih => exact List.cons_subset.2 ⟨mem_places hd, ih⟩

theorem exists_of_mem (h : s.Unfolds places t u) {path name : String}
    (hmem : (path, name) ∈ places) : ∃ before later decl, places = before ++ (path, name) :: later ∧
      (s.get? path).bind (·.lookupType? name) = some decl ∧ s.Unfolds later decl.type u := by
  induction h with
  | here => exact absurd hmem List.not_mem_nil
  | @named name' ref decl rest u hd h ih =>
    rcases List.mem_cons.1 hmem with heq | hmem
    · cases heq
      exact ⟨[], rest, decl, rfl, hd, h⟩
    · obtain ⟨before, later, decl', rfl, hd', h'⟩ := ih hmem
      exact ⟨(ref.path, name') :: before, later, decl', rfl, hd', h'⟩

theorem nodup (h : s.Unfolds places t u) : places.Nodup := by
  induction h with
  | here => exact List.nodup_nil
  | @named name ref decl rest u hd h ih =>
    refine List.nodup_cons.2 ⟨fun hmem ↦ ?_, ih⟩
    -- The same declaration further on would have the same places behind it, and fewer of them.
    obtain ⟨before, later, decl', hrest, hd', h'⟩ := h.exists_of_mem hmem
    rw [← lookupType?_eq, hd] at hd'
    obtain rfl := Option.some.inj hd'
    have hlength := congrArg List.length (h.unique h').1
    rw [hrest, List.length_append, List.length_cons] at hlength
    omega

theorem length_le (h : s.Unfolds places t u) : places.length ≤ s.declCount := by
  rw [← length_places]
  exact h.nodup.length_le_of_subset h.subset_places

theorem expand?_eq (h : s.Unfolds places t u) {n : Nat} (hn : places.length ≤ n) :
    s.expand? n t = some u := by
  induction h generalizing n with
  | @here t hne =>
    cases t with
    | named name => exact absurd rfl (hne name)
    | _ => rw [expand?]; exact fun name hname ↦ by cases hname
  | named hd h ih =>
    cases n with
    | zero => exact absurd hn (by simp)
    | succ n =>
      rw [expand?]
      simp only [Option.bind_eq_bind, Option.bind_some, hd]
      exact ih (Nat.le_of_succ_le_succ hn)

end Unfolds

theorem exists_unfolds {n : Nat} {t u : Ty} (h : s.expand? n t = some u) :
    ∃ places, s.Unfolds places t u := by
  induction n generalizing t with
  | zero =>
    cases t with
    | named name => simp [expand?] at h
    | _ =>
      cases h
      exact ⟨[], .here fun name hname ↦ by cases hname⟩
  | succ n ih =>
    cases t with
    | named name =>
      rw [expand?] at h
      simp only [Option.bind_eq_bind, Option.bind_eq_some_iff] at h
      obtain ⟨⟨name, ref⟩, rfl, decl, hd, h⟩ := h
      cases ref with
      | none => cases hd
      | some ref =>
        obtain ⟨places, hplaces⟩ := ih h
        exact ⟨_, .named hd hplaces⟩
    | _ =>
      cases h
      exact ⟨[], .here fun name hname ↦ by cases hname⟩

theorem underlying?_eq_some_iff {t u : Ty} :
    s.underlying? t = some u ↔ ∃ places, s.Unfolds places t u := by
  constructor
  · exact exists_unfolds
  · rintro ⟨places, h⟩
    exact h.expand?_eq h.length_le

theorem underlying?_of_ne {t : Ty} (h : ∀ name, t ≠ .named name) : s.underlying? t = some t :=
  underlying?_eq_some_iff.2 ⟨[], .here h⟩

theorem eq_or_named {t u : Ty} (h : s.underlying? t = some u) :
    u = t ∨ ∃ name, t = .named (some name) := by
  obtain ⟨places, h⟩ := underlying?_eq_some_iff.1 h
  cases h with
  | here => exact .inl rfl
  | named => exact .inr ⟨_, rfl⟩

theorem underlying?_ne_named {t : Ty} (name : Option TypeName) :
    s.underlying? t ≠ some (.named name) := by
  intro h
  obtain ⟨places, h⟩ := underlying?_eq_some_iff.1 h
  exact h.ne_named name rfl

theorem underlying?_errorName : s.underlying? (.named (some Ty.errorName)) = none := by
  rw [Option.eq_none_iff_forall_ne_some]
  intro u hu
  obtain ⟨places, h⟩ := underlying?_eq_some_iff.1 hu
  cases h with
  | here hne => exact hne _ rfl

def Renames (s : ModuleSet) (a b : TypeName) : Prop :=
  ∃ decl, s.lookupType? a = some decl ∧ decl.type = .named (some b)

theorem Renames.underlying? {a b : TypeName} (h : s.Renames a b) :
    s.underlying? (.named (some a)) = s.underlying? (.named (some b)) := by
  obtain ⟨decl, hd, htype⟩ := h
  obtain ⟨m, ref, scope, -, hname, -⟩ := exists_of_lookupType? hd
  rw [hname] at hd ⊢
  ext u
  rw [underlying?_eq_some_iff, underlying?_eq_some_iff]
  -- The same type is found either way, one place further on or not: the bound of the search is left
  -- aside.
  constructor
  · rintro ⟨places, h⟩
    cases h with
    | here hne => exact absurd rfl (hne _)
    | named hd' h =>
      obtain rfl := Option.some.inj (hd.symm.trans hd')
      exact ⟨_, htype ▸ h⟩
  · rintro ⟨places, h⟩
    exact ⟨_, .named hd (htype ▸ h)⟩

theorem underlying?_of_renames {a b : TypeName} (h : Relation.TransGen s.Renames a b) :
    s.underlying? (.named (some a)) = s.underlying? (.named (some b)) := by
  induction h with
  | single h => exact h.underlying?
  | tail _ h ih => exact ih.trans h.underlying?

theorem ne_errorName_of_renames {a b : TypeName} (h : Relation.TransGen s.Renames a b) :
    a ≠ Ty.errorName := by
  have hfirst : ∃ c, s.Renames a c := by
    induction h with
    | single h => exact ⟨_, h⟩
    | tail _ _ ih => exact ih
  rintro rfl
  obtain ⟨c, decl, hd, -⟩ := hfirst
  cases hd

theorem declared_of_underlying? {t u : Ty} (h : s.underlying? t = some u) :
    u = t ∨ ∃ m ∈ s.modules, ∃ scope, m.scope = some scope ∧
      ∃ entry ∈ scope.objects, ∃ decl, entry.2 = .type decl ∧ decl.type = u := by
  obtain ⟨places, h⟩ := underlying?_eq_some_iff.1 h
  clear * - h
  induction h with
  | here => exact .inl rfl
  | named hd _ ih =>
    obtain ⟨m, ref, scope, hm, -, hscope, hmem⟩ := exists_of_lookupType? hd
    refine .inr (ih.elim (fun heq ↦ ?_) id)
    exact ⟨m, List.mem_of_find?_eq_some hm, scope, hscope, _, hmem, _, rfl, heq.symm⟩

end ModuleSet

end Understudy
