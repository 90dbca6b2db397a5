import Understudy.Proofs.GroupedSpellings
import Understudy.Proofs.ParameterNames

namespace Understudy

open Reader

/-- What words spell as one of two spellings. -/
def Spelling.Left (R : Spelling) (ws : List Word) (e : TypeExpr) : Prop := ∃ ws', R ws ws' e

section Becoming

variable {R : Spelling} {es es' : List EntrySpelling} {ps : List (ParamExpr TypeExpr)}
    {e : TypeExpr}

/-- What is read from an entry, without its place. -/
def EntrySpelling.Spells (R : Spelling) (e : EntrySpelling) (x : ParamExpr TypeExpr) : Prop :=
  ∃ type, R.Left e.type type ∧ x = ⟨e.name, type, e.ellipsis.isSome, .nowhere⟩

def typedParam (type : TypeExpr) (name : String) : ParamExpr TypeExpr :=
  ⟨some name, type, false, .nowhere⟩

def bareEntry (name : String) : ParamExpr TypeExpr :=
  ⟨none, .name none name .nowhere, false, .nowhere⟩

theorem shareTypes_bare (names : List String) (pending : List (String × Span))
    (xs : List (ParamExpr TypeExpr)) :
    shareTypes pending (names.map bareEntry ++ xs) =
      shareTypes (pending ++ names.map (·, .nowhere)) xs := by
  induction names generalizing pending with
  | nil => simp
  | cons name names ih =>
    rw [List.map_cons, List.cons_append, shareTypes]
    simp only [bareEntry]
    rw [ih, List.map_cons, List.append_assoc, List.singleton_append]

theorem shareTypes_typed {type : TypeExpr} (names : List String) (name : String)
    {ys qs : List (ParamExpr TypeExpr)} (h : shareTypes [] ys = .ok qs) :
    shareTypes (names.map (·, .nowhere)) (typedParam type name :: ys) =
      .ok (names.map (typedParam type) ++ typedParam type name :: qs) := by
  rw [shareTypes]
  simp [typedParam, h, Function.comp_def]

/-- Entries that are read as `xs` become the parameters `ps` in front of whatever the entries behind
them become. -/
structure SharesAs (R : Spelling) (es : List EntrySpelling) (xs ps : List (ParamExpr TypeExpr)) :
    Prop where
  spells : List.Forall₂ (EntrySpelling.Spells R) es xs
  variadic : ∀ x ∈ xs, x.variadic = false
  named : xs ≠ [] → ∃ x ∈ xs, x.name ≠ none
  shares : ∀ ys qs, shareTypes [] ys = .ok qs → shareTypes [] (xs ++ ys) = .ok (ps ++ qs)

theorem sharesAs_nil : SharesAs R [] [] [] where
  spells := .nil
  variadic := List.forall_mem_nil _
  named h := absurd rfl h
  shares _ _ h := h

theorem SharesAs.append {fs : List EntrySpelling} {xs ys qs : List (ParamExpr TypeExpr)}
    (h : SharesAs R es xs ps) (h' : SharesAs R fs ys qs) :
    SharesAs R (es ++ fs) (xs ++ ys) (ps ++ qs) where
  spells := List.rel_append h.spells h'.spells
  variadic := List.forall_mem_append.2 ⟨h.variadic, h'.variadic⟩
  named hne := by
    by_cases hxs : xs = []
    · obtain ⟨y, hy, hname⟩ := h'.named (by simpa [hxs] using hne)
      exact ⟨y, List.mem_append_right _ hy, hname⟩
    · obtain ⟨x, hx, hname⟩ := h.named hxs
      exact ⟨x, List.mem_append_left _ hx, hname⟩
  shares zs rs hzs := by
    rw [List.append_assoc, List.append_assoc]
    exact h.shares _ _ (h'.shares zs rs hzs)

theorem spells_bare {names : List String} (h : List.Forall₂ (EntrySpelling.IsBare R) names es) :
    List.Forall₂ (EntrySpelling.Spells R) es (names.map bareEntry) := by
  induction h with
  | nil => exact .nil
  | cons hbare _ ih =>
    obtain ⟨hname, hellipsis, htype⟩ := hbare
    refine .cons ⟨_, ⟨_, htype⟩, ?_⟩ ih
    rw [hname, hellipsis]
    rfl

theorem sharesAs_group {names : List String} {name : String} {t : List Word}
    (hbare : List.Forall₂ (EntrySpelling.IsBare R) names es) (ht : R.Left t e) :
    SharesAs R (es ++ [⟨some name, none, t⟩]) (names.map bareEntry ++ [typedParam e name])
      (names.map (typedParam e) ++ [typedParam e name]) where
  spells := List.rel_append (spells_bare hbare) (.cons ⟨e, ht, rfl⟩ .nil)
  variadic := List.forall_mem_append.2 ⟨by simp [bareEntry], by simp [typedParam]⟩
  named _ := ⟨typedParam e name, by simp, nofun⟩
  shares ys qs hys := by
    rw [List.append_assoc, shareTypes_bare, List.nil_append, List.append_assoc]
    exact shareTypes_typed names name hys

theorem ParamGroups.exists_entries {names : List String} {ts : List (List Word)}
    (h : ParamGroups R names ts es) (ht : ∀ t ∈ ts, R.Left t e) :
    ∃ xs, SharesAs R es xs (names.map (typedParam e)) := by
  induction h with
  | nil => exact ⟨[], sharesAs_nil⟩
  | @cons bare later name t ts es later' hbare h ih =>
    obtain ⟨hhead, hrest⟩ := List.forall_mem_cons.1 ht
    obtain ⟨xs, hxs⟩ := ih hrest
    have hgroup : SharesAs R (es ++ [⟨some name, none, t⟩]) _ _ := sharesAs_group hbare hhead
    have happend := hgroup.append hxs
    rw [List.append_assoc, List.singleton_append, List.append_assoc, List.append_assoc,
      List.singleton_append] at happend
    rw [List.map_append, List.map_cons]
    exact ⟨_, happend⟩

theorem ParamGroups.eq_nil_iff {names : List String} {ts : List (List Word)}
    (h : ParamGroups R names ts es) : names = [] ↔ ts = [] := by
  cases h <;> simp

theorem left_of_groups {names : List String} {ts ts' : List (List Word)} (h : names = [] ↔ ts = [])
    (h' : names = [] ↔ ts' = []) (ht : ∀ t ∈ ts, ∀ t' ∈ ts', R t t' e) : ∀ t ∈ ts, R.Left t e := by
  intro t hmem
  obtain ⟨t', hmem'⟩ := List.exists_mem_of_ne_nil ts' fun hnil ↦ by simp [h.1 (h'.2 hnil)] at hmem
  exact ⟨t', ht t hmem t' hmem'⟩

theorem SharedParams.exists_entries (h : SharedParams R es es' ps) : ∃ xs, SharesAs R es xs ps := by
  obtain ⟨h, h', ht⟩ := h
  exact h.exists_entries (left_of_groups h.eq_nil_iff h'.eq_nil_iff ht)

theorem exists_sharesAs (h : InParts (SharedParams R) es es' ps) : ∃ xs, SharesAs R es xs ps := by
  induction h with
  | nil => exact ⟨[], sharesAs_nil⟩
  | cons h _ ih =>
    obtain ⟨xs, hxs⟩ := h.exists_entries
    obtain ⟨ys, hys⟩ := ih
    exact ⟨_, hxs.append hys⟩

theorem groupParams_of_named {xs : List (ParamExpr TypeExpr)}
    (hlast : ∀ x ∈ xs.dropLast, x.variadic = false) (hnamed : ∃ x ∈ xs, x.name ≠ none) :
    groupParams xs = shareTypes [] xs := by
  have hfind : xs.dropLast.find? (·.variadic) = none := by simpa using hlast
  have hall : ¬xs.all (·.name.isNone) := by simpa [Option.ne_none_iff_exists'] using hnamed
  rw [groupParams, hfind]
  exact if_neg hall

theorem NamedParams.exists_entries (h : NamedParams R es es' ps) :
    ∃ xs, List.Forall₂ (EntrySpelling.Spells R) es xs ∧ groupParams xs = .ok ps := by
  cases h with
  | plain h =>
    obtain ⟨xs, hxs⟩ := exists_sharesAs h
    refine ⟨xs, hxs.spells, ?_⟩
    have hshares := hxs.shares [] [] rfl
    rw [List.append_nil, List.append_nil] at hshares
    by_cases hnil : xs = []
    · subst hnil
      exact hshares
    · rw [groupParams_of_named (fun x hx ↦ hxs.variadic x (List.dropLast_subset xs hx))
        (hxs.named hnil), hshares]
  | @variadic name ellipsis t t' e es es' ps h ht =>
    obtain ⟨xs, hxs⟩ := exists_sharesAs h
    refine ⟨xs ++ [⟨some name, e, true, .nowhere⟩],
      List.rel_append hxs.spells (.cons ⟨e, ⟨_, ht⟩, rfl⟩ .nil), ?_⟩
    have hnamed : ∃ x ∈ xs ++ [⟨some name, e, true, .nowhere⟩], x.name ≠ none :=
      ⟨_, List.mem_concat_self, by simp⟩
    rw [groupParams_of_named (by simpa using hxs.variadic) hnamed]
    exact hxs.shares _ _ rfl

theorem BareParams.exists_entries (h : BareParams R es es' ps) :
    List.Forall₂ (EntrySpelling.Spells R) es ps ∧
    (∀ p ∈ ps, p.name = none) ∧ ∀ p ∈ ps.dropLast, p.variadic = false := by
  induction h with
  | nil => exact ⟨.nil, nofun, nofun⟩
  | last h => exact ⟨.cons ⟨_, ⟨_, h⟩, rfl⟩ .nil, by simp, nofun⟩
  | @cons t t' e es es' ps h hrest ih =>
    obtain ⟨hspells, hnames, hlast⟩ := ih
    refine ⟨.cons ⟨_, ⟨_, h⟩, rfl⟩ hspells, by simpa using hnames, ?_⟩
    cases ps with
    | nil => exact nofun
    | cons p ps => simpa using hlast

theorem SpellsEntries.exists_entries (h : SpellsEntries R es es' ps) :
    ∃ xs, List.Forall₂ (EntrySpelling.Spells R) es xs ∧ groupParams xs = .ok ps := by
  cases h with
  | named h => exact h.exists_entries
  | bare h =>
    obtain ⟨hspells, hnames, hlast⟩ := h.exists_entries
    have hfind : ps.dropLast.find? (·.variadic) = none := by simpa using hlast
    refine ⟨ps, hspells, ?_⟩
    rw [groupParams, hfind]
    exact if_pos (by simpa using hnames)

end Becoming

section Grouped

variable {R : Spelling} {es pes : List EntrySpelling} {ys ps : List (ParamExpr TypeExpr)}

/-- An entry is written in these words, and `y` is read from them. -/
structure EntrySpelling.Means (R : Spelling) (e : EntrySpelling) (y : ParamExpr TypeExpr) :
    Prop where
  type : R e.type e.type y.type.unplaced
  name : y.name = e.name
  variadic : y.variadic = e.ellipsis.isSome

theorem NamedParams.cons {es es' fs fs' : List EntrySpelling} {ps qs : List (ParamExpr TypeExpr)}
    (h : SharedParams R es es' ps) (hrest : NamedParams R fs fs' qs) :
    NamedParams R (es ++ fs) (es' ++ fs') (ps ++ qs) := by
  cases hrest with
  | plain hrest => exact .plain (.cons h hrest)
  | variadic name hrest ht =>
    rw [← List.append_assoc, ← List.append_assoc, ← List.append_assoc]
    exact .variadic name (.cons h hrest) ht

theorem sharedParams_group {names : List String} {name : String} {t : List Word} {e : TypeExpr}
    (hbare : List.Forall₂ (EntrySpelling.IsBare R) names es) (ht : R t t e) :
    SharedParams R (es ++ [⟨some name, none, t⟩]) (es ++ [⟨some name, none, t⟩])
      (names.map (typedParam e) ++ [typedParam e name]) := by
  have hgroup : ParamGroups R (names ++ [name]) [t] (es ++ [⟨some name, none, t⟩]) :=
    .cons hbare .nil
  have hshared : SharedParams R _ _ ((names ++ [name]).map (typedParam e)) :=
    ⟨hgroup, hgroup, by simpa using ht⟩
  rwa [List.map_append, List.map_singleton] at hshared

/-- Entries that share types are in groups, the names in `pending` at the start of the first one. -/
theorem namedParams_of_shareTypes {pending : List (String × Span)}
    (hpending : List.Forall₂ (EntrySpelling.IsBare R) (pending.map (·.1)) pes)
    (h : List.Forall₂ (EntrySpelling.Means R) es ys) (hlast : ∀ y ∈ ys.dropLast, y.variadic = false)
    (hshares : shareTypes pending ys = .ok ps) :
    NamedParams R (pes ++ es) (pes ++ es) (ps.map ParamExpr.unplaced) := by
  fun_induction shareTypes pending ys generalizing es pes ps with
  | case1 =>
    cases hshares
    cases h
    cases hpending
    exact .plain .nil
  | case2 | case3 | case4 | case7 => cases hshares
  | case5 pending y rest name hname hfinal later hlater ih =>
    cases hshares
    cases h with
    | @cons e _ es _ he h =>
    have hrest := ih .nil h (forall_mem_dropLast hlast) hlater
    obtain ⟨own, ellipsis, t⟩ := e
    obtain ⟨htype, hown, hvariadic⟩ := he
    obtain rfl : some name = own := hname.symm.trans hown
    cases ellipsis with
    | none =>
      have hgroup : SharedParams R (pes ++ [⟨some name, none, t⟩]) _ _ :=
        sharedParams_group hpending htype
      have hall := NamedParams.cons hgroup hrest
      simpa [hname, hvariadic, typedParam, ParamExpr.unplaced, Function.comp_def] using hall
    | some text =>
      -- only the last entry has an ellipsis, and no names are left for it to share a type with
      obtain rfl : rest = [] := by
        cases rest with
        | nil => rfl
        | cons x rest => simp [hvariadic] at hlast
      obtain rfl : pending = [] := by simpa [hvariadic] using hfinal
      cases h
      cases hpending
      cases hlater
      have hall : NamedParams R ([] ++ [⟨some name, some text, t⟩]) _ _ := .variadic name .nil htype
      simpa [hname, hvariadic, ParamExpr.unplaced] using hall
  | case6 pending y rest hname name span hvariadic htype ih =>
    cases h with
    | @cons e _ es _ he h =>
    have hbare : e.IsBare R name := by
      refine ⟨he.name.symm.trans hname, ?_, ?_⟩
      · simpa [hvariadic] using he.variadic
      · have hspells := he.type
        rwa [htype] at hspells
    have hnames : List.Forall₂ (EntrySpelling.IsBare R) ((pending ++ [(name, span)]).map (·.1))
        (pes ++ [e]) := by
      simpa using List.rel_append hpending (.cons hbare .nil)
    have hrest := ih hnames h (forall_mem_dropLast hlast) hshares
    rwa [List.append_assoc] at hrest

theorem bareParams_of_means (h : List.Forall₂ (EntrySpelling.Means R) es ys)
    (hnames : ∀ y ∈ ys, y.name = none) (hlast : ∀ y ∈ ys.dropLast, y.variadic = false) :
    BareParams R es es (ys.map ParamExpr.unplaced) := by
  induction h with
  | nil => exact .nil
  | @cons e y es ys he h ih =>
    obtain ⟨own, ellipsis, t⟩ := e
    obtain ⟨htype, hown, hvariadic⟩ := he
    obtain ⟨hname, hrest⟩ := List.forall_mem_cons.1 hnames
    obtain rfl : own = none := hown.symm.trans hname
    have hparam : y.unplaced = ⟨none, y.type.unplaced, ellipsis.isSome, .nowhere⟩ := by
      rw [ParamExpr.unplaced, hname, hvariadic]
    rw [List.map_cons, hparam]
    cases h with
    | nil => exact .last htype
    | @cons e' y' es ys he' h =>
      obtain rfl : ellipsis = none := by
        simpa [hvariadic] using hlast y (by simp)
      exact .cons htype (ih hrest (forall_mem_dropLast hlast))

theorem spellsEntries_of_groupParams (h : List.Forall₂ (EntrySpelling.Means R) es ys)
    (hgroup : groupParams ys = .ok ps) : SpellsEntries R es es (ps.map ParamExpr.unplaced) := by
  rw [groupParams] at hgroup
  split at hgroup
  · cases hgroup
  · rename_i hfind
    have hlast : ∀ y ∈ ys.dropLast, y.variadic = false := by simpa using hfind
    split at hgroup
    · rename_i hnames
      cases hgroup
      exact .bare (bareParams_of_means h (by simpa using hnames) hlast)
    · have hpending :
          List.Forall₂ (EntrySpelling.IsBare R) (([] : List (String × Span)).map (·.1)) [] := .nil
      exact .named (namedParams_of_shareTypes hpending h hlast hgroup)

end Grouped

end Understudy
