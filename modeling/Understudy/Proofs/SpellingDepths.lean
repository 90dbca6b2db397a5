import Mathlib.Order.Filter.AtTopBot.Basic
import Mathlib.Order.Filter.Finite
import Mathlib.Data.Set.Finite.List
import Understudy.Proofs.GroupedSpellings

namespace Understudy

open Filter

section Eventually

variable {ι β γ : Type} {l : Filter ι}

theorem eventually_forall_mem {P : ι → β → Prop} {as : List β} (h : ∀ a ∈ as, ∀ᶠ i in l, P i a) :
    ∀ᶠ i in l, ∀ a ∈ as, P i a :=
  (eventually_all_finite as.finite_toSet).2 h

theorem eventually_forall₂ {P : β → γ → Prop} {Q : ι → β → γ → Prop}
    (hP : ∀ b c, P b c → ∀ᶠ i in l, Q i b c) {bs : List β} {cs : List γ}
    (h : List.Forall₂ P bs cs) : ∀ᶠ i in l, List.Forall₂ (Q i) bs cs := by
  induction h with
  | nil => exact .of_forall fun _ ↦ .nil
  | cons h _ ih =>
    filter_upwards [hP _ _ h, ih] with i h ih
    exact .cons h ih

theorem InParts.eventually {P : List β → List β → List γ → Prop}
    {Q : ι → List β → List β → List γ → Prop}
    (hP : ∀ ls ls' xs, P ls ls' xs → ∀ᶠ i in l, Q i ls ls' xs) {ls ls' : List β} {xs : List γ}
    (h : InParts P ls ls' xs) : ∀ᶠ i in l, InParts (Q i) ls ls' xs := by
  induction h with
  | nil => exact .of_forall fun _ ↦ .nil
  | cons h _ ih =>
    filter_upwards [hP _ _ _ h, ih] with i h ih
    exact .cons h ih

variable {R : Spelling} {S : ι → Spelling} (hS : ∀ ws ws' e, R ws ws' e → ∀ᶠ i in l, S i ws ws' e)
  {ws ws' : List Word} {e : TypeExpr}

include hS

theorem eventually_spells_all {ts ts' : List (List Word)} (h : ∀ t ∈ ts, ∀ t' ∈ ts', R t t' e) :
    ∀ᶠ i in l, ∀ t ∈ ts, ∀ t' ∈ ts', S i t t' e :=
  eventually_forall_mem fun t ht ↦ eventually_forall_mem fun t' ht' ↦ hS t t' e (h t ht t' ht')

theorem ParamGroups.eventually {names : List String} {ts : List (List Word)}
    {es : List EntrySpelling} (h : ParamGroups R names ts es) :
    ∀ᶠ i in l, ParamGroups (S i) names ts es := by
  induction h with
  | nil => exact .of_forall fun _ ↦ .nil
  | cons hbare _ ih =>
    have hnames := eventually_forall₂ (Q := fun i ↦ EntrySpelling.IsBare (S i))
      (fun n e he ↦ (hS _ _ _ he.2.2).mono fun i hi ↦ ⟨he.1, he.2.1, hi⟩) hbare
    filter_upwards [hnames, ih] with i hnames ih
    exact .cons hnames ih

theorem SharedParams.eventually {es es' : List EntrySpelling} {ps : List (ParamExpr TypeExpr)}
    (h : SharedParams R es es' ps) : ∀ᶠ i in l, SharedParams (S i) es es' ps := by
  obtain ⟨h, h', ht⟩ := h
  filter_upwards [h.eventually hS, h'.eventually hS, eventually_spells_all hS ht] with i h h' ht
  exact .mk h h' ht

theorem BareParams.eventually {es es' : List EntrySpelling} {ps : List (ParamExpr TypeExpr)}
    (h : BareParams R es es' ps) : ∀ᶠ i in l, BareParams (S i) es es' ps := by
  induction h with
  | nil => exact .of_forall fun _ ↦ .nil
  | last h => exact (hS _ _ _ h).mono fun i hi ↦ .last hi
  | cons h _ ih =>
    filter_upwards [hS _ _ _ h, ih] with i h ih
    exact .cons h ih

theorem NamedParams.eventually {es es' : List EntrySpelling} {ps : List (ParamExpr TypeExpr)}
    (h : NamedParams R es es' ps) : ∀ᶠ i in l, NamedParams (S i) es es' ps := by
  cases h with
  | plain h => exact (h.eventually fun _ _ _ ↦ SharedParams.eventually hS).mono fun i hi ↦ .plain hi
  | variadic name h ht =>
    filter_upwards [h.eventually fun _ _ _ ↦ SharedParams.eventually hS, hS _ _ _ ht] with i h ht
    exact .variadic name h ht

theorem SpellsParams.eventually {ps : List (ParamExpr TypeExpr)} (h : SpellsParams R ws ws' ps) :
    ∀ᶠ i in l, SpellsParams (S i) ws ws' ps := by
  obtain ⟨hws, hws', h⟩ := h
  cases h with
  | bare h => exact (h.eventually hS).mono fun i hi ↦ .mk hws hws' (.bare hi)
  | named h => exact (h.eventually hS).mono fun i hi ↦ .mk hws hws' (.named hi)

theorem SpellsResults.eventually {ps : List (ParamExpr TypeExpr)} (h : SpellsResults R ws ws' ps) :
    ∀ᶠ i in l, SpellsResults (S i) ws ws' ps := by
  cases h with
  | none => exact .of_forall fun _ ↦ .none
  | single h hw hw' => exact (hS _ _ _ h).mono fun i hi ↦ .single hi hw hw'
  | list h hlast => exact (h.eventually hS).mono fun i hi ↦ .list hi hlast

theorem SpellsSignature.eventually {sig : SignatureExpr TypeExpr}
    (h : SpellsSignature R ws ws' sig) : ∀ᶠ i in l, SpellsSignature (S i) ws ws' sig := by
  obtain ⟨hin, hout⟩ := h
  filter_upwards [hin.eventually hS, hout.eventually hS] with i hin hout
  exact .mk hin hout

theorem SpellsElement.eventually {items items' : List (List Word)}
    {elements : List (ElementExpr TypeExpr)} (h : SpellsElement R items items' elements) :
    ∀ᶠ i in l, SpellsElement (S i) items items' elements := by
  cases h with
  | method name h => exact (h.eventually hS).mono fun i hi ↦ .method name hi
  | embedded h => exact .of_forall fun _ ↦ .embedded h

theorem SpellsFields.eventually {items items' : List (List Word)}
    {fields : List (FieldExpr TypeExpr)} (h : SpellsFields R items items' fields) :
    ∀ᶠ i in l, SpellsFields (S i) items items' fields := by
  cases h with
  | embedded tag tag' h hw hw' => exact (hS _ _ _ h).mono fun i hi ↦ .embedded tag tag' hi hw hw'
  | named h h' ht => exact (eventually_spells_all hS ht).mono fun i hi ↦ .named h h' hi

theorem SpellsOver.eventually (h : SpellsOver R ws ws' e) :
    ∀ᶠ i in l, SpellsOver (S i) ws ws' e := by
  cases h with
  | name h => exact .of_forall fun _ ↦ .name h
  | pointer h => exact (hS _ _ _ h).mono fun i hi ↦ .pointer hi
  | slice h => exact (hS _ _ _ h).mono fun i hi ↦ .slice hi
  | array hlength h => exact (hS _ _ _ h).mono fun i hi ↦ .array hlength hi
  | map hk h =>
    filter_upwards [hS _ _ _ hk, hS _ _ _ h] with i hk h
    exact .map hk h
  | chan h hw hw' => exact (hS _ _ _ h).mono fun i hi ↦ .chan hi hw hw'
  | send h => exact (hS _ _ _ h).mono fun i hi ↦ .send hi
  | recv h => exact (hS _ _ _ h).mono fun i hi ↦ .recv hi
  | func h => exact (h.eventually hS).mono fun i hi ↦ .func hi
  | interface hws hws' h =>
    exact (h.eventually fun _ _ _ ↦ SpellsElement.eventually hS).mono fun i hi ↦
      .interface hws hws' hi
  | struct hws hws' h =>
    exact (h.eventually fun _ _ _ ↦ SpellsFields.eventually hS).mono fun i hi ↦ .struct hws hws' hi
  | parens h => exact (hS _ _ _ h).mono fun i hi ↦ .parens hi

end Eventually

variable {n m : Nat} {R R' : Spelling} {ws ws' : List Word} {e : TypeExpr}

theorem SpellsOver.mono (hR : ∀ ws ws' e, R ws ws' e → R' ws ws' e) (h : SpellsOver R ws ws' e) :
    SpellsOver R' ws ws' e := by
  have heventually :=
    h.eventually (l := pure ()) (S := fun _ ↦ R') fun ws ws' e h ↦ eventually_pure.2 (hR ws ws' e h)
  exact eventually_pure.1 heventually

theorem SpellsWithin.succ (h : SpellsWithin n ws ws' e) : SpellsWithin (n + 1) ws ws' e := by
  induction n generalizing ws ws' e with
  | zero => exact h.elim
  | succ n ih => exact SpellsOver.mono (fun _ _ _ ↦ ih) h

theorem SpellsWithin.mono (h : SpellsWithin n ws ws' e) (hle : n ≤ m) :
    SpellsWithin m ws ws' e := by
  induction hle with
  | refl => exact h
  | step _ ih => exact ih.succ

theorem spellsType_iff : SpellsType ws ws' e ↔ SpellsOver SpellsType ws ws' e := by
  constructor
  · rintro ⟨n, h⟩
    cases n with
    | zero => exact h.elim
    | succ n => exact SpellsOver.mono (fun _ _ _ h ↦ ⟨n, h⟩) h
  · -- each part has a depth of its own, and all parts have any depth that is great enough
    intro h
    have hdeep : ∀ᶠ n in atTop, SpellsOver (SpellsWithin n) ws ws' e := by
      refine h.eventually fun ws ws' e h ↦ ?_
      obtain ⟨n, h⟩ := h
      exact (eventually_ge_atTop n).mono fun m hle ↦ h.mono hle
    obtain ⟨n, hn⟩ := hdeep.exists
    exact ⟨n + 1, hn⟩

theorem spellsType_name (name : String) :
    SpellsType [(.ident, name)] [(.ident, name)] (.name none name .nowhere) :=
  spellsType_iff.2 (.name (.bare name))

end Understudy
