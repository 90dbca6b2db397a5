import Understudy.Proofs.DisplayedLists
import Understudy.Proofs.ReaderRounds
import Understudy.Proofs.SpelledEntries

namespace Understudy

open Reader

namespace Cursor

variable {c : Cursor} {ws : List Word} {kind : TokenKind}

theorem isAt_eq_false (h : c.words = ws) (hne : ∀ w ∈ ws.head?, w.1 ≠ kind) (hkind : kind ≠ .eof) :
    c.isAt kind = false := by
  obtain ⟨tokens, last⟩ := c
  cases tokens with
  | nil => simpa [isAt] using hkind
  | cons t rest => simpa [isAt] using head?_tokens_ne h hne t rfl

theorem any_head?_eq_false (h : c.words = ws) {f : TokenKind → Bool}
    (hf : ∀ w ∈ ws.head?, f w.1 = false) : c.tokens.head?.any (fun t ↦ f t.kind) = false := by
  obtain ⟨tokens, last⟩ := c
  cases tokens with
  | nil => rfl
  | cons t rest =>
    subst h
    exact hf t.word rfl

end Cursor

def stopsType : TokenKind → Bool
  | .rparen | .rbracket | .rbrace | .comma | .semicolon | .str | .eof => true
  | _ => false

theorem startsType_of_stopsType {kind : TokenKind} (h : stopsType kind = true) :
    startsType kind = false := by
  cases kind <;> first | rfl | cases h

def StopsType (after : List Word) : Prop := ∀ w ∈ after.head?, stopsType w.1 = true

theorem stopsType_cons {w : Word} (h : stopsType w.1 = true) (rest : List Word) :
    StopsType (w :: rest) := by
  rintro _ ⟨⟩
  exact h

theorem StopsType.ne {after : List Word} {kind : TokenKind} (h : StopsType after)
    (hk : stopsType kind = false) : ∀ w ∈ after.head?, w.1 ≠ kind := by
  rintro w hw rfl
  simp [h w hw] at hk

def opensType (kind : TokenKind) : Bool := startsType kind || kind == .lparen

/-- From these words this type is read. -/
structure TypeReads (ws : List Word) (e : TypeExpr) : Prop where
  opens : ∃ w rest, ws = w :: rest ∧ opensType w.1 = true ∧
      (w.1 = .ident → ∀ x ∈ rest.head?, x.1 = .dot)
  reads : ∀ after, StopsType after → Yields type (ws ++ after) after (·.unplaced = e)

theorem type_eq : type = typeOver type := unrolls_types.unfolds

section Entries

/-- From these words this entry of a parameter list is read. -/
structure EntryReads (ws : List Word) (x : ParamExpr TypeExpr) : Prop where
  opens : ∃ w rest, ws = w :: rest ∧ opensEntry w.1 = true
  reads : ∀ w after, endsEntry w.1 = true →
      Yields (paramEntry type) (ws ++ w :: after) (w :: after) (·.unplaced = x)

theorem stopsType_of_endsEntry {w : Word} (hw : endsEntry w.1 = true) (after : List Word) :
    StopsType (w :: after) := by
  refine stopsType_cons ?_ after
  obtain ⟨kind, text⟩ := w
  cases kind <;> first | rfl | cases hw

variable {t : List Word} {e : TypeExpr}

theorem TypeReads.entry_opens (h : TypeReads t e) (ellipsis : Option String) {w : Word}
    (hw : endsEntry w.1 = true) (after : List Word) :
    ∃ x rest, ellipsis.toList.map (TokenKind.ellipsis, ·) ++ t ++ w :: after = x :: rest ∧
      endsBareType x.1 = false ∧ opensEntry x.1 = true ∧
      (x.1 = .ident → ∃ y ∈ rest.head?, endsBareType y.1 = true) := by
  cases ellipsis with
  | some text => exact ⟨(.ellipsis, text), t ++ w :: after, rfl, rfl, rfl, nofun⟩
  | none =>
    obtain ⟨⟨kind, text⟩, rest, rfl, hopens, hdot⟩ := h.opens
    refine ⟨(kind, text), rest ++ w :: after, rfl, ?_, ?_, fun hident ↦ ?_⟩
    · cases kind <;> first | rfl | cases hopens
    · cases kind <;> first | rfl | cases hopens
    · cases rest with
      | nil =>
        refine ⟨w, rfl, ?_⟩
        obtain ⟨kind, text⟩ := w
        cases kind <;> first | rfl | cases hw
      | cons y rest => exact ⟨y, rfl, by simp [hdot hident y rfl, endsBareType]⟩

theorem TypeReads.yields_entry (h : TypeReads t e) (name ellipsis : Option String) {w : Word}
    (hw : endsEntry w.1 = true) (after : List Word) :
    Yields (paramEntry type) (EntrySpelling.words ⟨name, ellipsis, t⟩ ++ w :: after) (w :: after)
      (·.unplaced = ⟨name, e, ellipsis.isSome, .nowhere⟩) := by
  have htype := h.reads _ (stopsType_of_endsEntry hw after)
  have htail (start : Nat) : Yields (entryTail type start name)
      (ellipsis.toList.map (TokenKind.ellipsis, ·) ++ t ++ w :: after) (w :: after)
      (·.unplaced = ⟨name, e, ellipsis.isSome, .nowhere⟩) := by
    cases ellipsis with
    | some text =>
      exact yields_entryTail_variadic
        (htype.mono fun x hx s ↦ by rw [ParamExpr.unplaced, hx, Option.isSome])
    | none =>
      refine yields_entryTail ?_
        (htype.mono fun x hx s ↦ by rw [ParamExpr.unplaced, hx, Option.isSome])
      obtain ⟨⟨kind, text⟩, rest, rfl, hopens, -⟩ := h.opens
      rintro _ ⟨⟩ rfl
      cases hopens
  obtain ⟨x, rest, hx, hnamed, -, hbare⟩ := h.entry_opens ellipsis hw after
  rw [hx] at htail
  cases name with
  | none =>
    have hwords : EntrySpelling.words ⟨none, ellipsis, t⟩ ++ w :: after = x :: rest := by
      simpa [EntrySpelling.words] using hx
    rw [hwords]
    exact yields_paramEntry_bare hbare htail
  | some n =>
    have hwords : EntrySpelling.words ⟨some n, ellipsis, t⟩ ++ w :: after =
      (.ident, n) :: x :: rest := by
      simpa [EntrySpelling.words] using hx
    rw [hwords]
    exact yields_paramEntry_named hnamed htail

theorem TypeReads.entry (h : TypeReads t e) (name ellipsis : Option String) :
    EntryReads (EntrySpelling.words ⟨name, ellipsis, t⟩) ⟨name, e, ellipsis.isSome, .nowhere⟩ where
  opens := by
    cases name with
    | some name => exact ⟨_, _, rfl, rfl⟩
    | none =>
      cases ellipsis with
      | some text => exact ⟨_, _, rfl, rfl⟩
      | none =>
        obtain ⟨⟨kind, text⟩, rest, rfl, hopens, -⟩ := h.opens
        refine ⟨(kind, text), rest, rfl, ?_⟩
        cases kind <;> first | rfl | cases hopens
  reads _ after hw := h.yields_entry name ellipsis hw after

theorem yields_entries {es : List EntrySpelling} {ws : List Word} {xs : List (ParamExpr TypeExpr)}
    (h : EntryList es ws) (hes : List.Forall₂ (fun e x ↦ EntryReads e.words x) es xs) {m : Nat}
    (hm : ws.length < m) {text : String} (after : List Word) :
    Yields (paramEntries type m) (ws ++ (.rparen, text) :: after) ((.rparen, text) :: after)
      (·.map ParamExpr.unplaced = xs) := by
  induction h generalizing xs m with
  | nil =>
    cases hes
    obtain ⟨m, rfl⟩ : ∃ k, m = k + 1 := ⟨m - 1, by omega⟩
    exact yields_paramEntries_nil.mono fun ys hys ↦ by rw [hys, List.map_nil]
  | last e =>
    cases hes with
    | cons he hes =>
    cases hes
    obtain ⟨m, rfl⟩ : ∃ k, m = k + 1 := ⟨m - 1, by omega⟩
    obtain ⟨w, rest, hw, hopens⟩ := he.opens
    have hread := he.reads (.rparen, text) after rfl
    rw [hw] at hread ⊢
    refine (yields_paramEntries_last hopens hread).mono ?_
    rintro _ ⟨y, hy, rfl⟩
    rw [List.map_singleton, hy]
  | @cons e comma es ws h ih =>
    cases hes with
    | cons he hes =>
    obtain ⟨w, rest, hw, hopens⟩ := he.opens
    have hread := he.reads (.comma, comma) (ws ++ (.rparen, text) :: after) rfl
    rw [hw] at hread hm ⊢
    obtain ⟨m, rfl⟩ : ∃ k, m = k + 1 := ⟨m - 1, by simp at hm; omega⟩
    rw [List.append_assoc]
    refine yields_paramEntries_cons hopens hread (ih hes (by simp at hm; omega))
      fun y ys hy hys ↦ ?_
    rw [List.map_cons, hy, hys]

end Entries

section Signatures

variable {R : Spelling} (hR : ∀ ws ws' e, R ws ws' e → TypeReads ws e) {ws ws' : List Word}
  {ps : List (ParamExpr TypeExpr)}

include hR

theorem SpellsParams.yields (h : SpellsParams R ws ws' ps) (after : List Word) :
    Yields (params type) (ws ++ after) after (·.map ParamExpr.unplaced = ps) := by
  obtain @⟨x, y, es, es', ws, ws', ps, hws, -, h⟩ := h
  obtain ⟨xs, hxs, hgroup⟩ := h.exists_entries
  have hes : List.Forall₂ (fun e x ↦ EntryReads e.words x) es xs := by
    refine hxs.imp fun e x hx ↦ ?_
    obtain ⟨type, ⟨t', ht⟩, rfl⟩ := hx
    exact (hR _ _ _ ht).entry e.name e.ellipsis
  simp only [List.cons_append, List.append_assoc, List.nil_append]
  refine yields_params (yields_bounded ((yields_entries hws hes ?_ after).mono fun ys hys ↦ ?_))
  · simp only [List.length_append, List.length_cons]
    omega
  · exact exists_of_groupParams_unplaced (hys ▸ hgroup)

theorem SpellsResults.yields (h : SpellsResults R ws ws' ps) {after : List Word}
    (hafter : StopsType after) :
    Yields (results type) (ws ++ after) after (·.map ParamExpr.unplaced = ps) := by
  cases h with
  | none =>
    refine yields_cursor_bind fun c hc ↦ yields_if_neg ?_ (yields_if_neg ?_ (yields_pure rfl))
    · exact Cursor.isAt_eq_false hc (hafter.ne rfl) nofun
    · exact Cursor.any_head?_eq_false hc fun w hw ↦ startsType_of_stopsType (hafter w hw)
  | single h hw hw' =>
    have hreads := (hR _ _ _ h).reads after hafter
    obtain ⟨x, rest, rfl, -⟩ := (hR _ _ _ h).opens
    have hstarts := hw x rfl
    refine yields_cursor_bind fun c hc ↦ yields_if_neg ?_ (yields_if_pos ?_ ?_)
    · rw [Cursor.isAt_eq hc, beq_eq_false_iff_ne]
      intro hlparen
      simp [hlparen, startsType] at hstarts
    · rwa [Cursor.any_head?_tokens hc]
    · exact hreads.bind fun e he ↦ yields_pure (by simp [ParamExpr.unplaced, he])
  | list h hlast =>
    have hparams := h.yields hR after
    obtain ⟨-, -, -⟩ := h
    exact yields_cursor_bind fun c hc ↦ yields_if_pos (by rw [Cursor.isAt_eq hc]; rfl) hparams

omit hR in
theorem SpellsResults.variadic (h : SpellsResults R ws ws' ps) : ∀ p ∈ ps, p.variadic = false := by
  cases h with
  | none => exact nofun
  | single => simp
  | list h hlast => exact hlast

theorem SpellsSignature.yields {sig : SignatureExpr TypeExpr} (h : SpellsSignature R ws ws' sig)
    {after : List Word} (hafter : StopsType after) :
    Yields (signature type) (ws ++ after) after (·.unplaced = sig) := by
  obtain ⟨hin, hout⟩ := h
  rw [List.append_assoc]
  refine yields_cursor_bind fun c _ ↦ (hin.yields hR _).bind fun inputs hinputs ↦ ?_
  refine (hout.yields hR hafter).bind fun outputs houtputs ↦ ?_
  have hfind : outputs.find? (·.variadic) = none := by
    rw [List.find?_eq_none]
    intro p hp
    have hmem : p.unplaced ∈ outputs.map ParamExpr.unplaced := List.mem_map_of_mem hp
    rw [houtputs] at hmem
    simpa [ParamExpr.unplaced] using hout.variadic _ hmem
  rw [hfind]
  refine yields_cursor_bind fun c' _ ↦ yields_range_bind fun s ↦ yields_pure ?_
  rw [SignatureExpr.unplaced_mk, hinputs, houtputs]

omit hR in
theorem SpellsSignature.opens {sig : SignatureExpr TypeExpr} (h : SpellsSignature R ws ws' sig) :
    ∃ x rest, ws = (.lparen, x) :: rest := by
  obtain ⟨⟨-, -, -⟩, -⟩ := h
  exact ⟨_, _, rfl⟩

end Signatures

section Bodies

variable {α : Type} {what : String} {item : Reader (List α)} {f : α → α}

/-- From these words, in a body, these items are read. -/
structure ItemReads (item : Reader (List α)) (f : α → α) (ws : List Word) (xs : List α) : Prop where
  opens : ∃ w rest, ws = w :: rest ∧ opensItem w.1 = true
  reads : ∀ w after, w.1 = .semicolon ∨ w.1 = .rbrace →
      Yields item (ws ++ w :: after) (w :: after) (·.map f = xs)

theorem yields_skip {β : Type} {g : Unit → Reader β} {w : Word} {ws after : List Word}
    {Q : β → Prop} (hw : w.1 = .semicolon) (h : Yields (skipSemicolons >>= g) ws after Q) :
    Yields (skipSemicolons >>= g) (w :: ws) after Q := by
  intro c hc
  obtain ⟨t, rest, last, rfl, ht, hrest⟩ := exists_cons hc
  have hskip : (skipSemicolons >>= g) ⟨t :: rest, last⟩ =
      (skipSemicolons >>= g) ⟨rest, t.span.stop⟩ := by
    have hkind : t.kind = .semicolon := (congrArg Prod.fst ht).trans hw
    rw [bind_apply, bind_apply, skipSemicolons, skipSemicolons, Cursor.skipSemicolons, if_pos hkind]
  rw [hskip]
  exact h _ hrest

theorem yields_body {items : List (List Word)} {ws : List Word} (h : Ended items ws)
    {xss : List (List α)} (hitems : List.Forall₂ (ItemReads item f) items xss) {m : Nat}
    (hm : ws.length < m) {text : String} (after : List Word) :
    Yields (bodyItems what item m) (ws ++ (.rbrace, text) :: after) ((.rbrace, text) :: after)
      (·.map f = xss.flatten) := by
  induction h generalizing xss m with
  | nil =>
    cases hitems
    obtain ⟨m, rfl⟩ : ∃ k, m = k + 1 := ⟨m - 1, by omega⟩
    exact yields_bodyItems_nil.mono fun xs hxs ↦ by rw [hxs]; rfl
  | skip hw h ih =>
    obtain ⟨m, rfl⟩ : ∃ k, m = k + 1 := ⟨m - 1, by omega⟩
    exact yields_skip hw (ih hitems (m := m + 1) (by simp at hm; omega))
  | last i =>
    cases hitems with
    | cons hi hitems =>
    cases hitems
    obtain ⟨w, rest, hw, hopens⟩ := hi.opens
    have hread := hi.reads (.rbrace, text) after (.inr rfl)
    rw [hw] at hread hm ⊢
    obtain ⟨m, rfl⟩ : ∃ k, m = k + 2 := ⟨m - 2, by simp at hm; omega⟩
    exact (yields_bodyItems_last hopens hread).mono fun xs hxs ↦ by simpa using hxs
  | @cons w i items ws hw h ih =>
    cases hitems with
    | @cons _ xs _ xss hi hitems =>
    obtain ⟨w', rest, hw', hopens⟩ := hi.opens
    obtain ⟨kind, semicolon⟩ := w
    obtain rfl : kind = .semicolon := hw
    have hread := hi.reads (.semicolon, semicolon) (ws ++ (.rbrace, text) :: after) (.inl rfl)
    rw [hw'] at hread hm ⊢
    obtain ⟨m, rfl⟩ : ∃ k, m = k + 1 := ⟨m - 1, by omega⟩
    rw [List.append_assoc]
    refine yields_bodyItems_cons hopens hread (ih hitems (m := m) (by simp at hm; omega))
      fun ys zs hys hzs ↦ ?_
    rw [List.map_append, hys, hzs, List.flatten_cons]

theorem InParts.exists_items {ι β : Type} {P : List ι → List ι → List β → Prop}
    {Q : ι → List β → Prop} {l l' : List ι} {xs : List β}
    (hP : ∀ l l' xs, P l l' xs → ∃ xss, List.Forall₂ Q l xss ∧ xss.flatten = xs)
    (h : InParts P l l' xs) : ∃ xss, List.Forall₂ Q l xss ∧ xss.flatten = xs := by
  induction h with
  | nil => exact ⟨[], .nil, rfl⟩
  | cons h _ ih =>
    obtain ⟨xss, hxss, rfl⟩ := hP _ _ _ h
    obtain ⟨yss, hyss, rfl⟩ := ih
    exact ⟨xss ++ yss, List.rel_append hxss hyss, List.flatten_append⟩

section Fields

variable {R : Spelling} {t : List Word} {e : TypeExpr} {names : List String} {w : Word}

theorem yields_tag {fields : List (FieldExpr TypeExpr)} {P : List (FieldExpr TypeExpr) → Prop}
  (tag : Option String)
    (hw : w.1 = .semicolon ∨ w.1 = .rbrace) (after : List Word) (h : P fields) : Yields (do
      let _ ← eat .str
      return fields) (tagWords tag ++ w :: after) (w :: after) P := by
  cases tag with
  | some text => exact yields_eat_bind (yields_pure h)
  | none =>
    refine yields_eat_other ?_ (yields_pure h)
    rintro _ ⟨⟩
    rcases hw with hw | hw <;> simp [hw]

theorem stopsType_tag (tag : Option String) (hw : w.1 = .semicolon ∨ w.1 = .rbrace)
    (after : List Word) : StopsType (tagWords tag ++ w :: after) := by
  cases tag with
  | some text => exact stopsType_cons rfl _
  | none => exact stopsType_cons (by rcases hw with hw | hw <;> rw [hw] <;> rfl) _

theorem endsBareField_tag (tag : Option String) (hw : w.1 = .semicolon ∨ w.1 = .rbrace)
    (after : List Word) : ∃ x ∈ (tagWords tag ++ w :: after).head?, endsBareField x.1 = true := by
  cases tag with
  | some text => exact ⟨_, rfl, rfl⟩
  | none => exact ⟨w, rfl, by rcases hw with hw | hw <;> rw [hw] <;> rfl⟩

theorem TypeReads.field_embedded (h : TypeReads t e) (hstarts : StartsEmbedded t)
    (tag : Option String) :
    ItemReads (fieldGroup type) FieldExpr.unplaced (t ++ tagWords tag) [⟨none, e, .nowhere⟩] where
  opens := by
    obtain ⟨w, rest, rfl, -⟩ := h.opens
    refine ⟨w, rest ++ tagWords tag, rfl, ?_⟩
    rcases hstarts w rfl with hw | hw <;> rw [hw] <;> rfl
  reads w after hw := by
    have hread := h.reads _ (stopsType_tag tag hw after)
    obtain ⟨x, rest, rfl, -, hdot⟩ := h.opens
    have hbare : x.1 = .star ∨ x.1 = .ident ∧ ∃ y ∈ (rest ++ (tagWords tag ++ w :: after)).head?,
        endsBareField y.1 = true := by
      refine (hstarts x rfl).imp_right fun hident ↦ ⟨hident, ?_⟩
      cases rest with
      | nil => exact endsBareField_tag tag hw after
      | cons y rest => exact ⟨y, rfl, by rw [hdot hident y rfl]; rfl⟩
    rw [List.append_assoc]
    exact yields_fieldGroup_type hbare
      (hread.bind fun y hy ↦ yields_tag tag hw after (by simp [FieldExpr.unplaced, hy]))

theorem yields_fieldNames_nil {after : List Word} (hafter : ∀ w ∈ after.head?, w.1 ≠ .comma) :
    Yields (bounded fieldNames) after after (· = []) := by
  rw [unrolls_names.unfolds]
  exact yields_eat_other hafter (yields_pure rfl)

theorem yields_fieldNames {ns : List Word} (h : NameList names ns) {x : String} {after : List Word}
    (hafter : ∀ w ∈ after.head?, w.1 ≠ .comma) :
    Yields (bounded fieldNames) ((.comma, x) :: (ns ++ after)) after (·.map (·.1) = names) := by
  induction h generalizing x with
  | last name =>
    rw [unrolls_names.unfolds]
    refine yields_eat_bind
      (yields_ident_bind fun s ↦ (yields_fieldNames_nil hafter).bind fun later hlater ↦
        yields_pure ?_)
    rw [hlater, List.map_singleton]
  | cons name h ih =>
    rw [unrolls_names.unfolds]
    refine yields_eat_bind (yields_ident_bind fun s ↦ ih.bind fun later hlater ↦ yields_pure ?_)
    rw [List.map_cons, hlater]

theorem yields_namedFields (type : TypeExpr) (ws : List (String × Span)) (after : List Word) :
    Yields (namedFields type ws) after after
      (·.map FieldExpr.unplaced = (ws.map (·.1)).map (⟨some ·, type.unplaced, .nowhere⟩)) := by
  induction ws with
  | nil => exact yields_pure rfl
  | cons w ws ih =>
    obtain ⟨name, span⟩ := w
    refine yields_join_bind fun s ↦ ih.bind fun later hlater ↦ yields_pure ?_
    rw [List.map_cons, hlater]
    rfl

theorem TypeReads.head_ne (h : TypeReads t e) {kind : TokenKind} (hkind : opensType kind = false)
    (after : List Word) : ∀ w ∈ (t ++ after).head?, w.1 ≠ kind := by
  obtain ⟨w, rest, rfl, hopens, -⟩ := h.opens
  rintro _ ⟨⟩ rfl
  simp [hopens] at hkind

theorem TypeReads.field_named (h : TypeReads t e) {ns : List Word} (hns : NameList names ns)
    (tag : Option String) :
    ItemReads (fieldGroup type) FieldExpr.unplaced (ns ++ (t ++ tagWords tag))
      (names.map (⟨some ·, e, .nowhere⟩)) where
  opens := by cases hns <;> exact ⟨_, _, rfl, rfl⟩
  reads w after hw := by
    have hread := h.reads _ (stopsType_tag tag hw after)
    have htail (names : List (String × Span)) : Yields (do
        let type ← type
        let fields ← namedFields type names
        let _ ← eat .str
        return fields) (t ++ (tagWords tag ++ w :: after)) (w :: after)
        (·.map FieldExpr.unplaced = (names.map (·.1)).map (⟨some ·, e, .nowhere⟩)) :=
      hread.bind fun y hy ↦ (yields_namedFields y names _).bind fun fields hfields ↦
        yields_tag tag hw after (hy ▸ hfields)
    rw [List.append_assoc, List.append_assoc]
    cases hns with
    | last name =>
      have hnone := yields_fieldNames_nil (h.head_ne rfl (tagWords tag ++ w :: after))
      obtain ⟨x, rest, rfl, hopens, -⟩ := h.opens
      refine yields_fieldGroup_names ?_ fun span ↦ hnone.bind fun later hlater ↦ ?_
      · obtain ⟨kind, text⟩ := x
        cases kind <;> first | rfl | cases hopens
      · subst hlater
        exact htail _
    | @cons name comma names ns hns =>
      refine yields_fieldGroup_names rfl fun span ↦ (yields_fieldNames hns (h.head_ne rfl _)).bind
        fun later hlater ↦ ?_
      subst hlater
      exact htail _

theorem FieldGroups.eq_nil_iff {ts items : List (List Word)} (h : FieldGroups names ts items) :
    names = [] ↔ ts = [] := by
  cases h with
  | nil => simp
  | cons tag hnames h => cases hnames <;> simp

theorem FieldGroups.exists_items {ts items : List (List Word)} (h : FieldGroups names ts items)
    (ht : ∀ t ∈ ts, TypeReads t e) :
    ∃ xss, List.Forall₂ (ItemReads (fieldGroup type) FieldExpr.unplaced) items xss ∧
      xss.flatten = names.map (⟨some ·, e, .nowhere⟩) := by
  induction h with
  | nil => exact ⟨[], .nil, rfl⟩
  | cons tag hnames h ih =>
    obtain ⟨hhead, hrest⟩ := List.forall_mem_cons.1 ht
    obtain ⟨xss, hxss, hflat⟩ := ih hrest
    exact ⟨_ :: xss, .cons (hhead.field_named hnames tag) hxss,
      by rw [List.flatten_cons, hflat, List.map_append]⟩

theorem SpellsFields.exists_items (hR : ∀ ws ws' e, R ws ws' e → TypeReads ws e)
    {items items' : List (List Word)} {fields : List (FieldExpr TypeExpr)}
    (h : SpellsFields R items items' fields) :
    ∃ xss, List.Forall₂ (ItemReads (fieldGroup type) FieldExpr.unplaced) items xss ∧
    xss.flatten = fields := by
  cases h with
  | embedded tag tag' h hw hw' => exact ⟨[_], .cons ((hR _ _ _ h).field_embedded hw tag) .nil, rfl⟩
  | named h h' ht =>
    refine h.exists_items fun t hmem ↦ ?_
    obtain ⟨t', ht'⟩ := left_of_groups h.eq_nil_iff h'.eq_nil_iff ht t hmem
    exact hR _ _ _ ht'

end Fields

section Elements

theorem SpellsName.typeReads {ws : List Word} {e : TypeExpr} (h : SpellsName ws e) :
    TypeReads ws e where
  opens := by
    cases h with
    | bare name => exact ⟨_, [], rfl, rfl, fun _ ↦ nofun⟩
    | qualified => exact ⟨_, _, rfl, rfl, fun _ x hx ↦ by cases hx; rfl⟩
  reads after hafter := by
    rw [type_eq]
    cases h with
    | bare name => exact yields_ident_iff.2 (yields_typeName (hafter.ne rfl) fun s ↦ rfl)
    | qualified => exact yields_ident_iff.2 (yields_typeName_qualified fun s ↦ rfl)

theorem stopsType_item {w : Word} (hw : w.1 = .semicolon ∨ w.1 = .rbrace) (after : List Word) :
    StopsType (w :: after) := stopsType_cons (by rcases hw with hw | hw <;> rw [hw] <;> rfl) after

theorem SpellsSignature.method {R : Spelling} (hR : ∀ ws ws' e, R ws ws' e → TypeReads ws e)
    (name : String) {ws ws' : List Word} {sig : SignatureExpr TypeExpr}
    (h : SpellsSignature R ws ws' sig) :
    ItemReads ((fun e ↦ [e]) <$> element type) ElementExpr.unplaced ((.ident, name) :: ws)
      [.method name sig .nowhere] where
  opens := ⟨_, _, rfl, rfl⟩
  reads w after hw := by
    have hread := h.yields hR (stopsType_item hw after)
    obtain ⟨x, rest, rfl⟩ := h.opens
    refine .map (yields_element_method (hread.mono fun sig hsig s ↦ ?_))
    rw [List.map_singleton, ElementExpr.unplaced, hsig]

theorem SpellsName.embedded {ws : List Word} {e : TypeExpr} (h : SpellsName ws e) :
    ItemReads ((fun e ↦ [e]) <$> element type) ElementExpr.unplaced ws [.embedded e] where
  opens := by cases h <;> exact ⟨_, _, rfl, rfl⟩
  reads w after hw := by
    have hafter := stopsType_item hw after
    have hread := h.typeReads.reads _ hafter
    have hmade : ∀ x : TypeExpr, x.unplaced = e →
        [ElementExpr.embedded x].map ElementExpr.unplaced = [.embedded e] := by
      intro x hx
      rw [List.map_singleton, ElementExpr.unplaced, hx]
    rw [type_eq] at hread
    cases h with
    | bare name =>
      exact .map (yields_element_embedded (hafter.ne rfl) ((yields_ident_iff.1 hread).mono hmade))
    | qualified =>
      exact .map (yields_element_embedded (by simp) ((yields_ident_iff.1 hread).mono hmade))

theorem SpellsElement.exists_items {R : Spelling} (hR : ∀ ws ws' e, R ws ws' e → TypeReads ws e)
    {items items' : List (List Word)} {elements : List (ElementExpr TypeExpr)}
    (h : SpellsElement R items items' elements) :
    ∃ xss, List.Forall₂
      (ItemReads ((fun e ↦ [e]) <$> element type) ElementExpr.unplaced) items xss ∧
      xss.flatten = elements := by
  cases h with
  | method name h => exact ⟨[_], .cons (h.method hR name) .nil, rfl⟩
  | embedded h => exact ⟨[_], .cons h.embedded .nil, rfl⟩

end Elements

end Bodies

section Types

variable {R : Spelling} {ws ws' : List Word} {e : TypeExpr}

theorem yields_parens {p : Reader TypeExpr} {P : TypeExpr → Prop} {x y : String} {after : List Word}
    (h : Yields p (ws ++ (.rparen, y) :: after) ((.rparen, y) :: after) P) :
    Yields (typeOver p) ((.lparen, x) :: (ws ++ (.rparen, y) :: after)) after P := by
  intro c hc
  obtain ⟨t, rest, last, rfl, ht, hrest⟩ := exists_cons hc
  rw [typeOver_paren (congrArg Prod.fst ht)]
  exact (h.bind fun e he ↦ yields_expect_bind fun _ _ ↦ yields_pure he) _ hrest

theorem SpellsOver.opens (h : SpellsOver R ws ws' e) :
    ∃ w rest, ws = w :: rest ∧ opensType w.1 = true ∧
    (w.1 = .ident → ∀ x ∈ rest.head?, x.1 = .dot) := by
  cases h with
  | name h => exact h.typeReads.opens
  | _ => exact ⟨_, _, rfl, rfl, nofun⟩

theorem SpellsOver.reads (hR : ∀ ws ws' e, R ws ws' e → TypeReads ws e) (h : SpellsOver R ws ws' e)
    {after : List Word} (hafter : StopsType after) :
    Yields type (ws ++ after) after (·.unplaced = e) := by
  rw [type_eq]
  have hpart {ws ws' : List Word} {e : TypeExpr} {Q : TypeExpr → Prop} (h : R ws ws' e)
      (hQ : ∀ x, x.unplaced = e → Q x) :
      Yields type (ws ++ after) after Q := ((hR _ _ _ h).reads after hafter).mono hQ
  cases h with
  | name h =>
    have hreads := h.typeReads.reads after hafter
    rwa [type_eq] at hreads
  | pointer h => exact yields_star (hpart h fun x hx s ↦ by rw [TypeExpr.unplaced, hx])
  | slice h => exact yields_brackets (hpart h fun x hx s ↦ by rw [TypeExpr.unplaced, hx])
  | array hlength h =>
    exact yields_length hlength (hpart h fun x hx s ↦ by rw [TypeExpr.unplaced, hx])
  | map hk h =>
    rw [List.cons_append, List.cons_append, List.append_assoc, List.cons_append]
    exact yields_map ((hR _ _ _ hk).reads _ (stopsType_cons rfl _))
      (hpart h fun x hx k hk s ↦ by rw [TypeExpr.unplaced, hx, hk])
  | chan h hw hw' =>
    refine yields_chan ?_ (hpart h fun x hx s ↦ by rw [TypeExpr.unplaced, hx])
    obtain ⟨w, rest, rfl, -⟩ := (hR _ _ _ h).opens
    exact hw
  | send h => exact yields_chan_arrow (hpart h fun x hx s ↦ by rw [TypeExpr.unplaced, hx])
  | recv h => exact yields_arrow (hpart h fun x hx s ↦ by rw [TypeExpr.unplaced, hx])
  | func h =>
    exact yields_func ((h.yields hR hafter).mono fun sig hsig s ↦ by rw [TypeExpr.unplaced, hsig])
  | interface hws hws' h =>
    obtain ⟨xss, hitems, rfl⟩ := h.exists_items fun _ _ _ ↦ SpellsElement.exists_items hR
    simp only [List.cons_append, List.append_assoc, List.nil_append]
    refine yields_interface
      (yields_interfaceType
        (yields_bounded ((yields_body hws hitems ?_ after).mono fun xs hxs s ↦ ?_)))
    · rw [List.length_append]
      omega
    · rw [TypeExpr.unplaced, ElementExpr.allUnplaced_eq, hxs]
  | struct hws hws' h =>
    obtain ⟨xss, hitems, rfl⟩ := h.exists_items fun _ _ _ ↦ SpellsFields.exists_items hR
    simp only [List.cons_append, List.append_assoc, List.nil_append]
    refine yields_struct
      (yields_structType
        (yields_bounded ((yields_body hws hitems ?_ after).mono fun xs hxs s ↦ ?_)))
    · rw [List.length_append]
      omega
    · rw [TypeExpr.unplaced, FieldExpr.allUnplaced_eq, hxs]
  | parens h =>
    simp only [List.cons_append, List.append_assoc, List.nil_append]
    exact yields_parens ((hR _ _ _ h).reads _ (stopsType_cons rfl after))

theorem SpellsType.typeReads (h : SpellsType ws ws' e) : TypeReads ws e := by
  obtain ⟨n, h⟩ := h
  induction n generalizing ws ws' e with
  | zero => exact h.elim
  | succ n ih =>
    have h : SpellsOver (SpellsWithin n) ws ws' e := h
    exact ⟨h.opens, fun after hafter ↦ h.reads (fun _ _ _ ↦ ih) hafter⟩

end Types

end Understudy
