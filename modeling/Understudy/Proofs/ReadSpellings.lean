import Understudy.Proofs.RecoveredFiles
import Understudy.Proofs.SpelledTypes

namespace Understudy

open Reader

variable {α : Type} {c c' c₁ d : Cursor}

namespace Reader

/-- The words that are taken at `c` are as `S` says of what is made of them. -/
def SpelledAt (p : Reader α) (c : Cursor) (S : List Word → α → Prop) : Prop :=
  ∀ ⦃a c'⦄, p c = .done a c' → ∃ ws, c.words = ws ++ c'.words ∧ S ws a

def Spelled (p : Reader α) (S : List Word → α → Prop) : Prop := ∀ ⦃c⦄, SpelledAt p c S

end Reader

theorem Cursor.Takes.words {t : Token} (h : c.Takes t c₁) : c.words = t.word :: c₁.words := by
  rw [Cursor.words, h.tokens, List.map_cons, Cursor.words]

theorem Cursor.Takes.words_kind {t : Token} {kind : TokenKind} (h : c.Takes t c₁)
    (hkind : t.kind = kind) : c.words = (kind, t.text) :: c₁.words := by
  rw [h.words, Token.word, hkind]

theorem Cursor.TakesPerhaps.words {t? : Option Token} {kind : TokenKind}
    (h : c.TakesPerhaps kind t? c₁) :
    c.words = (t?.map (·.text)).toList.map (kind, ·) ++ c₁.words := by
  cases t? with
  | none =>
    cases h
    rfl
  | some t => exact h.1.words_kind h.2

theorem words_of_takes {t : Token} {kind : TokenKind} (h : c.Takes t c₁ ∧ t.kind = kind) :
    c.words = (kind, t.text) :: c₁.words := h.1.words_kind h.2

theorem words_of_expect {t : Token} {kind : TokenKind} {message : String}
    (h : expect kind message c = .done t c₁) : c.words = (kind, t.text) :: c₁.words :=
  words_of_takes (expect_eq_done.1 h)

theorem words_of_ident {w : String × Span} {message : String} (h : ident message c = .done w c₁) :
    c.words = (.ident, w.1) :: c₁.words := by
  obtain ⟨t, ht, hkind, rfl⟩ := ident_eq_done.1 h
  exact ht.words_kind hkind

theorem Cursor.forall_head?_words {P : TokenKind → Prop} {ws after : List Word}
    (h : c.words = ws ++ after) (hP : ∀ t ∈ c.tokens.head?, P t.kind) : ∀ w ∈ ws.head?, P w.1 := by
  cases ws with
  | nil => exact nofun
  | cons w rest =>
    obtain ⟨t, ts, last, rfl, rfl, -⟩ := exists_cons h
    rintro _ ⟨⟩
    exact hP t rfl

section Items

theorem endsItem_of_terminator {what : String} (h : terminator what c = .done () d) :
    EndsItem c.words d.words := by
  rw [terminator, bind_eq_done] at h
  obtain ⟨taken, c₁, heat, h⟩ := h
  obtain ⟨rfl, t, ht, hkind⟩ | ⟨rfl, rfl, -⟩ := eat_eq_done heat
  · cases h
    rw [ht.words]
    exact .semicolon hkind _
  · rw [if_neg Bool.false_ne_true, bind_cursor] at h
    obtain ⟨hcloses, h⟩ | ⟨-, h⟩ := ite_eq_done h
    · cases h
      refine .closing fun w hw ↦ ?_
      cases hwords : d.words with
      | nil => simp [hwords] at hw
      | cons x rest =>
        obtain rfl : x = w := by simpa [hwords] using hw
        obtain ⟨kind, text⟩ := x
        rw [Cursor.isAt_eq hwords, Cursor.isAt_eq hwords, Cursor.isAt_eq hwords] at hcloses
        cases kind <;> first | rfl | cases hcloses
    · cases h

/-- An item begins with a word that closes nothing. -/
def BeginsItem (item : List Word) : Prop := ∃ w rest, item = w :: rest ∧ closesItems w.1 = false

/-- Items are taken from cursor to cursor, each with its end. -/
inductive TakesItems : Cursor → List (List Word) → Cursor → Prop
  | nil (c : Cursor) : TakesItems c [] c
  | cons {c c₁ c₂ d : Cursor} {item : List Word} {items : List (List Word)}
      (hwords : c.skipped.words = item ++ c₁.words) (hbegins : BeginsItem item)
      (hend : EndsItem c₁.words c₂.words) (h : TakesItems c₂ items d) :
      TakesItems c (item :: items) d

theorem TakesItems.append {items others : List (List Word)} (h : TakesItems c items c₁)
    (h' : TakesItems c₁ others d) : TakesItems c (items ++ others) d := by
  induction h with
  | nil => exact h'
  | cons hwords hbegins hend _ ih => exact .cons hwords hbegins hend (ih h')

theorem words_skipped (c : Cursor) :
    ∃ skipped, c.words = skipped ++ c.skipped.words ∧ ∀ w ∈ skipped, w.1 = .semicolon := by
  obtain ⟨tokens, last⟩ := c
  induction tokens generalizing last with
  | nil => exact ⟨[], rfl, List.forall_mem_nil _⟩
  | cons t rest ih =>
    rw [Cursor.skipped, Cursor.skipSemicolons]
    split
    · rename_i hkind
      obtain ⟨skipped, hwords, hskipped⟩ := ih t.span.stop
      exact ⟨t.word :: skipped, congrArg _ hwords, List.forall_mem_cons.2 ⟨hkind, hskipped⟩⟩
    · exact ⟨[], rfl, List.forall_mem_nil _⟩

theorem Ended.skips {skipped ws : List Word} {items : List (List Word)}
    (hskipped : ∀ w ∈ skipped, w.1 = .semicolon) (h : Ended items ws) :
    Ended items (skipped ++ ws) := by
  induction skipped with
  | nil => exact h
  | cons w skipped ih =>
    obtain ⟨hw, hrest⟩ := List.forall_mem_cons.1 hskipped
    exact .skip hw (ih hrest)

/-- Without a semicolon behind it an item is the last one, for what comes next closes the list. -/
theorem TakesItems.ended {items : List (List Word)} (h : TakesItems c items d) :
    ∃ ws, c.words = ws ++ d.skipped.words ∧ Ended items ws := by
  induction h with
  | nil c =>
    obtain ⟨skipped, hwords, hskipped⟩ := words_skipped c
    have hended := Ended.nil.skips hskipped
    rw [List.append_nil] at hended
    exact ⟨skipped, hwords, hended⟩
  | @cons c c₁ c₂ d item items hwords hbegins hend h ih =>
    obtain ⟨skipped, hfront, hskipped⟩ := words_skipped c
    obtain ⟨us, hus, hended⟩ := ih
    rw [hwords] at hfront
    generalize hc₁ : c₁.words = before at hend hfront
    generalize hc₂ : c₂.words = behind at hend
    cases hend with
    | semicolon hw =>
      refine ⟨skipped ++ (item ++ _ :: us), ?_, (Ended.cons item hw hended).skips hskipped⟩
      rw [hfront, ← hc₂, hus]
      simp only [List.append_assoc, List.cons_append]
    | closing hcloses =>
      have hskip : c₂.skipped = c₂ := by
        refine skipSemicolons_of_ne _ (Cursor.head?_tokens_ne hc₂ fun w hw hk ↦ ?_)
        simpa [hk, closesItems] using hcloses w hw
      cases h with
      | nil =>
        exact ⟨skipped ++ item,
          by rw [hfront, hskip, hc₂, List.append_assoc], (Ended.last item).skips hskipped⟩
      | cons hlater hbegins' =>
        obtain ⟨w, rest, rfl, hw⟩ := hbegins'
        rw [hskip, hc₂] at hlater
        simp [hcloses w (by rw [hlater]; rfl)] at hw

theorem takesItems_of_body {what : String} {item : Reader (List α)} {P : List Word → List α → Prop}
    (hitem : Spelled item fun ws xs ↦ BeginsItem ws ∧ P ws xs) {m : Nat} {xs : List α}
    (h : bodyItems what item m c = .done xs c') :
    ∃ items xss d, TakesItems c items d ∧ d.skipped = c' ∧
      List.Forall₂ P items xss ∧ xss.flatten = xs := by
  induction m generalizing c xs with
  | zero => cases h
  | succ m ih =>
    rw [bodyItems, bind_done (show skipSemicolons c = .done () c.skipped from rfl),
      bind_cursor] at h
    obtain ⟨-, h⟩ | ⟨-, h⟩ := ite_eq_done h
    · cases h
      exact ⟨[], [], c, .nil c, rfl, .nil, rfl⟩
    · simp only [bind_eq_done, pure_eq_done] at h
      obtain ⟨first, c₁, hfirst, _, c₂, hend, later, c₃, hlater, rfl, rfl⟩ := h
      obtain ⟨ws, hwords, hbegins, hP⟩ := hitem hfirst
      obtain ⟨items, xss, d, htakes, hskip, hall, rfl⟩ := ih hlater
      exact ⟨ws :: items, first :: xss, d,
        .cons hwords hbegins (endsItem_of_terminator hend) htakes, hskip, .cons hP hall, rfl⟩

theorem InParts.of_forall₂ {ι β : Type} {P : List ι → List ι → List β → Prop} {items : List ι}
    {xss : List (List β)} (h : List.Forall₂ (fun i xs ↦ P [i] [i] xs) items xss) :
    InParts P items items xss.flatten := by
  induction h with
  | nil => exact .nil
  | cons h _ ih => exact .cons h ih

end Items

section Types

variable {p : Reader TypeExpr} {R : Spelling}
  (hp : Spelled p fun ws e ↦ R ws ws e.unplaced) (hne : ∀ ws e, R ws ws e → ws ≠ [])

theorem Reader.NameRead.spelled {e : TypeExpr} (h : NameRead c c' e) :
    ∃ ws, c.words = ws ++ c'.words ∧ SpellsName ws e.unplaced := by
  cases h with
  | bare ht => exact ⟨[_], words_of_takes ht, .bare _⟩
  | @qualified t d i _ _ ht hd hi =>
    refine ⟨[(.ident, t.text), (.dot, d.text), (.ident, i.text)], ?_, .qualified t.text i.text⟩
    rw [words_of_takes ht, words_of_takes hd, words_of_takes hi]
    rfl

theorem Reader.BracesRead.spelled {word : TokenKind} {body : Reader α} {a : α} {s : Span}
    {S : List Word → α → Prop} (h : BracesRead word body c c' a s) (hbody : Spelled body S) :
    ∃ x y z ws, c.words = (word, x) :: (.lbrace, y) :: (ws ++ [(.rbrace, z)]) ++ c'.words ∧
    S ws a := by
  cases h with
  | @mk t b d _ _ _ _ ht hb ha hd =>
    obtain ⟨ws, hwords, hS⟩ := hbody ha
    refine ⟨t.text, b.text, d.text, ws, ?_, hS⟩
    rw [words_of_takes ht, words_of_takes hb, hwords, words_of_takes hd]
    simp only [List.cons_append, List.append_assoc, List.nil_append]

include hp

theorem spelled_paramEntry {x : ParamExpr TypeExpr} (h : paramEntry p c = .done x c') :
    ∃ e : EntrySpelling, c.words = e.words ++ c'.words ∧ e.Means R x := by
  obtain ⟨name, ellipsis, c₁, c₂, hname, hellipsis, htype, hx, hvariadic⟩ := paramEntry_eq_done h
  obtain ⟨ws, hws, hR⟩ := hp htype
  refine ⟨⟨name.map (·.text), ellipsis.map (·.text), ws⟩, ?_,
    ⟨hR, hx, by rw [hvariadic, Option.isSome_map]⟩⟩
  rw [hname.words, hellipsis.words, hws, EntrySpelling.words]
  simp only [List.append_assoc]

theorem spelled_entries {xs : List (ParamExpr TypeExpr)} (h : EntriesRead p c xs c') :
    ∃ es ws, c.words = ws ++ c'.words ∧ EntryList es ws ∧
    List.Forall₂ (EntrySpelling.Means R) es xs := by
  induction h with
  | nil c => exact ⟨[], [], rfl, .nil, .nil⟩
  | last hx =>
    obtain ⟨e, hwords, he⟩ := spelled_paramEntry hp hx
    exact ⟨[e], e.words, hwords, .last e, .cons he .nil⟩
  | @cons c c₁ c₂ c' x xs comma hx hcomma hkind _ ih =>
    obtain ⟨e, hwords, he⟩ := spelled_paramEntry hp hx
    obtain ⟨es, ws, hrest, hlist, hmeans⟩ := ih
    refine ⟨e :: es, e.words ++ (.comma, comma.text) :: ws, ?_, .cons e hlist, .cons he hmeans⟩
    rw [hwords, hcomma.words_kind hkind, hrest, List.append_assoc, List.cons_append]

theorem spelled_params :
    Spelled (params p) fun ws ps ↦ SpellsParams R ws ws (ps.map ParamExpr.unplaced) := by
  intro c ps c' h
  obtain ⟨xs, hxs, hgroup⟩ := params_eq_done h
  obtain ⟨opening, c₁, c₂, closing, hopen, hlparen, hentries, hclose, hrparen⟩ :=
    entryList_eq_done hxs
  obtain ⟨es, ws, hwords, hlist, hmeans⟩ := spelled_entries hp hentries
  refine ⟨(.lparen, opening.text) :: (ws ++ [(.rparen, closing.text)]), ?_,
    .mk hlist hlist (spellsEntries_of_groupParams hmeans hgroup)⟩
  rw [hopen.words_kind hlparen, hwords, hclose.words_kind hrparen]
  simp only [List.cons_append, List.append_assoc, List.nil_append]

theorem Reader.ResultsRead.spelled {rs : List (ParamExpr TypeExpr)} (h : ResultsRead p c c' rs)
    (hlast : rs.find? (·.variadic) = none) :
    ∃ ws, c.words = ws ++ c'.words ∧ SpellsResults R ws ws (rs.map ParamExpr.unplaced) := by
  cases h with
  | list h =>
    obtain ⟨ws, hwords, hparams⟩ := spelled_params hp h
    refine ⟨ws, hwords, .list hparams ?_⟩
    simpa [ParamExpr.unplaced] using hlast
  | single hstarts h =>
    obtain ⟨ws, hwords, hR⟩ := hp h
    have hhead : ∀ w ∈ ws.head?, startsType w.1 = true :=
      Cursor.forall_head?_words (P := (startsType · = true)) hwords hstarts
    exact ⟨ws, hwords, .single hR hhead hhead⟩
  | empty h => exact ⟨[], h ▸ rfl, .none⟩

theorem spelled_signature :
    Spelled (signature p) fun ws sig ↦ SpellsSignature R ws ws sig.unplaced := by
  intro c sig c' h
  obtain ⟨c₁, hin, hout, hlast⟩ := signature_eq_done h
  obtain ⟨us, hus, hparams⟩ := spelled_params hp hin
  obtain ⟨vs, hvs, hresults⟩ := hout.spelled hp hlast
  obtain ⟨inputs, outputs, s⟩ := sig
  have hspells := SpellsSignature.mk hparams hresults
  rw [← SignatureExpr.unplaced_mk _ _ s] at hspells
  exact ⟨us ++ vs, by rw [hus, hvs, List.append_assoc], hspells⟩

theorem spelled_element : Spelled ((fun e ↦ [e]) <$> element p) fun ws es ↦
    BeginsItem ws ∧ SpellsElement R [ws] [ws] (es.map ElementExpr.unplaced) := by
  intro c es c' h
  obtain ⟨e, he, rfl⟩ := map_eq_done.1 h
  rw [element, bind_cursor] at he
  obtain ⟨-, he⟩ | ⟨-, he⟩ := ite_eq_done he
  · simp only [bind_eq_done, pure_eq_done] at he
    obtain ⟨name, c₁, hname, sig, c₂, hsig, s, c₃, hs, rfl, rfl⟩ := he
    obtain ⟨-, rfl⟩ := join_eq_done hs
    obtain ⟨ws, hwords, hspells⟩ := spelled_signature hp hsig
    exact ⟨(.ident, name.1) :: ws,
      by rw [words_of_ident hname, hwords, List.cons_append], ⟨_, _, rfl, rfl⟩,
      .method name.1 hspells⟩
  · obtain ⟨-, he⟩ | ⟨-, he⟩ := ite_eq_done he
    · simp only [bind_eq_done, pure_eq_done] at he
      obtain ⟨type, c₁, hname, rfl, rfl⟩ := he
      obtain ⟨ws, hwords, hspells⟩ := (nameRead_of_typeName hname).spelled
      have hbegins : BeginsItem ws := by
        generalize type.unplaced = e at hspells
        cases hspells <;> exact ⟨_, _, rfl, rfl⟩
      exact ⟨ws, hwords, hbegins, .embedded hspells⟩
    · cases he

section Fields

omit hp in
theorem spelled_fieldNames {m : Nat} : Spelled (fieldNames m) fun ws names ↦
    ∀ first, NameList (first :: names.map (·.1)) ((.ident, first) :: ws) := by
  intro c names c' h
  induction m generalizing c names with
  | zero => cases h
  | succ m ih =>
    rw [fieldNames, bind_eq_done] at h
    obtain ⟨comma, c₁, hcomma, h⟩ := h
    obtain ⟨rfl, t, ht, hkind⟩ | ⟨rfl, rfl, -⟩ := eat_eq_done hcomma
    · simp only [if_true, bind_eq_done, pure_eq_done] at h
      obtain ⟨name, c₂, hname, later, c₃, hlater, rfl, rfl⟩ := h
      obtain ⟨ws, hwords, hnames⟩ := ih hlater
      refine ⟨(.comma, t.text) :: (.ident, name.1) :: ws, ?_,
        fun first ↦ .cons first (hnames name.1)⟩
      rw [ht.words_kind hkind, words_of_ident hname, hwords]
      rfl
    · cases h
      exact ⟨[], rfl, fun first ↦ .last first⟩

omit hp in
theorem unplaced_namedFields {type : TypeExpr} {names : List (String × Span)}
    {fields : List (FieldExpr TypeExpr)} (h : namedFields type names c = .done fields c') : c' = c ∧
      fields.map FieldExpr.unplaced =
        (names.map (·.1)).map (⟨some ·, type.unplaced, .nowhere⟩) := by
  induction names generalizing c fields with
  | nil =>
    obtain ⟨rfl, rfl⟩ := pure_eq_done.1 h
    exact ⟨rfl, rfl⟩
  | cons w rest ih =>
    simp only [namedFields, bind_eq_done, pure_eq_done] at h
    obtain ⟨s, c₁, hs, later, c₂, hlater, rfl, rfl⟩ := h
    obtain ⟨-, rfl⟩ := join_eq_done hs
    obtain ⟨rfl, hall⟩ := ih hlater
    exact ⟨rfl, congrArg _ hall⟩

omit hp in
theorem words_of_tag {fields fs : List (FieldExpr TypeExpr)}
    (h : (eat .str >>= fun _ ↦ pure fs : Reader _) c = .done fields c') :
    fields = fs ∧ ∃ tag, c.words = tagWords tag ++ c'.words := by
  simp only [bind_eq_done, pure_eq_done] at h
  obtain ⟨_, c₁, htag, rfl, rfl⟩ := h
  obtain ⟨tag, htag, -⟩ := eat_takesPerhaps htag
  exact ⟨rfl, tag.map Token.text, htag.words⟩

include hne

theorem spelled_fieldGroup : Spelled (fieldGroup p) fun ws fields ↦
    BeginsItem ws ∧ SpellsFields R [ws] [ws] (fields.map FieldExpr.unplaced) := by
  intro c fields c' h
  rw [fieldGroup, bind_cursor] at h
  obtain ⟨hbare, h⟩ | ⟨-, h⟩ := ite_eq_done h
  · simp only [pure_bind] at h
    obtain ⟨e, c₁, he, h⟩ := bind_eq_done.1 h
    obtain ⟨rfl, tag, htag⟩ := words_of_tag h
    obtain ⟨ws, hwords, hR⟩ := hp he
    obtain ⟨w, rest, rfl⟩ := List.exists_cons_of_ne_nil (hne _ _ hR)
    have hkind : w.1 = .star ∨ w.1 = .ident := by
      rw [Cursor.isAt_eq hwords, Cursor.isAt_eq hwords] at hbare
      simp only [Bool.or_eq_true, Bool.and_eq_true, beq_iff_eq] at hbare
      exact hbare.imp_right And.left
    have hstarts : StartsEmbedded (w :: rest) := by
      rintro _ ⟨⟩
      exact hkind
    refine ⟨w :: rest ++ tagWords tag, by rw [hwords, htag, List.append_assoc], ⟨w, _, rfl, ?_⟩,
      .embedded tag tag hR hstarts hstarts⟩
    rcases hkind with hkind | hkind <;> rw [hkind] <;> rfl
  · obtain ⟨first, c₁, hfirst, h⟩ := bind_eq_done.1 h
    obtain ⟨names, c₂, hnames, h⟩ := bind_eq_done.1 h
    obtain ⟨e, c₃, he, h⟩ := bind_eq_done.1 h
    obtain ⟨made, c₄, hmade, h⟩ := bind_eq_done.1 h
    obtain ⟨rfl, tag, htag⟩ := words_of_tag h
    obtain ⟨rfl, hfields⟩ := unplaced_namedFields hmade
    obtain ⟨ns, hns, hlist⟩ := spelled_fieldNames hnames
    obtain ⟨ws, hwords, hR⟩ := hp he
    refine ⟨(.ident, first.1) :: (ns ++ (ws ++ tagWords tag)), ?_, ⟨_, _, rfl, rfl⟩, ?_⟩
    · rw [words_of_ident hfirst, hns, hwords, htag]
      simp only [List.cons_append, List.append_assoc]
    · have hgroup := fieldGroups_grouped (t := ws) (hlist first.1) tag
      rw [hfields]
      exact .named hgroup hgroup (by simpa using hR)

end Fields

section Over

theorem spelled_elements :
    Spelled (bounded (bodyItems "interface element" ((fun e ↦ [e]) <$> element p)))
    fun ws es ↦ ∃ items, Ended items ws ∧
    InParts (SpellsElement R) items items (ElementExpr.allUnplaced es) := by
  intro c es c' h
  obtain ⟨items, xss, d, htakes, rfl, hall, rfl⟩ := takesItems_of_body (spelled_element hp) h
  obtain ⟨ws, hwords, hended⟩ := htakes.ended
  refine ⟨ws, hwords, items, hended, ?_⟩
  rw [ElementExpr.allUnplaced_eq, List.map_flatten]
  exact .of_forall₂ (List.forall₂_map_right_iff.2 hall)

include hne

theorem spelled_fields : Spelled (bounded (bodyItems "struct field" (fieldGroup p)))
    fun ws fs ↦ ∃ items, Ended items ws ∧
    InParts (SpellsFields R) items items (FieldExpr.allUnplaced fs) := by
  intro c fs c' h
  obtain ⟨items, xss, d, htakes, rfl, hall, rfl⟩ := takesItems_of_body (spelled_fieldGroup hp hne) h
  obtain ⟨ws, hwords, hended⟩ := htakes.ended
  refine ⟨ws, hwords, items, hended, ?_⟩
  rw [FieldExpr.allUnplaced_eq, List.map_flatten]
  exact .of_forall₂ (List.forall₂_map_right_iff.2 hall)

theorem spelled_typeOver : Spelled (typeOver p) fun ws e ↦ SpellsOver R ws ws e.unplaced := by
  intro c e c' h
  cases typeRead_of_typeOver h with
  | name hname =>
    obtain ⟨ws, hwords, hspells⟩ := hname.spelled
    exact ⟨ws, hwords, .name hspells⟩
  | pointer ht helem =>
    obtain ⟨ws, hwords, hR⟩ := hp helem
    exact ⟨_ :: ws, by rw [words_of_takes ht, hwords, List.cons_append], .pointer hR⟩
  | slice ht hb helem =>
    obtain ⟨ws, hwords, hR⟩ := hp helem
    exact ⟨_ :: _ :: ws, by rw [words_of_takes ht, words_of_takes hb, hwords]; rfl, .slice hR⟩
  | @array t n b _ _ _ _ _ ht hn hlength hb helem =>
    obtain ⟨ws, hwords, hR⟩ := hp helem
    refine ⟨(.lbracket, t.text) :: (.int, n.text) :: (.rbracket, b.text) :: ws, ?_,
      .array hlength hR⟩
    rw [words_of_takes ht, words_of_takes hn, words_of_takes hb, hwords]
    rfl
  | @map t b d _ _ _ _ _ _ ht hb hkey hd helem =>
    obtain ⟨ks, hks, hK⟩ := hp hkey
    obtain ⟨ws, hwords, hR⟩ := hp helem
    refine ⟨(.mapWord, t.text) :: (.lbracket, b.text) :: (ks ++ (.rbracket, d.text) :: ws),
      ?_, .map hK hR⟩
    rw [words_of_takes ht, words_of_takes hb, hks, words_of_takes hd, hwords]
    simp only [List.cons_append, List.append_assoc]
  | chan ht hne helem =>
    obtain ⟨ws, hwords, hR⟩ := hp helem
    have hhead : ∀ w ∈ ws.head?, w.1 ≠ .arrow :=
      Cursor.forall_head?_words (P := (· ≠ .arrow)) hwords hne
    exact ⟨_ :: ws, by rw [words_of_takes ht, hwords, List.cons_append], .chan hR hhead hhead⟩
  | send ht hb helem =>
    obtain ⟨ws, hwords, hR⟩ := hp helem
    exact ⟨_ :: _ :: ws, by rw [words_of_takes ht, words_of_takes hb, hwords]; rfl, .send hR⟩
  | recv ht hb helem =>
    obtain ⟨ws, hwords, hR⟩ := hp helem
    exact ⟨_ :: _ :: ws, by rw [words_of_takes ht, words_of_takes hb, hwords]; rfl, .recv hR⟩
  | func ht helem =>
    obtain ⟨ws, hwords, hspells⟩ := spelled_signature hp helem
    exact ⟨_ :: ws, by rw [words_of_takes ht, hwords, List.cons_append], .func hspells⟩
  | interface hbraces =>
    obtain ⟨x, y, z, ws, hwords, items, hended, hparts⟩ := hbraces.spelled (spelled_elements hp)
    exact ⟨_, hwords, .interface hended hended hparts⟩
  | struct hbraces =>
    obtain ⟨x, y, z, ws, hwords, items, hended, hparts⟩ := hbraces.spelled (spelled_fields hp hne)
    exact ⟨_, hwords, .struct hended hended hparts⟩
  | @parens t b _ _ _ ht helem hb =>
    obtain ⟨ws, hwords, hR⟩ := hp helem
    refine ⟨(.lparen, t.text) :: (ws ++ [(.rparen, b.text)]), ?_, .parens hR⟩
    rw [words_of_takes ht, hwords, words_of_takes hb]
    simp only [List.append_assoc, List.cons_append, List.nil_append]

end Over

omit hp hne

theorem SpellsWithin.ne_nil {n : Nat} {ws ws' : List Word} {e : TypeExpr}
    (h : SpellsWithin n ws ws' e) : ws ≠ [] := by
  cases n with
  | zero => exact h.elim
  | succ n =>
    obtain ⟨w, rest, rfl, -⟩ := SpellsOver.opens h
    exact List.cons_ne_nil w rest

/-- The words that a type is read from spell it. -/
theorem spelled_typeWithin (n : Nat) :
    Spelled (typeWithin n) fun ws e ↦ SpellsWithin n ws ws e.unplaced := by
  induction n with
  | zero => exact nofun
  | succ n ih => exact spelled_typeOver ih fun _ _ ↦ SpellsWithin.ne_nil

theorem spelled_type : Spelled type fun ws e ↦ SpellsType ws ws e.unplaced := by
  intro c e c' h
  obtain ⟨ws, hwords, hspells⟩ := spelled_typeWithin _ h
  exact ⟨ws, hwords, _, hspells⟩

end Types

end Understudy
