import Understudy.Proofs.TextWords
import Understudy.Proofs.ReaderRuns
import Understudy.Proofs.TypeReading

namespace Understudy

def Cursor.words (c : Cursor) : List Word := c.tokens.map Token.word

namespace Cursor

variable {c : Cursor} {w : Word} {ws : List Word}

theorem length_words (c : Cursor) : c.words.length = c.tokens.length := List.length_map _

theorem isAt_eq (h : c.words = w :: ws) (kind : TokenKind) : c.isAt kind = (w.1 == kind) := by
  obtain ⟨t, rest, ht, rfl, -⟩ := List.map_eq_cons_iff.1 h
  simp [Cursor.isAt, ht, Token.word]

theorem any_head?_tokens (h : c.words = w :: ws) (f : TokenKind → Bool) :
    c.tokens.head?.any (fun t ↦ f t.kind) = f w.1 := by
  obtain ⟨t, rest, ht, rfl, -⟩ := List.map_eq_cons_iff.1 h
  simp [ht, Token.word]

theorem head?_tokens_ne {kind : TokenKind} (h : c.words = ws) (hne : ∀ w ∈ ws.head?, w.1 ≠ kind) :
    ∀ t ∈ c.tokens.head?, t.kind ≠ kind := by
  intro t ht
  refine hne t.word ?_
  rw [← h, Cursor.words, List.head?_map]
  exact Option.mem_map_of_mem _ ht

theorem following?_eq (h : c.words = w :: ws) : c.following? = ws.head?.map (·.1) := by
  obtain ⟨t, rest, ht, -, rfl⟩ := List.map_eq_cons_iff.1 h
  cases rest <;> simp [Cursor.following?, ht, Token.word]

end Cursor

namespace Ty

def leads : Ty → TokenKind
  | .basic _ | .named _ => .ident
  | .pointer _ => .star
  | .slice _ | .array _ _ => .lbracket
  | .map _ _ => .mapWord
  | .chan .recv _ => .arrow
  | .chan _ _ => .chanWord
  | .interface _ _ => .interfaceWord
  | .signature _ => .funcWord
  | .struct _ => .structWord

theorem startsType_leads (t : Ty) : Reader.startsType t.leads = true := by
  unfold leads
  split <;> rfl

theorem leads_ne {t : Ty} {kind : TokenKind} (h : Reader.startsType kind = false) :
    t.leads ≠ kind := by
  rintro rfl
  simp [startsType_leads] at h

theorem leads_eq_arrow {t : Ty} (h : t.leads = .arrow) : ∃ elem, t = .chan .recv elem := by
  unfold leads at h
  split at h <;> first | exact ⟨_, rfl⟩ | cases h

theorem words_leads {q : TypeName → Option String} {t : Ty} (ht : t.MadeOf (Spellable q)) :
    ∃ text rest, t.words q = (t.leads, text) :: rest := by
  cases ht with
  | basic kind => exact ⟨_, _, words_basic ..⟩
  | @named name h =>
    cases hq : q name with
    | none => exact ⟨_, _, words_bare q hq⟩
    | some qualifier => exact ⟨_, _, words_qualified q hq⟩
  | pointer h => exact ⟨_, _, words_pointer ..⟩
  | slice h => exact ⟨_, _, words_slice ..⟩
  | array length h => exact ⟨_, _, words_array ..⟩
  | map hk h => exact ⟨_, _, words_map ..⟩
  | chan dir h => cases dir <;> exact ⟨_, _, rfl⟩

theorem exists_succ_of_words {q : TypeName → Option String} {t : Ty} (ht : t.MadeOf (Spellable q))
    {n : Nat} (h : (t.words q).length ≤ n) : ∃ m, n = m + 1 := by
  obtain ⟨text, rest, hwords⟩ := words_leads ht
  rw [hwords, List.length_cons] at h
  exact ⟨n - 1, by omega⟩

end Ty

namespace Reader

variable {α β : Type} {p : Reader α} {before middle after ws : List Word} {P : α → Prop}
    {Q : β → Prop} {kind : TokenKind} {text message : String}

/-- From tokens with the words `before` the reader comes to those with the words `after` and returns
what `P` describes, unless a stretch is reversed. -/
def Yields (p : Reader α) (before after : List Word) (P : α → Prop) : Prop :=
  ∀ c : Cursor, c.words = before → p c = .fault .reversedSpan ∨
    ∃ a c', p c = .done a c' ∧ c'.words = after ∧ P a

theorem Yields.mono {P' : α → Prop} (h : Yields p before after P) (hP : ∀ a, P a → P' a) :
    Yields p before after P' := by
  intro c hc
  obtain hfault | ⟨a, c', hdone, hc', ha⟩ := h c hc
  · exact .inl hfault
  · exact .inr ⟨a, c', hdone, hc', hP a ha⟩

theorem yields_pure {a : α} (h : P a) : Yields (pure a) ws ws P :=
  fun c hc ↦ .inr ⟨a, c, rfl, hc, h⟩

theorem Yields.bind {f : α → Reader β} (hp : Yields p before middle P)
    (hf : ∀ a, P a → Yields (f a) middle after Q) : Yields (p >>= f) before after Q := by
  intro c hc
  obtain hfault | ⟨a, c', hdone, hc', ha⟩ := hp c hc
  · left
    rw [bind_apply, hfault]
  · rw [bind_done hdone]
    exact hf a ha c' hc'

theorem Yields.map {f : α → β} (h : Yields p before after fun a ↦ Q (f a)) :
    Yields (f <$> p) before after Q := by
  rw [← bind_pure_comp]
  exact h.bind fun a ha ↦ yields_pure ha

theorem Yields.attempt (h : Yields p before after P) :
    Yields (Reader.attempt p) before after fun r ↦ ∃ a, r = .ok a ∧ P a := by
  intro c hc
  obtain hfault | ⟨a, c', hdone, hc', ha⟩ := h c hc
  · left
    rw [Reader.attempt, hfault]
  · exact .inr ⟨.ok a, c', attempt_done hdone, hc', a, rfl, ha⟩

theorem yields_if_pos {p' : Reader α} {b : Bool} (hb : b = true) (h : Yields p before after P) :
    Yields (if b then p else p') before after P := by
  rwa [if_pos hb]

theorem yields_if_neg {p' : Reader α} {b : Bool} (hb : b = false) (h : Yields p' before after P) :
    Yields (if b then p else p') before after P := by
  rwa [hb, if_neg Bool.false_ne_true]

theorem yields_bounded {p : Nat → Reader α} (h : Yields (p (before.length + 1)) before after P) :
    Yields (bounded p) before after P := by
  intro c hc
  rw [bounded, ← c.length_words, hc]
  exact h c hc

theorem yields_cursor_bind {f : Cursor → Reader β}
    (h : ∀ c : Cursor, c.words = before → Yields (f c) before after Q) :
    Yields (cursor >>= f) before after Q := fun c hc ↦ h c hc c hc

theorem exists_cons {c : Cursor} {w : Word} (h : c.words = w :: ws) :
    ∃ t rest last, c = ⟨t :: rest, last⟩ ∧ t.word = w ∧ Cursor.words ⟨rest, t.span.stop⟩ = ws := by
  obtain ⟨tokens, last⟩ := c
  obtain ⟨t, rest, rfl, ht, hrest⟩ := List.map_eq_cons_iff.1 h
  exact ⟨t, rest, last, rfl, ht, hrest⟩

theorem yields_expect_bind {f : Token → Reader β}
    (h : ∀ t : Token, t.word = (kind, text) → Yields (f t) ws after Q) :
    Yields (expect kind message >>= f) ((kind, text) :: ws) after Q := by
  intro c hc
  obtain ⟨t, rest, last, rfl, ht, hrest⟩ := exists_cons hc
  rw [bind_done (expect_cons (congrArg Prod.fst ht) message)]
  exact h t ht _ hrest

theorem yields_ident_bind {f : String × Span → Reader β}
    (h : ∀ span, Yields (f (text, span)) ws after Q) :
    Yields (ident message >>= f) ((.ident, text) :: ws) after Q := by
  intro c hc
  obtain ⟨t, rest, last, rfl, ht, hrest⟩ := exists_cons hc
  obtain ⟨hk, rfl⟩ := Prod.mk.inj ht
  rw [bind_done (ident_cons hk message)]
  exact h t.span _ hrest

theorem yields_eat_bind {f : Bool → Reader β} (h : Yields (f true) ws after Q) :
    Yields (eat kind >>= f) ((kind, text) :: ws) after Q := by
  intro c hc
  obtain ⟨t, rest, last, rfl, ht, hrest⟩ := exists_cons hc
  rw [bind_done (eat_cons (congrArg Prod.fst ht))]
  exact h _ hrest

theorem yields_eat_other {f : Bool → Reader β} (hne : ∀ w ∈ ws.head?, w.1 ≠ kind)
    (h : Yields (f false) ws after Q) : Yields (eat kind >>= f) ws after Q := by
  intro c hc
  have heat : eat kind c = .done false c := eat_of_head? (Cursor.head?_tokens_ne hc hne)
  rw [bind_done heat]
  exact h c hc

theorem yields_range_bind {f : Span → Reader β} {start stop : Nat}
    (h : ∀ span, Yields (f span) ws after Q) : Yields (range start stop >>= f) ws after Q := by
  intro c hc
  by_cases hle : start ≤ stop
  · rw [bind_done (range_of_le hle c)]
    exact h _ c hc
  · left
    have hfault : range start stop = fault .reversedSpan := by simp [range, Span.between?, hle]
    rw [hfault]
    rfl

theorem yields_join_bind {f : Span → Reader β} {s t : Span}
    (h : ∀ span, Yields (f span) ws after Q) : Yields (join s t >>= f) ws after Q :=
  yields_range_bind h

theorem yields_terminator {what : String} :
    Yields (terminator what) ((.semicolon, text) :: ws) ws fun _ ↦ True :=
  yields_eat_bind (yields_pure trivial)

def closesItems : TokenKind → Bool
  | .rparen | .rbrace | .eof => true
  | _ => false

/-- Where an item ends: a semicolon is passed over, or what stands next closes the list around
it. -/
inductive EndsItem : List Word → List Word → Prop
  | semicolon {w : Word} (hw : w.1 = .semicolon) (rest : List Word) : EndsItem (w :: rest) rest
  | closing {rest : List Word} (h : ∀ w ∈ rest.head?, closesItems w.1 = true) : EndsItem rest rest

theorem EndsItem.yields {what : String} (h : EndsItem ws after) :
    Yields (terminator what) ws after fun _ ↦ True := by
  cases h with
  | @semicolon w hw =>
    obtain ⟨kind, text⟩ := w
    obtain rfl : kind = .semicolon := hw
    exact yields_terminator
  | closing h =>
    refine yields_eat_other ?_
      (yields_cursor_bind fun c hc ↦ yields_if_pos ?_ (yields_pure trivial))
    · rintro w hw hkind
      simpa [hkind, closesItems] using h w hw
    · cases after with
      | nil =>
        obtain ⟨tokens, last⟩ := c
        obtain rfl : tokens = [] := List.map_eq_nil_iff.1 hc
        rfl
      | cons w rest =>
        have hw := h w rfl
        obtain ⟨kind, text⟩ := w
        rw [Cursor.isAt_eq hc, Cursor.isAt_eq hc, Cursor.isAt_eq hc]
        cases kind <;> first | rfl | cases hw

theorem yields_terminator_rbrace {what : String} :
    Yields (terminator what) ((.rbrace, text) :: ws) ((.rbrace, text) :: ws) fun _ ↦ True :=
  (EndsItem.closing (by simp [closesItems])).yields

theorem yields_skipSemicolons_bind {f : Unit → Reader β} (hne : ∀ w ∈ ws.head?, w.1 ≠ .semicolon)
    (h : Yields (f ()) ws after Q) : Yields (skipSemicolons >>= f) ws after Q := by
  intro c hc
  have hskip : skipSemicolons c = .done () c :=
    skipSemicolons_of_head? (Cursor.head?_tokens_ne hc hne)
  rw [bind_done hskip]
  exact h c hc

section Types

variable {p : Reader TypeExpr} {P : TypeExpr → Prop} {start : Nat}

theorem yields_spanning {make : TypeExpr → Span → TypeExpr}
    (h : Yields p ws after fun e ↦ ∀ s, P (make e s)) : Yields (spanning p start make) ws after P :=
  h.bind fun _ he ↦ yields_range_bind fun s ↦ yields_pure (he s)

theorem yields_star (h : Yields p ws after fun e ↦ ∀ s, P (.pointer e s)) :
    Yields (typeOver p) ((.star, text) :: ws) after P := by
  intro c hc
  obtain ⟨t, rest, last, rfl, ht, hrest⟩ := exists_cons hc
  rw [typeOver_star (congrArg Prod.fst ht)]
  exact yields_spanning h _ hrest

theorem yields_brackets {text' : String} (h : Yields p ws after fun e ↦ ∀ s, P (.slice e s)) :
    Yields (typeOver p) ((.lbracket, text) :: (.rbracket, text') :: ws) after P := by
  intro c hc
  obtain ⟨t, ts, last, rfl, ht, hts⟩ := exists_cons hc
  obtain ⟨b, rest, _, ⟨⟩, hb, hrest⟩ := exists_cons hts
  rw [typeOver_brackets (congrArg Prod.fst ht) (congrArg Prod.fst hb)]
  exact yields_spanning h _ hrest

theorem yields_length {text' digits : String} {length : UInt64}
    (hl : Literal.arrayLength? (Literal.ungroup digits) = some length)
    (h : Yields p ws after fun e ↦ ∀ s, P (.array length e s)) :
    Yields (typeOver p)
      ((.lbracket, text) :: (.int, digits) :: (.rbracket, text') :: ws) after P := by
  intro c hc
  obtain ⟨t, ts, last, rfl, ht, hts⟩ := exists_cons hc
  obtain ⟨i, us, _, ⟨⟩, hi, hus⟩ := exists_cons hts
  obtain ⟨b, rest, _, ⟨⟩, hb, hrest⟩ := exists_cons hus
  obtain ⟨hk, rfl⟩ := Prod.mk.inj hi
  rw [typeOver_length (congrArg Prod.fst ht) hk hl (congrArg Prod.fst hb)]
  exact yields_spanning h _ hrest

theorem yields_map {ks : List Word} {text' text'' : String} {K : TypeExpr → Prop}
    (hk : Yields p (ks ++ (.rbracket, text'') :: ws) ((.rbracket, text'') :: ws) K)
    (h : Yields p ws after fun e ↦ ∀ k, K k → ∀ s, P (.map k e s)) :
    Yields (typeOver p)
      ((.mapWord, text) :: (.lbracket, text') :: (ks ++ (.rbracket, text'') :: ws)) after P := by
  intro c hc
  obtain ⟨t, ts, last, rfl, ht, hts⟩ := exists_cons hc
  obtain ⟨b, rest, _, ⟨⟩, hb, hrest⟩ := exists_cons hts
  rw [typeOver_map (congrArg Prod.fst ht) (congrArg Prod.fst hb)]
  have hinside : Yields (do
      let key ← p
      let _ ← expect .rbracket "expected `]` after map key type"
      spanning p t.span.start (.map key)) (ks ++ (.rbracket, text'') :: ws) after P :=
    hk.bind fun k hK ↦ yields_expect_bind fun _ _ ↦ yields_spanning (h.mono fun e he ↦ he k hK)
  exact hinside _ hrest

theorem yields_chan (hne : ∀ w ∈ ws.head?, w.1 ≠ .arrow)
    (h : Yields p ws after fun e ↦ ∀ s, P (.chan .both e s)) :
    Yields (typeOver p) ((.chanWord, text) :: ws) after P := by
  intro c hc
  obtain ⟨t, rest, last, rfl, ht, hrest⟩ := exists_cons hc
  rw [typeOver_chan (congrArg Prod.fst ht) (Cursor.head?_tokens_ne hrest hne)]
  exact yields_spanning h _ hrest

theorem yields_chan_arrow {text' : String}
    (h : Yields p ws after fun e ↦ ∀ s, P (.chan .send e s)) :
    Yields (typeOver p) ((.chanWord, text) :: (.arrow, text') :: ws) after P := by
  intro c hc
  obtain ⟨t, ts, last, rfl, ht, hts⟩ := exists_cons hc
  obtain ⟨b, rest, _, ⟨⟩, hb, hrest⟩ := exists_cons hts
  rw [typeOver_chan_arrow (congrArg Prod.fst ht) (congrArg Prod.fst hb)]
  exact yields_spanning h _ hrest

theorem yields_arrow {text' : String} (h : Yields p ws after fun e ↦ ∀ s, P (.chan .recv e s)) :
    Yields (typeOver p) ((.arrow, text) :: (.chanWord, text') :: ws) after P := by
  intro c hc
  obtain ⟨t, ts, last, rfl, ht, hts⟩ := exists_cons hc
  obtain ⟨b, rest, _, ⟨⟩, hb, hrest⟩ := exists_cons hts
  rw [typeOver_arrow (congrArg Prod.fst ht) (congrArg Prod.fst hb)]
  exact yields_spanning h _ hrest

theorem yields_typeOver_iff {q : Reader TypeExpr} {w : Word}
    (hq : ∀ t rest last, t.word = w → typeOver p ⟨t :: rest, last⟩ = q ⟨t :: rest, last⟩) :
    Yields (typeOver p) (w :: ws) after P ↔ Yields q (w :: ws) after P := by
  have heq : ∀ c : Cursor, c.words = w :: ws → typeOver p c = q c := by
    intro c hc
    obtain ⟨t, rest, last, rfl, ht, -⟩ := exists_cons hc
    exact hq t rest last ht
  constructor
  · intro h c hc
    exact heq c hc ▸ h c hc
  · intro h c hc
    exact heq c hc ▸ h c hc

theorem yields_ident_iff : Yields (typeOver p) ((.ident, text) :: ws) after P ↔
    Yields typeName ((.ident, text) :: ws) after P :=
  yields_typeOver_iff fun _ _ _ ht ↦ typeOver_ident (congrArg Prod.fst ht)

theorem yields_interface (h : Yields (interfaceType p) ((.interfaceWord, text) :: ws) after P) :
    Yields (typeOver p) ((.interfaceWord, text) :: ws) after P := by
  refine (yields_typeOver_iff fun t rest last ht ↦ ?_).2 h
  have hk : t.kind = .interfaceWord := congrArg Prod.fst ht
  rw [typeOver, bind_cursor]
  simp only [List.head?_cons, hk]

theorem yields_struct (h : Yields (structType p) ((.structWord, text) :: ws) after P) :
    Yields (typeOver p) ((.structWord, text) :: ws) after P := by
  refine (yields_typeOver_iff fun t rest last ht ↦ ?_).2 h
  have hk : t.kind = .structWord := congrArg Prod.fst ht
  rw [typeOver, bind_cursor]
  simp only [List.head?_cons, hk]

theorem yields_func (h : Yields (signature p) ws after fun sig ↦ ∀ s, P (.func sig s)) :
    Yields (typeOver p) ((.funcWord, text) :: ws) after P := by
  intro c hc
  obtain ⟨t, rest, last, rfl, ht, hrest⟩ := exists_cons hc
  have hk : t.kind = .funcWord := congrArg Prod.fst ht
  have hfunc : typeOver p ⟨t :: rest, last⟩ = (do
      let sig ← signature p
      return TypeExpr.func sig (← range t.span.start sig.span.stop)) ⟨rest, t.span.stop⟩ := by
    rw [typeOver, bind_cursor]
    simp only [List.head?_cons, hk]
    exact bind_done (eat_cons hk)
  rw [hfunc]
  exact (h.bind fun sig hsig ↦ yields_range_bind fun s ↦ yields_pure (hsig s)) _ hrest

theorem yields_typeName (hne : ∀ w ∈ ws.head?, w.1 ≠ .dot) (h : ∀ s, P (.name none text s)) :
    Yields typeName ((.ident, text) :: ws) ws P :=
  yields_ident_bind fun s ↦ yields_eat_other hne (yields_pure (h s))

theorem yields_typeName_qualified {text' name : String} (h : ∀ s, P (.name (some text) name s)) :
    Yields typeName ((.ident, text) :: (.dot, text') :: (.ident, name) :: ws) ws P :=
  yields_ident_bind fun _ ↦ yields_eat_bind <| yields_ident_bind fun _ ↦
    yields_join_bind fun s ↦ yields_pure (h s)

end Types

section Written

variable {q : TypeName → Option String}

theorem yields_name {P : TypeExpr → Prop} {p : Reader TypeExpr} {name : TypeName}
    (h : ∀ s, P (.name (q name) name.name s)) (hdot : ∀ w ∈ after.head?, w.1 ≠ .dot) :
    Yields (typeOver p) ((Ty.named (some name)).words q ++ after) after P := by
  cases hq : q name with
  | none =>
    rw [Ty.words_bare q hq]
    exact yields_ident_iff.2 (yields_typeName hdot (hq ▸ h))
  | some qualifier =>
    rw [Ty.words_qualified q hq]
    exact yields_ident_iff.2 (yields_typeName_qualified (hq ▸ h))

/-- Behind the word of a channel that is open at both ends, an arrow would be read as part of it. -/
theorem yields_chanWords {P : TypeExpr → Prop} {p : Reader TypeExpr} {dir : ChanDir} {elem : Ty}
    (helem : elem.MadeOf (Ty.Spellable q)) (hne : ∀ e, dir = .both → elem ≠ .chan .recv e)
    (h : Yields p (elem.words q ++ after) after fun e ↦ ∀ s, P (.chan dir e s)) :
    Yields (typeOver p) ((Ty.chan dir elem).words q ++ after) after P := by
  cases dir with
  | both =>
    have hfirst : ∀ w ∈ (elem.words q ++ after).head?, w.1 ≠ .arrow := by
      obtain ⟨text, rest, hwords⟩ := Ty.words_leads helem
      rw [hwords]
      rintro _ ⟨⟩ harrow
      obtain ⟨e, he⟩ := Ty.leads_eq_arrow harrow
      exact hne e rfl he
    exact yields_chan hfirst h
  | send => exact yields_chan_arrow h
  | recv => exact yields_arrow h

/-- Reading the words of a type, in front of anything but a dot, gives what its text means. -/
theorem yields_words {t : Ty} (ht : t.MadeOf (Ty.Spellable q)) {n : Nat}
    (hn : (t.words q).length ≤ n) (hdot : ∀ w ∈ after.head?, w.1 ≠ .dot) :
    Yields (typeWithin n) (t.words q ++ after) after (TypeExpr.Writes q · t.readBack) := by
  induction t using Ty.readBack.induct generalizing n after with
  | case1 elem ih =>
    have helem : (Ty.chan .both elem).MadeOf (Ty.Spellable q) := by
      cases ht with
      | chan _ h =>
        cases h with
        | chan _ h => exact .chan .both h
    obtain ⟨m, rfl⟩ := Ty.exists_succ_of_words ht hn
    have hread := ih helem (n := m) (by simp [Ty.words_both, Ty.words_recv] at hn ⊢; omega) hdot
    rw [Ty.readBack]
    exact yields_chan_arrow (hread.mono fun e he ↦ .chan .send he)
  | case2 dir elem hne ih =>
    have helem : elem.MadeOf (Ty.Spellable q) := by
      cases ht with
      | chan _ h => exact h
    obtain ⟨m, rfl⟩ := Ty.exists_succ_of_words ht hn
    have hm : (elem.words q).length ≤ m := by
      cases dir <;> simp [Ty.words_both, Ty.words_send, Ty.words_recv] at hn <;> omega
    rw [Ty.readBack]
    · exact yields_chanWords helem hne ((ih helem hm hdot).mono fun e he ↦ .chan dir he)
    · exact hne
  | case3 elem ih =>
    cases ht with
    | pointer helem =>
      obtain ⟨m, rfl⟩ := Ty.exists_succ_of_words (.pointer helem) hn
      rw [Ty.readBack]
      exact yields_star
        ((ih helem (by simpa [Ty.words_pointer] using hn) hdot).mono fun e he ↦ .pointer he)
  | case4 elem ih =>
    cases ht with
    | slice helem =>
      obtain ⟨m, rfl⟩ := Ty.exists_succ_of_words (.slice helem) hn
      have hread := ih helem (n := m) (by simp [Ty.words_slice] at hn; omega) hdot
      rw [Ty.readBack]
      exact yields_brackets (hread.mono fun e he ↦ .slice he)
  | case5 length elem ih =>
    cases ht with
    | array _ helem =>
      obtain ⟨m, rfl⟩ := Ty.exists_succ_of_words (.array length helem) hn
      have hread := ih helem (n := m) (by simp [Ty.words_array] at hn; omega) hdot
      rw [Ty.readBack]
      exact yields_length (Literal.arrayLength?_toDigits length)
        (hread.mono fun e he ↦ .array length he)
  | case6 key elem ihk ih =>
    cases ht with
    | map hkey helem =>
      obtain ⟨m, rfl⟩ := Ty.exists_succ_of_words (.map hkey helem) hn
      rw [Ty.words_map] at hn ⊢
      simp only [List.length_cons, List.length_append] at hn
      rw [List.cons_append, List.cons_append, List.append_assoc, List.cons_append, Ty.readBack]
      have hclose : ∀ w ∈ ((.rbracket, "]") :: (elem.words q ++ after) : List Word).head?,
          w.1 ≠ .dot := by
        simp
      refine yields_map (ihk hkey (by omega) hclose)
        ((ih helem (by omega) hdot).mono fun e he k hk ↦ ?_)
      exact .map hk he
  | case7 t hrecv hchan hpointer hslice harray hmap =>
    obtain ⟨m, rfl⟩ := Ty.exists_succ_of_words ht hn
    rw [Ty.readBack]
    · cases ht with
      | basic kind =>
        rw [Ty.words_basic]
        exact yields_ident_iff.2 (yields_typeName hdot (.basic kind))
      | @named name _ => exact yields_name (.named name) hdot
      | pointer => exact absurd rfl (hpointer _)
      | slice => exact absurd rfl (hslice _)
      | array => exact absurd rfl (harray _ _)
      | map => exact absurd rfl (hmap _ _)
      | chan => exact absurd rfl (hchan _ _)
    all_goals assumption

end Written

section Params

variable {p : Reader TypeExpr} {P : ParamExpr TypeExpr → Prop} {start : Nat} {name : Option String}

/-- What follows the name of an entry. -/
def entryTail (p : Reader TypeExpr) (start : Nat) (name : Option String) :
    Reader (ParamExpr TypeExpr) := do
  let variadic ← eat .ellipsis
  let type ← p
  return ⟨name, type, variadic, ← range start type.span.stop⟩

theorem yields_entryTail (hne : ∀ w ∈ ws.head?, w.1 ≠ .ellipsis)
    (h : Yields p ws after fun e ↦ ∀ s, P ⟨name, e, false, s⟩) :
    Yields (entryTail p start name) ws after P :=
  yields_eat_other hne <| h.bind fun _ he ↦ yields_range_bind fun s ↦ yields_pure (he s)

theorem yields_entryTail_variadic (h : Yields p ws after fun e ↦ ∀ s, P ⟨name, e, true, s⟩) :
    Yields (entryTail p start name) ((.ellipsis, text) :: ws) after P :=
  yields_eat_bind <| h.bind fun _ he ↦ yields_range_bind fun s ↦ yields_pure (he s)

/-- Behind a word that is no name of an entry. -/
def endsBareType : TokenKind → Bool
  | .comma | .rparen | .dot => true
  | _ => false

theorem yields_paramEntry_named {name : String} {w : Word} (hw : endsBareType w.1 = false)
    (h : ∀ start, Yields (entryTail p start (some name)) (w :: ws) after P) :
    Yields (paramEntry p) ((.ident, name) :: w :: ws) after P := by
  refine yields_cursor_bind fun c hc ↦ yields_if_pos ?_ ?_
  · rw [Cursor.isAt_eq hc, Cursor.following?_eq hc]
    obtain ⟨kind, text⟩ := w
    cases kind <;> first | rfl | cases hw
  · rw [bind_map_left]
    refine yields_ident_bind fun _ ↦ ?_
    exact h c.start

theorem yields_paramEntry_bare {w : Word}
    (hw : w.1 = .ident → ∃ x ∈ ws.head?, endsBareType x.1 = true)
    (h : ∀ start, Yields (entryTail p start none) (w :: ws) after P) :
    Yields (paramEntry p) (w :: ws) after P := by
  refine yields_cursor_bind fun c hc ↦ yields_if_neg ?_ (h c.start)
  rw [Cursor.isAt_eq hc, Cursor.following?_eq hc]
  by_cases hident : w.1 = .ident
  · obtain ⟨⟨kind, text⟩, hx, hends⟩ := hw hident
    rw [Option.mem_def.1 hx]
    cases kind <;> first | exact absurd hends Bool.false_ne_true | simp
  · simp [hident]

theorem yields_params {text' : String} {P : List (ParamExpr TypeExpr) → Prop}
    (h : Yields (bounded (paramEntries p)) ws ((.rparen, text') :: after) fun entries ↦
      ∃ ps, groupParams entries = .ok ps ∧ P ps) : Yields (params p)
        ((.lparen, text) :: ws) after P := by
  refine yields_expect_bind fun _ _ ↦ h.bind fun entries hentries ↦ yields_expect_bind fun _ _ ↦ ?_
  obtain ⟨ps, hps, hP⟩ := hentries
  rw [hps]
  exact yields_pure hP

def opensEntry : TokenKind → Bool
  | .rparen | .eof => false
  | _ => true

variable {m : Nat} {w : Word}

theorem yields_paramEntries_nil :
    Yields (paramEntries p (m + 1)) ((.rparen, text) :: ws) ((.rparen, text) :: ws) (· = []) := by
  refine yields_cursor_bind fun c hc ↦ yields_if_pos ?_ (yields_pure rfl)
  simp [Cursor.isAt_eq hc]

theorem yields_paramEntries_open {P : List (ParamExpr TypeExpr) → Prop} (hw : opensEntry w.1 = true)
    (h : Yields (do
      let entry ← paramEntry p
      if ← eat .comma then return entry :: (← paramEntries p m)
      return [entry]) (w :: ws) after P) : Yields (paramEntries p (m + 1)) (w :: ws) after P := by
  refine yields_cursor_bind fun c hc ↦ yields_if_neg ?_ h
  obtain ⟨kind, _⟩ := w
  rw [Cursor.isAt_eq hc, Cursor.isAt_eq hc]
  cases kind <;> first | rfl | cases hw

theorem yields_paramEntries_last (hw : opensEntry w.1 = true)
    (h : Yields (paramEntry p) (w :: ws ++ (.rparen, text) :: after) ((.rparen, text) :: after) P) :
    Yields (paramEntries p (m + 1)) (w :: ws ++ (.rparen, text) :: after) ((.rparen, text) :: after)
      fun es ↦ ∃ e, P e ∧ es = [e] :=
  yields_paramEntries_open hw
    (h.bind fun e he ↦ yields_eat_other (by simp) (yields_pure ⟨e, he, rfl⟩))

theorem yields_paramEntries_cons {R Q : List (ParamExpr TypeExpr) → Prop}
    (hw : opensEntry w.1 = true)
    (h : Yields (paramEntry p) (w :: ws ++ (.comma, text) :: middle) ((.comma, text) :: middle) P)
    (hlater : Yields (paramEntries p m) middle after R) (hQ : ∀ e es, P e → R es → Q (e :: es)) :
    Yields (paramEntries p (m + 1)) (w :: ws ++ (.comma, text) :: middle) after Q :=
  yields_paramEntries_open hw <| h.bind fun e he ↦ yields_eat_bind <|
    hlater.bind fun es hes ↦ yields_pure (hQ e es he hes)

end Params

section Bodies

variable {what : String} {item : Reader (List α)} {n : Nat} {w : Word} {text' : String}

theorem yields_bodyItems_nil :
    Yields (bodyItems what item (n + 1)) ((.rbrace, text) :: ws) ((.rbrace, text) :: ws)
      (· = []) := by
  refine yields_skipSemicolons_bind (by simp)
    (yields_cursor_bind fun c hc ↦ yields_if_pos ?_ (yields_pure rfl))
  simp [Cursor.isAt_eq hc]

def opensItem : TokenKind → Bool
  | .semicolon | .rbrace | .eof => false
  | _ => true

theorem yields_bodyItems_open {P : List α → Prop} (hw : opensItem w.1 = true)
    (h : Yields (do
      let items ← item
      terminator what
      return items ++ (← bodyItems what item n)) (w :: ws) after P) :
    Yields (bodyItems what item (n + 1)) (w :: ws) after P := by
  have hsemicolon : w.1 ≠ .semicolon := by
    intro hk
    simp [hk, opensItem] at hw
  refine yields_skipSemicolons_bind (by simpa using hsemicolon)
    (yields_cursor_bind fun c hc ↦ yields_if_neg ?_ h)
  obtain ⟨kind, _⟩ := w
  rw [Cursor.isAt_eq hc, Cursor.isAt_eq hc]
  cases kind <;> first | rfl | cases hw

theorem yields_bodyItems_last {P : List α → Prop} (hw : opensItem w.1 = true)
    (h : Yields item (w :: ws ++ (.rbrace, text) :: after) ((.rbrace, text) :: after) P) :
    Yields (bodyItems what item (n + 2)) (w :: ws ++ (.rbrace, text) :: after)
      ((.rbrace, text) :: after) P := by
  refine yields_bodyItems_open hw
    (h.bind fun items hitems ↦ yields_terminator_rbrace.bind fun _ _ ↦ ?_)
  refine yields_bodyItems_nil.bind fun later hlater ↦ yields_pure ?_
  rwa [hlater, List.append_nil]

theorem yields_bodyItems_cons {P R Q : List α → Prop} (hw : opensItem w.1 = true)
    (h : Yields item (w :: ws ++ (.semicolon, text) :: middle) ((.semicolon, text) :: middle) P)
    (hlater : Yields (bodyItems what item n) middle after R)
    (hQ : ∀ xs ys, P xs → R ys → Q (xs ++ ys)) :
    Yields (bodyItems what item (n + 1)) (w :: ws ++ (.semicolon, text) :: middle) after Q := by
  refine yields_bodyItems_open hw (h.bind fun items hitems ↦ yields_terminator.bind fun _ _ ↦ ?_)
  exact hlater.bind fun later hl ↦ yields_pure (hQ items later hitems hl)

variable {p : Reader TypeExpr}

section Elements

variable {P : ElementExpr TypeExpr → Prop}

theorem yields_element_method {name : String}
    (h : Yields (signature p) ((.lparen, text) :: ws) after fun sig ↦ ∀ s, P (.method name sig s)) :
    Yields (element p) ((.ident, name) :: (.lparen, text) :: ws) after P := by
  refine yields_cursor_bind fun c hc ↦ yields_if_pos ?_ ?_
  · simp [Cursor.isAt_eq hc, Cursor.following?_eq hc]
  · exact yields_ident_bind fun _ ↦ h.bind fun sig hsig ↦ yields_join_bind fun s ↦
      yields_pure (hsig s)

theorem yields_element_embedded (hne : ∀ w ∈ ws.head?, w.1 ≠ .lparen)
    (h : Yields typeName ((.ident, text) :: ws) after fun e ↦ P (.embedded e)) :
    Yields (element p) ((.ident, text) :: ws) after P := by
  refine yields_cursor_bind fun c hc ↦ yields_if_neg ?_
    (yields_if_pos ?_ (h.bind fun e he ↦ yields_pure he))
  · rw [Cursor.isAt_eq hc, Cursor.following?_eq hc]
    cases hws : ws.head? with
    | none => rfl
    | some w => simpa using hne w hws
  · simp [Cursor.isAt_eq hc]

theorem yields_interfaceType {P : TypeExpr → Prop} {text'' : String}
    (h : Yields (bounded (bodyItems "interface element" ((fun e ↦ [e]) <$> element p))) ws
      ((.rbrace, text'') :: after) fun es ↦ ∀ s, P (.interface es s)) :
    Yields (interfaceType p) ((.interfaceWord, text) :: (.lbrace, text') :: ws) after P :=
  yields_expect_bind fun _ _ ↦ yields_expect_bind fun _ _ ↦ h.bind fun _ hes ↦
    yields_expect_bind fun _ _ ↦ yields_range_bind fun s ↦ yields_pure (hes s)

end Elements

section Fields

variable {P : List (FieldExpr TypeExpr) → Prop}

/-- Behind a word that is the type of a field, not its name. -/
def endsBareField : TokenKind → Bool
  | .semicolon | .rbrace | .dot | .str => true
  | _ => false

theorem yields_untagged {fields : List (FieldExpr TypeExpr)} (hstr : ∀ w ∈ ws.head?, w.1 ≠ .str)
  (h : P fields) :
    Yields (do
      let _ ← eat .str
      return fields) ws ws P :=
  yields_eat_other hstr (yields_pure h)

theorem yields_fieldGroup_type (hw : w.1 = .star ∨ w.1 = .ident ∧ ∃ x ∈ ws.head?,
  endsBareField x.1 = true)
    (h : Yields (do
      let type ← p
      let _ ← eat .str
      return [(⟨none, type, type.span⟩ : FieldExpr TypeExpr)]) (w :: ws) after P) :
    Yields (fieldGroup p) (w :: ws) after P := by
  refine yields_cursor_bind fun c hc ↦ yields_if_pos ?_ ?_
  · rw [Cursor.isAt_eq hc, Cursor.isAt_eq hc, Cursor.following?_eq hc]
    obtain hstar | ⟨hident, ⟨kind, text⟩, hx, hends⟩ := hw
    · simp [hstar]
    · rw [Option.mem_def.1 hx]
      cases kind <;> first | exact absurd hends Bool.false_ne_true | simp [hident]
  · simpa only [pure_bind] using h

theorem yields_fieldGroup_names {name : String} (hw : endsBareField w.1 = false)
    (h : ∀ span, Yields (do
      let names ← bounded fieldNames
      let type ← p
      let fields ← namedFields type ((name, span) :: names)
      let _ ← eat .str
      return fields) (w :: ws) after P) : Yields (fieldGroup p)
        ((.ident, name) :: w :: ws) after P := by
  refine yields_cursor_bind fun c hc ↦ yields_if_neg ?_ ?_
  · rw [Cursor.isAt_eq hc, Cursor.isAt_eq hc, Cursor.following?_eq hc]
    obtain ⟨kind, text⟩ := w
    cases kind <;> first | rfl | cases hw
  · exact yields_ident_bind h

theorem yields_fieldGroup_bare
    (hw : w.1 = .star ∨ w.1 = .ident ∧ ∃ x ∈ ws.head?, endsBareField x.1 = true)
    (hstr : ∀ w ∈ after.head?, w.1 ≠ .str)
    (h : Yields p (w :: ws) after fun e ↦ ∀ s, P [⟨none, e, s⟩]) :
    Yields (fieldGroup p) (w :: ws) after P :=
  yields_fieldGroup_type hw (h.bind fun e he ↦ yields_untagged hstr (he e.span))

theorem yields_fieldGroup_named {name : String} (hw : endsBareField w.1 = false)
    (hcomma : w.1 ≠ .comma) (hstr : ∀ w ∈ after.head?, w.1 ≠ .str)
    (h : Yields p (w :: ws) after fun e ↦ ∀ s, P [⟨some name, e, s⟩]) :
    Yields (fieldGroup p) ((.ident, name) :: w :: ws) after P := by
  have hnames : Yields (bounded fieldNames) (w :: ws) (w :: ws) (· = []) :=
    yields_bounded (yields_eat_other (by simpa using hcomma) (yields_pure rfl))
  refine yields_fieldGroup_names hw fun span ↦ hnames.bind fun names hnil ↦ h.bind fun e he ↦ ?_
  have hfields : Yields (namedFields e [(name, span)]) after after P :=
    yields_join_bind fun s ↦ yields_pure (he s)
  rw [hnil]
  exact hfields.bind fun fields hP ↦ yields_untagged hstr hP

theorem yields_structType {P : TypeExpr → Prop} {text'' : String}
    (h : Yields (bounded (bodyItems "struct field" (fieldGroup p))) ws ((.rbrace, text'') :: after)
      fun fields ↦ ∀ s, P (.struct fields s)) :
    Yields (structType p) ((.structWord, text) :: (.lbrace, text') :: ws) after P :=
  yields_expect_bind fun _ _ ↦ yields_expect_bind fun _ _ ↦ h.bind fun _ hfields ↦
    yields_expect_bind fun _ _ ↦ yields_range_bind fun s ↦ yields_pure (hfields s)

end Fields

end Bodies

end Reader

end Understudy
