import Understudy.Token.Lexer

namespace Understudy

namespace Token

def word (t : Token) : TokenKind × String := (t.kind, t.text)

/-- Tokens that come one after the other from byte `lo` on. -/
def InOrder : Nat → List Token → Prop
  | _, [] => True
  | lo, t :: rest => lo ≤ t.span.start ∧ t.span.IsOrdered ∧ InOrder t.span.stop rest

theorem InOrder.mono {lo hi : Nat} {ts : List Token} (h : InOrder hi ts) (hle : lo ≤ hi) :
    InOrder lo ts := by
  cases ts with
  | nil => trivial
  | cons t rest => exact ⟨Nat.le_trans hle h.1, h.2⟩

def isWord (word : String) : Bool :=
  match word.toList with
  | [] => false
  | c :: rest => Piece.startsWord c && rest.all Piece.inWord

def isIdentifier (word : String) : Bool := isWord word && TokenKind.ofWord word == .ident

theorem isWord_iff {word : String} :
    isWord word = true ↔ ∃ c rest, word.toList = c :: rest ∧ Piece.startsWord c = true ∧
      ∀ x ∈ rest, Piece.inWord x = true := by
  unfold isWord
  cases word.toList with
  | nil => simp
  | cons c rest => simp [and_assoc]

theorem isIdentifier_iff {word : String} :
    isIdentifier word = true ↔ isWord word = true ∧ TokenKind.ofWord word = .ident := by
  simp [isIdentifier]

end Token

namespace Piece

def Breaks (rest : List Char) : Prop := ∀ c ∈ rest.head?, inWord c = false

theorem Breaks.cons {c : Char} (h : inWord c = false) (rest : List Char) : Breaks (c :: rest) := by
  intro x hx
  cases hx
  exact h

theorem takeWhile_of_breaks {p : Char → Bool} {tail rest : List Char} (ht : ∀ x ∈ tail, p x = true)
    (hr : ∀ c ∈ rest.head?, p c = false) : (tail ++ rest).takeWhile p = tail := by
  rw [List.takeWhile_append_of_pos ht]
  cases rest with
  | nil => simp
  | cons c rest => simp [hr c rfl]

section Extents

theorem isBlank_of_inWord {c : Char} (h : inWord c = true) : c ≠ '\n' ∧ isBlank c = false := by
  constructor
  · rintro rfl
    exact absurd h (by decide)
  · cases hb : isBlank c with
    | false => rfl
    | true =>
      simp only [isBlank, Bool.or_eq_true, beq_iff_eq] at hb
      rcases hb with ((rfl | rfl) | rfl) | rfl <;> exact absurd h (by decide)

theorem inWord_of_startsWord {c : Char} (h : startsWord c = true) : inWord c = true := by
  simp only [startsWord, inWord, Char.isAlphanum, Bool.or_eq_true] at h ⊢
  exact h.imp_left .inl

theorem inWord_of_isDigit {c : Char} (h : c.isDigit = true) : inWord c = true := by
  simp only [inWord, Char.isAlphanum, h, Bool.or_true, Bool.true_or]

theorem isAlpha_iff_toNat {c : Char} :
    c.isAlpha = true ↔ (65 ≤ c.toNat ∧ c.toNat ≤ 90) ∨ (97 ≤ c.toNat ∧ c.toNat ≤ 122) := by
  change (decide ('A'.val ≤ c.val ∧ c.val ≤ 'Z'.val) ||
    (decide ('a'.val ≤ c.val) && decide (c.val ≤ 'z'.val))) = true ↔ _
  simp only [Bool.or_eq_true, Bool.and_eq_true, decide_eq_true_eq, UInt32.le_iff_toNat_le]
  rfl

theorem startsWord_of_isDigit {c : Char} (h : c.isDigit = true) : startsWord c = false := by
  rw [Char.isDigit_iff_toNat] at h
  change 48 ≤ c.toNat ∧ c.toNat ≤ 57 at h
  cases hs : startsWord c with
  | false => rfl
  | true =>
    simp only [startsWord, Bool.or_eq_true, isAlpha_iff_toNat, beq_iff_eq] at hs
    rcases hs with (hs | hs) | rfl
    · omega
    · omega
    · exact absurd h (by decide)

theorem ne_of_isBlank {c : Char} (h : isBlank c = true) : c ≠ '\n' := by
  rintro rfl
  simp [isBlank] at h

/-- What starts with `c` in front of `rest`, and what says that it takes `n` more characters. -/
inductive Extends (c : Char) (rest : List Char) (n : Nat) : Shape → Prop
  | newline (hc : c = '\n') (hn : n = 0) : Extends c rest n .newline
  | blank (hc : isBlank c = true) (hn : n = 0) : Extends c rest n .blank
  | word {kind : TokenKind} (hc : startsWord c = true) (hn : (rest.takeWhile inWord).length = n)
      (hkind : TokenKind.ofWord (String.ofList (c :: rest.take n)) = kind) :
      Extends c rest n (.token kind)
  | number (hc : c.isDigit = true) (hn : (rest.takeWhile inNumber).length = n) :
      Extends c rest n (.token .int)
  | quoted (hc : c = '"') (hn : quotedTail rest = (true, n)) : Extends c rest n (.token .str)
  | raw (hc : c = '\x60') (hn : rawTail rest = (true, n)) : Extends c rest n (.token .str)
  | openQuoted (hc : c = '"') (hn : quotedTail rest = (false, n)) : Extends c rest n .openString
  | openRaw (hc : c = '\x60') (hn : rawTail rest = (false, n)) : Extends c rest n .openString
  | line (hc : c = '/') (hrest : rest.head? = some '/')
      (hn : (rest.takeWhile (· ≠ '\n')).length = n) : Extends c rest n .comment
  | block {k : Nat} (hc : c = '/') (hrest : rest.head? = some '*')
      (hk : blockTail rest.tail = (true, k)) (hn : n = k + 1) : Extends c rest n .comment
  | openBlock {k : Nat} (hc : c = '/') (hrest : rest.head? = some '*')
      (hk : blockTail rest.tail = (false, k)) (hn : n = k + 1) : Extends c rest n .openComment
  | mark {kind : TokenKind} (h : mark? c rest = some (kind, n)) : Extends c rest n (.token kind)
  | unknown (hspace : c ≠ '\n' ∧ isBlank c = false) (hword : startsWord c = false)
      (hdigit : c.isDigit = false) (hliteral : c ≠ '"' ∧ c ≠ '\x60')
      (hline : ¬(c = '/' ∧ rest.head? = some '/')) (hblock : ¬(c = '/' ∧ rest.head? = some '*'))
      (hmark : mark? c rest = none) (hn : n = 0) : Extends c rest n .unknown

variable {c : Char} {rest : List Char} {n : Nat} {shape : Shape}

theorem take_takeWhile_length (p : Char → Bool) (text : List Char) :
    text.take (text.takeWhile p).length = text.takeWhile p :=
  (List.prefix_iff_eq_take.1 (List.takeWhile_prefix p)).symm

theorem ne_of_mark? {kind : TokenKind} (h : mark? c rest = some (kind, n)) :
    c ≠ '\n' ∧ isBlank c = false ∧
    startsWord c = false ∧ c.isDigit = false ∧ c ≠ '"' ∧ c ≠ '\x60' ∧ c ≠ '/' := by
  unfold mark? at h
  split at h <;> first | decide | cases h

theorem extends_extent (c : Char) (rest : List Char) :
    Extends c rest (extent c rest).2 (extent c rest).1 := by
  fun_cases extent c rest with
  | case1 hc => exact .newline hc rfl
  | case2 _ hc => exact .blank hc rfl
  | case3 _ _ hc => exact .word hc rfl (by rw [take_takeWhile_length])
  | case4 _ _ _ hc => exact .number hc rfl
  | case5 _ _ _ _ hc closed n hn =>
    cases closed with
    | true => exact .quoted hc hn
    | false => exact .openQuoted hc hn
  | case6 _ _ _ _ _ hc closed n hn =>
    cases closed with
    | true => exact .raw hc hn
    | false => exact .openRaw hc hn
  | case7 _ _ _ _ _ _ hc => exact .line hc.1 hc.2 rfl
  | case8 _ _ _ _ _ _ _ hc closed k hk =>
    cases closed with
    | true => exact .block hc.1 hc.2 hk rfl
    | false => exact .openBlock hc.1 hc.2 hk rfl
  | case9 _ _ _ _ _ _ _ _ kind n h => exact .mark h
  | case10 hnl hblank hword hdigit hquote hraw hline hblock h =>
    exact .unknown ⟨hnl, by simpa using hblank⟩ (by simpa using hword) (by simpa using hdigit)
      ⟨hquote, hraw⟩ hline hblock
      h rfl

/-- Each of these is found under its own conditions, which no other one meets. -/
theorem extent_eq_iff : extent c rest = (shape, n) ↔ Extends c rest n shape := by
  constructor
  · intro h
    have hextends := extends_extent c rest
    rwa [h] at hextends
  · intro h
    cases h with
    | newline hc hn => simp [extent, hc, hn]
    | blank hc hn => simp [extent, ne_of_isBlank hc, hc, hn]
    | word hc hn hkind =>
      obtain ⟨hnl, hblank⟩ := isBlank_of_inWord (inWord_of_startsWord hc)
      rw [← hn, take_takeWhile_length] at hkind
      rw [extent, if_neg hnl, hblank, if_neg Bool.false_ne_true, if_pos hc]
      dsimp only
      rw [hkind, hn]
    | number hc hn =>
      obtain ⟨hnl, hblank⟩ := isBlank_of_inWord (inWord_of_isDigit hc)
      simp [extent, hnl, hblank, startsWord_of_isDigit hc, hc, hn]
    | quoted hc hn | raw hc hn | openQuoted hc hn | openRaw hc hn =>
      simp [extent, isBlank, startsWord, hc, hn]
    | line hc hrest hn =>
      simp only [ne_eq, decide_not] at hn
      simp [extent, isBlank, startsWord, hc, hrest, hn]
    | block hc hrest hk hn | openBlock hc hrest hk hn =>
      simp [extent, isBlank, startsWord, hc, hrest, hk, hn]
    | mark h =>
      obtain ⟨hnl, hblank, hword, hdigit, hquote, hraw, hslash⟩ := ne_of_mark? h
      simp [extent, hnl, hblank, hword, hdigit, hquote, hraw, hslash, h]
    | unknown hspace hword hdigit hliteral hline hblock h hn =>
      rw [extent, if_neg hspace.1, hspace.2, hword, hdigit, if_neg hliteral.1,
        if_neg hliteral.2, if_neg hline, if_neg hblock, h, hn]
      rfl

end Extents

theorem pieces_lexeme {c : Char} (tail : List Char) {rest : List Char} {shape : Shape}
    (h : extent c (tail ++ rest) = (shape, tail.length)) (hopen : shape.isOpen = false) :
    pieces (c :: (tail ++ rest)) = ⟨shape, c :: tail⟩ :: pieces rest := by
  rw [pieces, h]
  simp [hopen]

theorem pieces_word {word : String} {rest : List Char} (hw : Token.isWord word = true)
    (hr : Breaks rest) :
    pieces (word.toList ++ rest) =
      ⟨.token (TokenKind.ofWord word), word.toList⟩ :: pieces rest := by
  obtain ⟨c, tail, hword, hc, ht⟩ := Token.isWord_iff.1 hw
  have hkind : TokenKind.ofWord (String.ofList (c :: (tail ++ rest).take tail.length)) =
      TokenKind.ofWord word := by
    rw [List.take_left, ← hword, String.ofList_toList]
  rw [hword, List.cons_append]
  apply pieces_lexeme tail
  · exact extent_eq_iff.2 (.word hc (by rw [takeWhile_of_breaks ht hr]) hkind)
  · rfl

theorem pieces_identifier {word : String} {rest : List Char} (hw : Token.isIdentifier word = true)
    (hr : Breaks rest) :
    pieces (word.toList ++ rest) = ⟨.token .ident, word.toList⟩ :: pieces rest := by
  obtain ⟨hword, hkind⟩ := Token.isIdentifier_iff.1 hw
  rw [pieces_word hword hr, hkind]

theorem pieces_number {digits rest : List Char} (hne : digits ≠ [])
    (hd : ∀ x ∈ digits, x.isDigit = true) (hr : Breaks rest) :
    pieces (digits ++ rest) = ⟨.token .int, digits⟩ :: pieces rest := by
  cases digits with
  | nil => exact absurd rfl hne
  | cons c tail =>
    have hc := hd c (List.mem_cons_self ..)
    have ht : ∀ x ∈ tail, inNumber x = true := fun x hx ↦ by
      simp [inNumber, hd x (List.mem_cons_of_mem _ hx)]
    have hr' : ∀ x ∈ rest.head?, inNumber x = false := fun x hx ↦ by
      have h := hr x hx
      simp only [inWord, Char.isAlphanum, Bool.or_eq_false_iff] at h
      simp [inNumber, h.1.2, h.2]
    apply pieces_lexeme tail
    · exact extent_eq_iff.2 (.number hc (by rw [takeWhile_of_breaks ht hr']))
    · rfl

theorem quotedTail_plain {text rest : List Char} (h : ∀ x ∈ text, x ≠ '"' ∧ x ≠ '\\' ∧ x ≠ '\n') :
    quotedTail (text ++ '"' :: rest) = (true, text.length + 1) := by
  induction text with
  | nil => rfl
  | cons c text ih =>
    obtain ⟨hq, hb, hn⟩ := h c (List.mem_cons_self ..)
    have ih := ih fun x hx ↦ h x (List.mem_cons_of_mem _ hx)
    rw [List.cons_append, quotedTail, ih]
    · rfl
    all_goals simp_all

theorem pieces_quoted {text rest : List Char} (h : ∀ x ∈ text, x ≠ '"' ∧ x ≠ '\\' ∧ x ≠ '\n') :
    pieces ('"' :: (text ++ '"' :: rest)) =
      ⟨.token .str, '"' :: (text ++ ['"'])⟩ :: pieces rest := by
  have htail : quotedTail ((text ++ ['"']) ++ rest) = (true, (text ++ ['"']).length) := by
    rw [List.append_assoc, List.singleton_append, quotedTail_plain h, List.length_append]
    rfl
  have hp := pieces_lexeme (text ++ ['"']) (extent_eq_iff.2 (.quoted rfl htail)) rfl
  rwa [List.append_assoc, List.singleton_append] at hp

section Marks

variable (rest : List Char)

theorem pieces_star : pieces ('*' :: rest) = ⟨.token .star, ['*']⟩ :: pieces rest :=
  pieces_lexeme [] rfl rfl

theorem pieces_lbracket : pieces ('[' :: rest) = ⟨.token .lbracket, ['[']⟩ :: pieces rest :=
  pieces_lexeme [] rfl rfl

theorem pieces_rbracket : pieces (']' :: rest) = ⟨.token .rbracket, [']']⟩ :: pieces rest :=
  pieces_lexeme [] rfl rfl

theorem pieces_arrow : pieces ('<' :: '-' :: rest) = ⟨.token .arrow, ['<', '-']⟩ :: pieces rest :=
  pieces_lexeme ['-'] rfl rfl

theorem pieces_space : pieces (' ' :: rest) = ⟨.blank, [' ']⟩ :: pieces rest :=
  pieces_lexeme [] rfl rfl

theorem pieces_newline : pieces ('\n' :: rest) = ⟨.newline, ['\n']⟩ :: pieces rest :=
  pieces_lexeme [] rfl rfl

end Marks

theorem pieces_dot {c : Char} (hc : c ≠ '.') (rest : List Char) :
    pieces ('.' :: c :: rest) = ⟨.token .dot, ['.']⟩ :: pieces (c :: rest) := by
  apply pieces_lexeme []
  · simp [extent, isBlank, startsWord, mark?, hc]
  · rfl

section Words

/-- The words of the tokens of pieces, where `last` is the kind of the token before them. -/
def words (last : Option TokenKind) : List Piece → List (TokenKind × String)
  | [] => if last.any TokenKind.completesLine then [(.semicolon, ""), (.eof, "")] else [(.eof, "")]
  | p :: rest =>
    match p.shape with
    | .token kind => (kind, String.ofList p.text) :: words (some kind) rest
    | _ =>
      if p.endsLine && last.any TokenKind.completesLine then (.semicolon, "") :: words
        (some .semicolon) rest
      else words last rest

theorem map_word_tokens (size : Nat) (last : Option TokenKind) (pos : Nat) (ps : List Piece) :
    (tokens size last pos ps).map Token.word = words last ps := by
  induction ps generalizing last pos with
  | nil =>
    rw [tokens, words]
    split <;> rfl
  | cons p rest ih =>
    obtain ⟨shape, text⟩ := p
    cases shape
    case token kind =>
      simp only [tokens, words, List.map_cons, ih]
      rfl
    all_goals
      simp only [tokens, words]
      split
      · simp only [List.map_cons, ih]
        rfl
      · exact ih ..

@[simp]
theorem words_token (last : Option TokenKind) (kind : TokenKind) (text : List Char)
    (rest : List Piece) :
    words last (⟨.token kind, text⟩ :: rest) = (kind, String.ofList text) :: words
      (some kind) rest := rfl

@[simp]
theorem words_blank (last : Option TokenKind) (text : List Char) (rest : List Piece) :
    words last (⟨.blank, text⟩ :: rest) = words last rest := rfl

theorem words_newline {kind : TokenKind} (h : kind.completesLine = true) (text : List Char)
    (rest : List Piece) :
    words (some kind) (⟨.newline, text⟩ :: rest) =
      (.semicolon, "") :: words (some .semicolon) rest := by
  simp [words, endsLine, h]

end Words

section Places

theorem byteCount_append (xs ys : List Char) :
    byteCount (xs ++ ys) = byteCount xs + byteCount ys := by
  induction xs with
  | nil => simp [byteCount]
  | cons c xs ih => rw [List.cons_append, byteCount, byteCount, ih, Nat.add_assoc]

theorem byteCount_eq (text : List Char) : byteCount text = (String.ofList text).utf8ByteSize := by
  induction text with
  | nil => rfl
  | cons c rest ih =>
    rw [byteCount, ih, String.ofList_cons, String.utf8ByteSize_append,
      String.utf8ByteSize_singleton]

theorem inOrder_tokens {size : Nat} (last : Option TokenKind) {pos : Nat} {ps : List Piece}
    (h : pos + byteCount (ps.flatMap (·.text)) ≤ size) :
    Token.InOrder pos (tokens size last pos ps) := by
  induction ps generalizing last pos with
  | nil =>
    simp only [List.flatMap_nil, byteCount, Nat.add_zero] at h
    rw [tokens]
    split
    · exact ⟨h, Nat.le_refl _, Nat.le_refl _, Nat.le_refl _, trivial⟩
    · exact ⟨h, Nat.le_refl _, trivial⟩
  | cons p rest ih =>
    rw [List.flatMap_cons, byteCount_append, ← Nat.add_assoc] at h
    have hle : pos ≤ pos + p.size := Nat.le_add_right ..
    rw [tokens]
    split
    · exact ⟨Nat.le_refl _, hle, ih _ h⟩
    · split
      · exact ⟨Nat.le_refl _, Nat.le_refl _, (ih _ h).mono hle⟩
      · exact (ih _ h).mono hle

theorem diagnostics_eq_nil {ps : List Piece} (h : ∀ p ∈ ps, ∀ pos, p.problems pos = [])
    (pos : Nat) : diagnostics pos ps = [] := by
  induction ps generalizing pos with
  | nil => rfl
  | cons p rest ih =>
    rw [diagnostics, h p (List.mem_cons_self ..), ih fun q hq ↦ h q (List.mem_cons_of_mem _ hq)]
    rfl

end Places

end Piece

theorem byteCount_pieces_le (source : String) :
    Piece.byteCount ((Piece.pieces source.toList).flatMap (·.text)) ≤ source.utf8ByteSize := by
  obtain ⟨rest, hrest⟩ := Piece.text_pieces source.toList
  have h := congrArg Piece.byteCount hrest
  rw [Piece.byteCount_append, Piece.byteCount_eq source.toList, String.ofList_toList] at h
  omega

theorem inOrder_lex (source : String) : Token.InOrder 0 (lex source).tokens :=
  Piece.inOrder_tokens none (by simpa using byteCount_pieces_le source)

theorem map_word_lex (source : String) :
    (lex source).tokens.map Token.word = Piece.words none (Piece.pieces source.toList) :=
  Piece.map_word_tokens ..

end Understudy
