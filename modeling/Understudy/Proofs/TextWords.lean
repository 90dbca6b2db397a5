import Understudy.Proofs.TypeText

namespace Understudy

abbrev Word := TokenKind × String

/-- Behind this the end of a line ends a declaration. -/
def Completes (ws : List Word) : Prop := ∃ init w, ws = init ++ [w] ∧ w.1.completesLine = true

theorem Completes.append_left {ws : List Word} (h : Completes ws) (front : List Word) :
    Completes (front ++ ws) := by
  obtain ⟨init, w, rfl, hw⟩ := h
  exact ⟨front ++ init, w, by simp, hw⟩

theorem completes_append_singleton {w : Word} (ws : List Word) (h : w.1.completesLine = true) :
    Completes (ws ++ [w]) :=
  ⟨ws, w, rfl, h⟩

namespace Piece

/-- Tokens and blanks, about which there is nothing to report. -/
def IsPlain (p : Piece) : Prop := p.shape = .blank ∨ ∃ kind, p.shape = .token kind

theorem IsPlain.problems {p : Piece} (h : p.IsPlain) (pos : Nat) : p.problems pos = [] := by
  obtain h | ⟨kind, h⟩ := h <;> simp [Piece.problems, h]

/-- Plain pieces leave their words, and the last one decides what a line end behind them means. -/
theorem words_plain {ps : List Piece} (h : ∀ p ∈ ps, p.IsPlain) (last : Option TokenKind)
    (rest : List Piece) : words last (ps ++ rest) = ps.filterMap word? ++
      words (((ps.filterMap word?).getLast?.map (·.1)).or last) rest := by
  induction ps generalizing last with
  | nil => simp
  | cons p ps ih =>
    obtain ⟨hp, hps⟩ := List.forall_mem_cons.1 h
    obtain ⟨shape, text⟩ := p
    obtain rfl | ⟨kind, rfl⟩ : shape = .blank ∨ ∃ kind, shape = .token kind := hp
    · exact ih hps last
    · have hword : word? ⟨.token kind, text⟩ = some (kind, String.ofList text) := rfl
      rw [List.cons_append, words_token, ih hps, List.filterMap_cons_some hword, List.getLast?_cons,
        List.cons_append]
      cases (ps.filterMap word?).getLast? <;> rfl

/-- In front of `rest` the text is cut into these words. -/
def CutsBefore (text : String) (ws : List Word) (rest : List Char) : Prop :=
  ∃ ps, (∀ p ∈ ps, p.IsPlain) ∧ ps.filterMap word? = ws ∧ pieces (text.toList ++ rest) =
    ps ++ pieces rest

/-- A text whose last word may not go on in what follows. -/
def Cuts (text : String) (ws : List Word) : Prop := ∀ rest, Breaks rest → CutsBefore text ws rest

/-- A text that stays as it is whatever follows. -/
def Sealed (text : String) (ws : List Word) : Prop := ∀ rest, CutsBefore text ws rest

section Joining

variable {a b : String} {ws ws' : List Word} {rest : List Char}

theorem CutsBefore.append (ha : CutsBefore a ws (b.toList ++ rest)) (hb : CutsBefore b ws' rest) :
    CutsBefore (a ++ b) (ws ++ ws') rest := by
  obtain ⟨ps, hps, rfl, hcut⟩ := ha
  obtain ⟨qs, hqs, rfl, hcut'⟩ := hb
  refine ⟨ps ++ qs, ?_, by simp, ?_⟩
  · simpa [or_imp, forall_and] using ⟨hps, hqs⟩
  · rw [String.toList_append, List.append_assoc, hcut, hcut', List.append_assoc]

theorem Sealed.cuts (h : Sealed a ws) : Cuts a ws := fun rest _ ↦ h rest

theorem Sealed.append (ha : Sealed a ws) (hb : Sealed b ws') : Sealed (a ++ b) (ws ++ ws') :=
  fun rest ↦ (ha _).append (hb rest)

theorem Sealed.append_cuts (ha : Sealed a ws) (hb : Cuts b ws') : Cuts (a ++ b) (ws ++ ws') :=
  fun rest hr ↦ (ha _).append (hb rest hr)

/-- The text starts with a mark or a blank. -/
def Parts (text : String) : Prop := ∃ c tail, text.toList = c :: tail ∧ inWord c = false

theorem Parts.breaks (h : Parts b) (rest : List Char) : Breaks (b.toList ++ rest) := by
  obtain ⟨c, tail, htext, hc⟩ := h
  rw [htext]
  exact Breaks.cons hc _

theorem Parts.append (h : Parts a) (b : String) : Parts (a ++ b) := by
  obtain ⟨c, tail, htext, hc⟩ := h
  exact ⟨c, tail ++ b.toList, by simp [htext], hc⟩

theorem Cuts.append (ha : Cuts a ws) (hb : Cuts b ws') (h : Parts b) : Cuts (a ++ b) (ws ++ ws') :=
  fun rest hr ↦ (ha _ (h.breaks rest)).append (hb rest hr)

theorem Cuts.append_sealed (ha : Cuts a ws) (hb : Sealed b ws') (h : Parts b) :
    Sealed (a ++ b) (ws ++ ws') :=
  fun rest ↦ (ha _ (h.breaks rest)).append (hb rest)

theorem cuts_empty : Cuts "" [] := fun _ _ ↦ ⟨[], nofun, rfl, rfl⟩

end Joining

section Lexemes

theorem cutsBefore_token {text : String} {kind : TokenKind} {rest : List Char}
    (h : pieces (text.toList ++ rest) = ⟨.token kind, text.toList⟩ :: pieces rest) :
    CutsBefore text [(kind, text)] rest := by
  refine ⟨[⟨.token kind, text.toList⟩], ?_, ?_, h⟩
  · simp [IsPlain]
  · simp [word?]

theorem cuts_word (word : String) (h : Token.isWord word = true) :
    Cuts word [(TokenKind.ofWord word, word)] :=
  fun _ hr ↦ cutsBefore_token (pieces_word h hr)

theorem cuts_identifier {word : String} (h : Token.isIdentifier word = true) :
    Cuts word [(.ident, word)] :=
  fun _ hr ↦ cutsBefore_token (pieces_identifier h hr)

theorem sealed_space : Sealed " " [] := fun rest ↦
  ⟨[⟨.blank, [' ']⟩], by simp [IsPlain], rfl, pieces_space rest⟩

theorem sealed_mark {text : String} {c : Char} {tail : List Char} {kind : TokenKind}
    (htext : text.toList = c :: tail)
    (h : ∀ rest, extent c (tail ++ rest) = (.token kind, tail.length)) :
    Sealed text [(kind, text)] := by
  intro rest
  apply cutsBefore_token
  rw [htext]
  exact pieces_lexeme tail (h rest) rfl

theorem sealed_star : Sealed "*" [(.star, "*")] := sealed_mark rfl fun _ ↦ rfl

theorem sealed_lbracket : Sealed "[" [(.lbracket, "[")] := sealed_mark rfl fun _ ↦ rfl

theorem sealed_rbracket : Sealed "]" [(.rbracket, "]")] := sealed_mark rfl fun _ ↦ rfl

theorem sealed_lparen : Sealed "(" [(.lparen, "(")] := sealed_mark rfl fun _ ↦ rfl

theorem sealed_rparen : Sealed ")" [(.rparen, ")")] := sealed_mark rfl fun _ ↦ rfl

theorem sealed_lbrace : Sealed "\x7b" [(.lbrace, "\x7b")] := sealed_mark rfl fun _ ↦ rfl

theorem sealed_rbrace : Sealed "\x7d" [(.rbrace, "\x7d")] := sealed_mark rfl fun _ ↦ rfl

theorem sealed_comma : Sealed "," [(.comma, ",")] := sealed_mark rfl fun _ ↦ rfl

theorem sealed_semicolon : Sealed ";" [(.semicolon, ";")] := sealed_mark rfl fun _ ↦ rfl

theorem sealed_ellipsis : Sealed "..." [(.ellipsis, "...")] := sealed_mark rfl fun _ ↦ rfl

theorem sealed_arrow : Sealed "<-" [(.arrow, "<-")] := sealed_mark rfl fun _ ↦ rfl

end Lexemes

end Piece

end Understudy
