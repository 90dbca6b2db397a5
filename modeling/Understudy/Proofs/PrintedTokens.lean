import Understudy.Proofs.PartitionedTexts

namespace Understudy

namespace Token

def spelling (t : Token) : String := if t.isInserted then ";" else t.text

def asPiece (t : Token) : Piece := ⟨.token t.kind, t.spelling.toList⟩

theorem spelling_of_text {t : Token} (h : t.text ≠ "") : t.spelling = t.text := by
  rw [spelling, if_neg (by simp [isInserted, h])]

theorem spelling_ne_empty {t : Token} (h : t.kind = .semicolon) : t.spelling ≠ "" := by
  unfold spelling
  split
  · decide
  · rename_i hwritten
    simpa [isInserted, h] using hwritten

end Token

/-- The texts of tokens with a blank between them, without the end of the text. -/
def printTokens (ts : List Token) : String :=
  " ".intercalate ((ts.filter (·.kind ≠ .eof)).map Token.spelling)

namespace Piece

def blankPiece : Piece := ⟨.blank, [' ']⟩

/-- The piece is cut off as it is in front of blanks and line ends and at the end of a text. -/
def StandsAlone (p : Piece) : Prop := ∀ rest, StartsSpace rest → Precede [p] rest

def spaced (ts : List Token) : List Piece := (ts.map Token.asPiece).intersperse blankPiece

variable {ts : List Token} {source : String}

theorem spaced_cons_cons (t u : Token) (ts : List Token) :
    spaced (t :: u :: ts) = t.asPiece :: blankPiece :: spaced (u :: ts) :=
  List.intersperse_cons_cons

theorem isSound_of_spaced : ∀ p ∈ spaced ts, p.IsSound := by
  induction ts with
  | nil => nofun
  | cons t ts ih =>
    cases ts with
    | nil => exact List.forall_mem_singleton.2 fun _ ↦ rfl
    | cons u ts =>
      rw [spaced_cons_cons]
      exact List.forall_mem_cons.2 ⟨fun _ ↦ rfl, List.forall_mem_cons.2 ⟨fun _ ↦ rfl, ih⟩⟩

theorem textOf_spaced : textOf (spaced ts) = (" ".intercalate (ts.map Token.spelling)).toList := by
  induction ts with
  | nil => rfl
  | cons t ts ih =>
    cases ts with
    | nil => simp [spaced, Token.asPiece]
    | cons u ts =>
      have hne : (u :: ts).map Token.spelling ≠ [] := List.cons_ne_nil _ _
      rw [spaced_cons_cons, textOf_cons, textOf_cons, ih, List.map_cons (a := t),
        String.intercalate_cons_of_ne_nil hne,
        String.toList_append, String.toList_append, List.append_assoc]
      rfl

theorem precede_spaced (h : ∀ t ∈ ts, t.asPiece.StandsAlone) : Precede (spaced ts) [] := by
  induction ts with
  | nil => exact .nil
  | cons t ts ih =>
    obtain ⟨ht, hts⟩ := List.forall_mem_cons.1 h
    cases ts with
    | nil => exact ht [] startsSpace_nil
    | cons u ts =>
      rw [spaced_cons_cons]
      refine Precede.cons_of (ht _ ?_) ((precede_blank rfl).cons_of (ih hts))
      exact startsSpace_cons rfl

theorem words_spaced (last : Option TokenKind) (ts : List Token) :
    words last (spaced ts) =
      ts.map (fun t ↦ (t.kind, t.spelling)) ++ words ((ts.getLast?.map (·.kind)).or last) [] := by
  induction ts generalizing last with
  | nil => rfl
  | cons t ts ih =>
    cases ts with
    | nil => simp [spaced, Token.asPiece]
    | cons u ts =>
      rw [spaced_cons_cons, blankPiece, Token.asPiece, words_token, words_blank, ih,
        List.getLast?_cons_cons]
      simp [List.getLast?_cons]

theorem asPiece_inserted (x : Nat) :
    Token.asPiece ⟨.semicolon, ⟨x, x⟩, ""⟩ = ⟨.token .semicolon, [';']⟩ := by
  simp [Token.asPiece, Token.spelling, Token.isInserted]

theorem standsAlone_of_mem (h : (lex source).diagnostics = []) {t : Token}
    (ht : t ∈ (lex source).tokens) (hkind : t.kind ≠ .eof) : t.asPiece.StandsAlone := by
  cases gives_lex ht with
  | eof => exact absurd rfl hkind
  | @lexeme before kind text x hcut hx =>
    obtain ⟨rest, -, hform⟩ := exists_hasForm hcut
    have hpiece : Token.asPiece ⟨kind, ⟨x, x + byteCount text⟩, String.ofList text⟩ =
        ⟨.token kind, text⟩ := by
      have hne : text ≠ [] := hform.text_ne_nil
      rw [Token.asPiece, Token.spelling_of_text (by simpa using hne), String.toList_ofList]
    obtain ⟨after, hafter⟩ := hcut
    have hall := (precede_source h).1
    rw [← hafter, List.append_assoc] at hall
    obtain ⟨-, hlater⟩ := hall.of_append
    rw [hpiece]
    refine fun rest' hrest' ↦ hlater.of_append.1.space (u := []) hrest' ?_
    rintro - _ ⟨⟩
    rfl
  | lineEnd | textEnd =>
    rw [asPiece_inserted]
    exact fun rest _ ↦ .cons rfl rfl .nil

theorem pieces_printTokens (h : (lex source).diagnostics = []) {last : Token}
    (hts : (lex source).tokens = ts ++ [last]) (hlast : last.kind = .eof)
    (hall : ∀ t ∈ ts, t.kind ≠ .eof) :
    pieces (printTokens (lex source).tokens).toList = spaced ts := by
  have hfilter : (lex source).tokens.filter (·.kind ≠ .eof) = ts := by
    rw [hts, List.filter_append, List.filter_eq_self.2 fun t ht ↦ decide_eq_true (hall t ht)]
    simp [hlast]
  have halone : ∀ t ∈ ts, t.asPiece.StandsAlone :=
    fun t ht ↦ standsAlone_of_mem h (by simp [hts, ht]) (hall t ht)
  have hcut := (precede_spaced halone).pieces
  rw [printTokens, hfilter, ← textOf_spaced]
  rwa [List.append_nil, pieces, List.append_nil] at hcut

end Piece

/-- A text without a report has the same tokens as its tokens written down with blanks between them,
in number, kind and text, if an inserted semicolon counts as a written one. No semicolon comes in
when they are read again. -/
theorem lex_printTokens {source : String} (h : (lex source).diagnostics = []) :
    (lex (printTokens (lex source).tokens)).diagnostics = [] ∧
    (lex (printTokens (lex source).tokens)).tokens.map Token.word =
      (lex source).tokens.map (fun t ↦ (t.kind, t.spelling)) ∧
    ∀ t ∈ (lex (printTokens (lex source).tokens)).tokens, t.isInserted = false := by
  obtain ⟨ts, hts, hall, hends⟩ := ends_in_eof source
  have hpieces := Piece.pieces_printTokens h hts rfl hall
  have hwords : (lex (printTokens (lex source).tokens)).tokens.map Token.word =
      (lex source).tokens.map (fun t ↦ (t.kind, t.spelling)) := by
    rw [map_word_lex, hpieces, Piece.words_spaced, Option.or_none, Piece.words, hends, hts,
      List.map_append]
    rfl
  refine ⟨?_, hwords, fun t ht ↦ ?_⟩
  · rw [lex, hpieces]
    exact Piece.diagnostics_eq_nil Piece.isSound_of_spaced 0
  · have hword : t.word ∈ (lex source).tokens.map (fun t ↦ (t.kind, t.spelling)) :=
      hwords ▸ List.mem_map_of_mem ht
    obtain ⟨u, -, hu⟩ := List.mem_map.1 hword
    obtain ⟨hkind, htext⟩ := Prod.mk.inj hu
    rw [Token.isInserted, Bool.and_eq_false_imp]
    intro hsemi
    have hne := Token.spelling_ne_empty (hkind.trans (beq_iff_eq.1 hsemi))
    simpa [htext] using hne

/-- Tokens without a blank between them, a line end that counts as a semicolon, and a written one
behind it. -/
def tightTokens : String := "chan<-\"\\\"\"...1_0a//b\n;"

theorem lex_printTokens_tightTokens : (lex tightTokens).diagnostics = [] ∧
    printTokens (lex tightTokens).tokens = "chan <- \"\\\"\" ... 1_0 a ; ;" ∧
    (lex "chan <- \"\\\"\" ... 1_0 a ; ;").tokens.map Token.word =
      [(.chanWord, "chan"), (.arrow, "<-"),
      (.str, "\"\\\"\""), (.ellipsis, "..."), (.int, "1_0"), (.ident, "a"), (.semicolon, ";"),
      (.semicolon, ";"), (.eof, "")] := by
  have hsound : (lex tightTokens).diagnostics = [] := by decide +kernel
  have hprint : printTokens (lex tightTokens).tokens = "chan <- \"\\\"\" ... 1_0 a ; ;" := by
    decide +kernel
  have hwords := (lex_printTokens hsound).2.1
  rw [hprint] at hwords
  exact ⟨hsound, hprint, hwords.trans (by decide +kernel)⟩

end Understudy
