import Mathlib.Data.List.DropRight
import Understudy.Proofs.FileReading

namespace Understudy

namespace Literal

/-- How a character is written between double quotes. -/
def escapeChar : Char → List Char
  | '"' => ['\\', '"']
  | '\\' => ['\\', '\\']
  | '\n' => ['\\', 'n']
  | '\t' => ['\\', 't']
  | '\r' => ['\\', 'r']
  | c => [c]

def escape (text : List Char) : List Char := text.flatMap escapeChar

def quote (text : String) : String := String.ofList ('"' :: (escape text.toList ++ ['"']))

def backquote (text : String) : String := String.ofList ('\x60' :: (text.toList ++ ['\x60']))

theorem escapeChar_cases (c : Char) : (escapeChar c = [c] ∧ c ≠ '"' ∧ c ≠ '\\' ∧ c ≠ '\n') ∨
    ∃ d, escapeChar c = ['\\', d] ∧ (d = '"' → c = '"') ∧
      ∀ rest, unescape ('\\' :: d :: rest) = c :: unescape rest := by
  unfold escapeChar
  split
  · exact .inr ⟨'"', rfl, fun _ ↦ rfl, fun _ ↦ rfl⟩
  · exact .inr ⟨'\\', rfl, nofun, fun _ ↦ rfl⟩
  · exact .inr ⟨'n', rfl, nofun, fun _ ↦ rfl⟩
  · exact .inr ⟨'t', rfl, nofun, fun _ ↦ rfl⟩
  · exact .inr ⟨'r', rfl, nofun, fun _ ↦ rfl⟩
  · exact .inl ⟨rfl, ‹_›, ‹_›, ‹_›⟩

theorem escape_cons (c : Char) (text : List Char) :
    escape (c :: text) = escapeChar c ++ escape text := rfl

theorem escape_concat (text : List Char) (c : Char) :
    escape (text ++ [c]) = escape text ++ escapeChar c := by
  simp [escape]

theorem unescape_escape_append (text rest : List Char) :
    unescape (escape text ++ rest) = text ++ unescape rest := by
  induction text with
  | nil => rfl
  | cons c text ih =>
    rw [escape_cons, List.append_assoc]
    obtain ⟨hself, -, hne, -⟩ | ⟨d, hpair, -, hdecode⟩ := escapeChar_cases c
    · rw [hself, List.singleton_append, unescape_plain_cons hne, ih, List.cons_append]
    · rw [hpair, List.cons_append, List.cons_append, List.nil_append, hdecode, ih, List.cons_append]

theorem unescape_escape (text : List Char) : unescape (escape text) = text := by
  simpa [unescape] using unescape_escape_append text []

theorem head?_escape (text : List Char) : ∀ c ∈ (escape text).head?, c ≠ '"' := by
  cases text with
  | nil => nofun
  | cons c text =>
    rw [escape_cons]
    obtain ⟨hself, hne, -⟩ | ⟨d, hpair, -⟩ := escapeChar_cases c
    · rw [hself]
      rintro x ⟨⟩
      exact hne
    · rw [hpair]
      rintro x ⟨⟩
      decide

theorem rdropWhile_escape {text : List Char} (h : text.getLast? ≠ some '"') :
    (escape text).rdropWhile (· = '"') = escape text := by
  induction text using List.reverseRecOn with
  | nil => rfl
  | append_singleton text c =>
    have hc : c ≠ '"' := by simpa using h
    rw [escape_concat]
    obtain ⟨hself, hne, -⟩ | ⟨d, hpair, hquote, -⟩ := escapeChar_cases c
    · rw [hself, List.rdropWhile_concat_neg _ _ _ (by simpa using hne)]
    · have hd : d ≠ '"' := fun hd ↦ hc (hquote hd)
      rw [hpair, List.append_cons, List.rdropWhile_concat_neg _ _ _ (by simpa using hd)]

theorem dropQuotes_quote {text : List Char} (h : text.getLast? ≠ some '"') :
    dropQuotes ('"' :: (escape text ++ ['"'])) = escape text := by
  change List.rdropWhile (· = '"') (List.dropWhile (· = '"') ('"' :: (escape text ++ ['"']))) =
    escape text
  rw [List.dropWhile_cons, if_pos (by decide), List.dropWhile_append,
    dropWhile_of_head? (head?_escape text)]
  split
  · rename_i hempty
    rw [List.isEmpty_iff.1 hempty]
    rfl
  · rw [List.rdropWhile_concat_pos _ _ _ (by decide), rdropWhile_escape h]

/-- A quote at the end of the text goes as well, and its backslash stays behind. -/
theorem dropQuotes_quote_concat (text : List Char) :
    dropQuotes ('"' :: (escape (text ++ ['"']) ++ ['"'])) = escape text ++ ['\\'] := by
  have hlast : escape (text ++ ['"']) ++ ['"'] = escape text ++ ['\\'] ++ ['"'] ++ ['"'] := by
    rw [escape_concat, List.append_assoc, List.append_assoc, List.append_assoc]
    rfl
  have hfront : ∀ c ∈ (escape text ++ ['\\'] ++ ['"'] ++ ['"']).head?, c ≠ '"' := by
    have h := head?_escape text
    cases he : escape text with
    | nil => simp
    | cons c rest => rwa [he] at h
  change List.rdropWhile (· = '"') (List.dropWhile (· = '"') _) = _
  rw [hlast, List.dropWhile_cons, if_pos (by decide), dropWhile_of_head? hfront,
    List.rdropWhile_concat_pos _ _ _ (by decide), List.rdropWhile_concat_pos _ _ _ (by decide),
    List.rdropWhile_concat_neg _ _ _ (by decide)]

def withoutEndQuote (text : String) : String :=
  if text.toList.getLast? = some '"' then String.ofList text.toList.dropLast else text

theorem string_quote (text : String) : string (quote text) = withoutEndQuote text := by
  have hback (tail : List Char) : inBackquotes? ('"' :: tail) = none := rfl
  rw [string, quote, String.toList_ofList, hback, withoutEndQuote]
  dsimp only
  split
  · rename_i hlast
    obtain ⟨init, hinit⟩ := List.getLast?_eq_some_iff.1 hlast
    rw [hinit, dropQuotes_quote_concat, unescape_escape_append, List.dropLast_concat]
    exact congrArg String.ofList (List.append_nil init)
  · rename_i hlast
    rw [dropQuotes_quote hlast, unescape_escape, String.ofList_toList]

theorem withoutEndQuote_eq_iff {text : String} :
    withoutEndQuote text = text ↔ text.toList.getLast? ≠ some '"' := by
  rw [withoutEndQuote]
  split
  · rename_i hlast
    obtain ⟨init, hinit⟩ := List.getLast?_eq_some_iff.1 hlast
    refine iff_of_false (fun heq ↦ ?_) (not_not_intro hlast)
    have hlength := congrArg (List.length ∘ String.toList) heq
    simp [hinit] at hlength
  · exact iff_of_true rfl ‹_›

theorem string_backquote (text : String) : string (backquote text) = text := by
  have hinside : inBackquotes? ('\x60' :: (text.toList ++ ['\x60'])) = some text.toList := by
    simp [inBackquotes?]
  rw [string, backquote, String.toList_ofList, hinside]
  exact String.ofList_toList

end Literal

namespace Piece

open Literal

theorem quotedTail_escape (text rest : List Char) :
    quotedTail (escape text ++ '"' :: rest) = (true, (escape text).length + 1) := by
  induction text with
  | nil => rfl
  | cons c text ih =>
    rw [escape_cons, List.append_assoc, List.length_append]
    obtain ⟨hself, hquote, hback, hnewline⟩ | ⟨d, hpair, -⟩ := escapeChar_cases c
    · rw [hself, List.singleton_append, quotedTail, ih]
      · simp only [List.length_singleton, Nat.add_comm 1]
      · rintro rfl
        exact hquote rfl
      · rintro rfl
        exact hnewline rfl
      · rintro _ _ rfl
        exact absurd rfl hback
    · rw [hpair]
      change quotedTail ('\\' :: d :: (escape text ++ '"' :: rest)) = _
      rw [quotedTail, ih]
      exact congrArg (Prod.mk true) (by simp only [List.length_cons, List.length_nil]; omega)

theorem rawTail_plain {text : List Char} (h : '\x60' ∉ text) (rest : List Char) :
    rawTail (text ++ '\x60' :: rest) = (true, text.length + 1) := by
  induction text with
  | nil => rfl
  | cons c text ih =>
    rw [List.mem_cons, not_or] at h
    rw [List.cons_append, rawTail, if_neg (Ne.symm h.1), ih h.2]
    rfl

end Piece

/-- Whatever follows, the text is one string literal. -/
def IsLiteral (literal : String) : Prop :=
  ∀ rest, Piece.pieces (literal.toList ++ rest) = ⟨.token .str, literal.toList⟩ :: Piece.pieces rest

theorem isLiteral_of_extent {literal : String} {c : Char} {tail : List Char}
    (h : literal.toList = c :: tail)
    (hextent : ∀ rest, Piece.extent c (tail ++ rest) = (.token .str, tail.length)) :
    IsLiteral literal := by
  intro rest
  rw [h]
  exact Piece.pieces_lexeme tail (hextent rest) rfl

theorem isLiteral_quote (text : String) : IsLiteral (Literal.quote text) := by
  refine isLiteral_of_extent String.toList_ofList fun rest ↦ Piece.extent_eq_iff.2 (.quoted rfl ?_)
  rw [List.append_assoc, List.singleton_append, Piece.quotedTail_escape, List.length_append]
  rfl

theorem isLiteral_backquote {text : String} (h : '\x60' ∉ text.toList) :
    IsLiteral (Literal.backquote text) := by
  refine isLiteral_of_extent String.toList_ofList fun rest ↦ Piece.extent_eq_iff.2 (.raw rfl ?_)
  rw [List.append_assoc, List.singleton_append, Piece.rawTail_plain h, List.length_append]
  rfl

section Lexing

variable {literal package : String}

def importTokens (pos : Nat) (literal : String) : List Token :=
  let stop := pos + 7 + literal.utf8ByteSize
  [⟨.importWord, ⟨pos, pos + 6⟩, "import"⟩, ⟨.str, ⟨pos + 7, stop⟩, literal⟩,
    ⟨.semicolon, ⟨stop, stop⟩, ""⟩, ⟨.eof, ⟨stop, stop⟩, ""⟩]

/-- The tokens of a package clause, with the line end behind it. -/
def packageTokens (package : String) : List Token :=
  let stop := 8 + package.utf8ByteSize
  [⟨.packageWord, ⟨0, 7⟩, "package"⟩, ⟨.ident, ⟨8, stop⟩, package⟩, ⟨.semicolon, ⟨stop, stop⟩, ""⟩]

theorem pieces_importLiteral (h : IsLiteral literal) : Piece.pieces ("import " ++ literal).toList =
    [⟨.token .importWord, "import".toList⟩, ImportRegistry.spacePiece,
      ⟨.token .str, literal.toList⟩] := by
  have hliteral := h []
  rw [List.append_nil, Piece.pieces] at hliteral
  have hword : Token.isWord "import" = true := by decide
  have hspaced := ImportRegistry.pieces_spaced hword literal.toList
  rw [hliteral] at hspaced
  rw [String.toList_append]
  exact hspaced

theorem size_toList (shape : Shape) (text : String) :
    Piece.size ⟨shape, text.toList⟩ = text.utf8ByteSize := by
  rw [Piece.size, Piece.byteCount_eq, String.ofList_toList]

theorem tokens_importLiteral (h : IsLiteral literal) (last : Option TokenKind) (pos : Nat) :
    Piece.tokens (pos + 7 + literal.utf8ByteSize) last pos
      (Piece.pieces ("import " ++ literal).toList) = importTokens pos literal := by
  rw [pieces_importLiteral h]
  simp only [Piece.tokens, size_toList, ImportRegistry.spacePiece, String.ofList_toList]
  rfl

theorem tokens_packagePieces (size : Nat) (package : String) (rest : List Piece) :
    Piece.tokens size none 0 (ImportRegistry.packagePieces package ++ rest) =
      packageTokens package ++ Piece.tokens size (some .semicolon)
        (9 + package.utf8ByteSize) rest := by
  have hstop : 7 + 1 + package.utf8ByteSize + 1 = 9 + package.utf8ByteSize := by omega
  simp only [ImportRegistry.packagePieces, ImportRegistry.spacePiece, List.cons_append,
    List.nil_append, Piece.tokens, size_toList, String.ofList_toList, Nat.zero_add]
  rw [← hstop]
  rfl

theorem lex_import (h : IsLiteral literal) :
    lex ("import " ++ literal) = ⟨importTokens 0 literal, []⟩ := by
  have hsize : ("import " ++ literal).utf8ByteSize = 0 + 7 + literal.utf8ByteSize := by
    rw [String.utf8ByteSize_append]
    rfl
  rw [lex, hsize, tokens_importLiteral h, pieces_importLiteral h]
  rfl

def importFile (package literal : String) : String :=
  "package " ++ package ++ "\n" ++ ("import " ++ literal)

theorem lex_importFile (hp : Token.isIdentifier package = true) (h : IsLiteral literal) :
    lex (importFile package literal) =
      ⟨packageTokens package ++ importTokens (9 + package.utf8ByteSize) literal, []⟩ := by
  have hpieces : Piece.pieces (importFile package literal).toList =
      ImportRegistry.packagePieces package ++ Piece.pieces ("import " ++ literal).toList := by
    rw [← ImportRegistry.pieces_package hp]
    simp [importFile]
  have hsize : (importFile package literal).utf8ByteSize =
      9 + package.utf8ByteSize + 7 + literal.utf8ByteSize := by
    simp only [importFile, String.utf8ByteSize_append]
    change 8 + package.utf8ByteSize + 1 + (7 + literal.utf8ByteSize) = _
    omega
  have hdiagnostics : Piece.diagnostics 0 (ImportRegistry.packagePieces package ++
      Piece.pieces ("import " ++ literal).toList) = [] := by
    rw [pieces_importLiteral h]
    rfl
  rw [lex, hsize, hpieces, hdiagnostics, tokens_packagePieces, tokens_importLiteral h]

end Lexing

namespace Reader

section Clauses

variable {rest : List Token} {l : Nat}

theorem packageClause_done {p i e : Token} (hp : p.kind = .packageWord) (hi : i.kind = .ident)
    (he : e.kind = .semicolon) :
    packageClause ⟨p :: i :: e :: rest, l⟩ = .done i.text ⟨rest, e.span.stop⟩ := by
  have hskip : ∀ x ∈ (p :: i :: e :: rest).head?, x.kind ≠ .semicolon := head?_ne hp (by decide)
  rw [packageClause, bind_done (skipSemicolons_of_head? hskip), bind_done (expect_cons hp _),
    bind_done (ident_cons hi _)]
  dsimp only
  rw [bind_done (terminator_cons he _), pure_apply]

theorem clause_done {α : Type} {item : Reader α} {a : α} {ts : List Token} {e : Token} {stop : Nat}
    (hitem : item ⟨ts, l⟩ = .done a ⟨e :: rest, stop⟩) (hts : ∀ x ∈ ts.head?, x.kind ≠ .lparen)
    (he : e.kind = .semicolon) (itemEnd close clauseEnd : String) :
    clause itemEnd close clauseEnd item ⟨ts, l⟩ = .done ⟨[a], none⟩ ⟨rest, e.span.stop⟩ := by
  have hsingle : singleItem item ⟨ts, l⟩ = .done ⟨[a], none⟩ ⟨e :: rest, stop⟩ := by
    rw [singleItem, bind_done (attempt_done hitem)]
    rfl
  rw [clause, bind_done (eat_of_head? hts)]
  simp only [Bool.false_eq_true, if_false]
  rw [bind_done hsingle]
  dsimp only
  rw [bind_done (attempt_done (terminator_cons he _))]
  rfl

variable {α : Type} {done : Cursor → Bool} {next : Reader (Clause α)}

theorem clauses_stop {ts : List Token} (hskip : ∀ x ∈ ts.head?, x.kind ≠ .semicolon)
    (hdone : done ⟨ts, l⟩ = true)
    (n : Nat) : clauses done next (n + 1) ⟨ts, l⟩ = .done ([], []) ⟨ts, l⟩ := by
  rw [clauses, bind_done (skipSemicolons_of_head? hskip), bind_cursor,
    if_pos hdone]
  rfl

theorem clauses_step {ts : List Token} {a : α} {as : List α} {c c' : Cursor} {n : Nat}
    (hskip : ∀ x ∈ ts.head?, x.kind ≠ .semicolon) (hdone : done ⟨ts, l⟩ = false)
    (hnext : next ⟨ts, l⟩ = .done ⟨[a], none⟩ c)
    (hrest : clauses done next n c = .done (as, []) c') :
    clauses done next (n + 1) ⟨ts, l⟩ = .done (a :: as, []) c' := by
  rw [clauses, bind_done (skipSemicolons_of_head? hskip), bind_cursor,
    hdone, if_neg Bool.false_ne_true, bind_done hnext]
  dsimp only [Option.isSome_none]
  rw [if_neg Bool.false_ne_true]
  exact bind_done hrest

end Clauses

variable {m s e f : Token} {l : Nat}

def emptyPath (span : Span) : Diagnostic := .error "import path is empty" (some span)

/-- An import that is only a literal: its path, or that it has none. -/
def literalSpec (s : Token) : Except Diagnostic ImportSpec :=
  if Literal.string s.text = "" then .error (emptyPath s.span)
    else .ok ⟨none, Literal.string s.text, s.span⟩

theorem importSpec_literal (rest : List Token) (l : Nat) (hs : s.kind = .str)
  (hle : s.span.IsOrdered) :
    importSpec ⟨s :: rest, l⟩ = match literalSpec s with
      | .ok spec => .done spec ⟨rest, s.span.stop⟩
      | .error d => .rejected d ⟨rest, s.span.stop⟩ := by
  have hident : Cursor.isAt ⟨s :: rest, l⟩ .ident = false := by simp [Cursor.isAt, hs]
  have hdot : Cursor.isAt ⟨s :: rest, l⟩ .dot = false := by simp [Cursor.isAt, hs]
  rw [importSpec, bind_cursor]
  simp only [hident, hdot, Bool.false_eq_true, if_false, pure_bind]
  rw [bind_done (expect_cons hs _), literalSpec]
  by_cases hempty : Literal.string s.text = ""
  · rw [if_pos hempty]
    simp only [String.isEmpty_iff.2 hempty, if_true]
    rfl
  · rw [if_neg hempty]
    simp only [String.isEmpty_eq_false_iff.2 hempty, Bool.false_eq_true, if_false]
    exact bind_done (range_of_le hle _)

theorem clauses_literal (hm : m.kind = .importWord) (hs : s.kind = .str) (he : e.kind = .semicolon)
    (hf : f.kind = .eof) (hle : s.span.IsOrdered) (n : Nat) :
    clauses (!·.isAt .importWord) importClause (n + 2) ⟨[m, s, e, f], l⟩ =
      .done (match literalSpec s with
      | .ok spec => ([spec], [])
      | .error d => ([], [d])) ⟨[f], e.span.stop⟩ := by
  have hspec := importSpec_literal [e, f] m.span.stop hs hle
  have hparen : ∀ x ∈ [s, e, f].head?, x.kind ≠ .lparen := head?_ne hs (by decide)
  have hskip : ∀ x ∈ [m, s, e, f].head?, x.kind ≠ .semicolon := head?_ne hm (by decide)
  have hdone : Cursor.isAt ⟨[m, s, e, f], l⟩ .importWord = true := by simp [Cursor.isAt, hm]
  have hend : clauses (!·.isAt .importWord) importClause (n + 1) ⟨[f], e.span.stop⟩ =
      .done ([], []) ⟨[f], e.span.stop⟩ :=
    clauses_stop (head?_ne hf (by decide)) (by simp [Cursor.isAt, hf]) n
  cases hliteral : literalSpec s with
  | ok spec =>
    rw [hliteral] at hspec
    have hclause : importClause ⟨[m, s, e, f], l⟩ = .done ⟨[spec], none⟩ ⟨[f], e.span.stop⟩ := by
      rw [importClause, bind_done (eat_cons hm)]
      exact clause_done hspec hparen he _ _ _
    exact clauses_step hskip (by simp [hdone]) hclause hend
  | error d =>
    rw [hliteral] at hspec
    have hclause : importClause ⟨[m, s, e, f], l⟩ = .done ⟨[], some d⟩ ⟨[e, f], s.span.stop⟩ := by
      have hsingle : singleItem importSpec ⟨[s, e, f], m.span.stop⟩ =
          .done ⟨[], some d⟩ ⟨[e, f], s.span.stop⟩ := by
        have hattempt : attempt importSpec ⟨[s, e, f], m.span.stop⟩ =
            .done (.error d) ⟨[e, f], s.span.stop⟩ := by
          rw [attempt, hspec]
        rw [singleItem, bind_done hattempt]
        rfl
      rw [importClause, bind_done (eat_cons hm), clause, bind_done (eat_of_head? hparen)]
      simp only [Bool.false_eq_true, if_false]
      rw [bind_done hsingle]
      rfl
    have hresume : resume ⟨[e, f], s.span.stop⟩ = .done () ⟨[f], e.span.stop⟩ := by
      simp [resume, Cursor.resume, he, TokenKind.opensBracket, TokenKind.closesBracket]
    rw [clauses, bind_done (skipSemicolons_of_head? hskip), bind_cursor, hdone, Bool.not_true,
      if_neg Bool.false_ne_true,
      bind_done hclause]
    dsimp only [Option.isSome_some]
    rw [if_pos rfl, bind_done hresume, bind_done hend]
    rfl

theorem file_literal {p i b : Token} (hp : p.kind = .packageWord) (hi : i.kind = .ident)
  (hb : b.kind = .semicolon)
    (hm : m.kind = .importWord) (hs : s.kind = .str) (he : e.kind = .semicolon) (hf : f.kind = .eof)
    (hle : s.span.IsOrdered) :
    file (.ofTokens [p, i, b, m, s, e, f]) = .done (match literalSpec s with
      | .ok spec => ⟨⟨i.text, [spec], []⟩, []⟩
      | .error d => ⟨⟨i.text, [], []⟩, [d]⟩) ⟨[f], e.span.stop⟩ := by
  have himports : bounded (clauses (!·.isAt .importWord) importClause) ⟨[m, s, e, f], b.span.stop⟩ =
      _ :=
    bounded_done (clauses_literal hm hs he hf hle 3)
  have hdecls : bounded (clauses (·.isAt .eof) declClause) ⟨[f], e.span.stop⟩ = _ :=
    bounded_done (clauses_stop (head?_ne hf (by decide)) (by simp [Cursor.isAt, hf]) _)
  rw [file, Cursor.ofTokens, bind_done (attempt_done (packageClause_done hp hi hb))]
  dsimp only
  rw [pure_bind]
  dsimp only
  rw [bind_done himports]
  cases literalSpec s <;>
  · dsimp only
    rw [bind_done hdecls]
    rfl

end Reader

section Reading

variable {package literal : String}

def literalSpan (package literal : String) : Span :=
  ⟨16 + package.utf8ByteSize, 16 + package.utf8ByteSize + literal.utf8ByteSize⟩

/-- The file is read without a report exactly if the literal has a path, and that is the path
of its import. -/
theorem readSource_importFile (hp : Token.isIdentifier package = true) (h : IsLiteral literal) :
    readSource (importFile package literal) =
      if Literal.string literal = "" then ⟨none, [Reader.emptyPath (literalSpan package literal)]⟩
      else ⟨some ⟨package, [⟨none, Literal.string literal, literalSpan package literal⟩], []⟩,
        []⟩ := by
  have hspan :
      (⟨9 + package.utf8ByteSize + 7, 9 + package.utf8ByteSize + 7 + literal.utf8ByteSize⟩ : Span) =
      literalSpan package literal := by
    rw [literalSpan, Nat.add_right_comm]
  have hfile :
      Reader.file (.ofTokens
        (packageTokens package ++ importTokens (9 + package.utf8ByteSize) literal)) = _ :=
    Reader.file_literal rfl rfl rfl rfl rfl rfl rfl (Nat.le_add_right ..)
  rw [hspan, Reader.literalSpec] at hfile
  rw [readSource, lex_importFile hp h, parse, hfile]
  by_cases hempty : Literal.string literal = "" <;> simp [hempty]

theorem withoutEndQuote_eq_empty_iff {path : String} (hne : path ≠ "") :
    Literal.withoutEndQuote path = "" ↔ path = "\"" := by
  constructor
  · intro h
    rw [Literal.withoutEndQuote] at h
    split at h
    · rename_i hlast
      obtain ⟨init, hinit⟩ := List.getLast?_eq_some_iff.1 hlast
      have hnil : init = [] := by simpa [hinit] using h
      rw [← String.toList_inj, hinit, hnil]
      rfl
    · exact absurd h hne
  · rintro rfl
    decide

theorem readSource_quote (hp : Token.isIdentifier package = true) {path : String}
    (hne : path ≠ "") : readSource (importFile package (Literal.quote path)) =
      if path = "\"" then ⟨none, [Reader.emptyPath (literalSpan package (Literal.quote path))]⟩
      else ⟨some ⟨package,
        [⟨none, Literal.withoutEndQuote path, literalSpan package (Literal.quote path)⟩], []⟩,
          []⟩ := by
  rw [readSource_importFile hp (isLiteral_quote path), Literal.string_quote]
  simp only [withoutEndQuote_eq_empty_iff hne]

theorem readSource_backquote (hp : Token.isIdentifier package = true) {path : String}
    (hne : path ≠ "") (hplain : '\x60' ∉ path.toList) :
    readSource (importFile package (Literal.backquote path)) =
      ⟨some ⟨package, [⟨none, path, literalSpan package (Literal.backquote path)⟩], []⟩, []⟩ := by
  rw [readSource_importFile hp (isLiteral_backquote hplain), Literal.string_backquote, if_neg hne]

/-- A path between double quotes is one token. It is read back exactly if it does not end in a
quote; otherwise that quote is lost, and the path that was only this quote is reported. A path
between backquotes is one token and always read back. -/
theorem pathLiterals_denote {path : String} (hp : Token.isIdentifier package = true)
    (hne : path ≠ "") :
    lex ("import " ++ Literal.quote path) = ⟨importTokens 0 (Literal.quote path), []⟩ ∧
    readSource (importFile package (Literal.quote path)) =
      (if path = "\"" then ⟨none, [Reader.emptyPath (literalSpan package (Literal.quote path))]⟩
      else ⟨some ⟨package,
        [⟨none, Literal.withoutEndQuote path, literalSpan package (Literal.quote path)⟩], []⟩,
          []⟩) ∧
    ((∃ span, readSource (importFile package (Literal.quote path)) =
      ⟨some ⟨package, [⟨none, path, span⟩], []⟩, []⟩) ↔ path.toList.getLast? ≠ some '"') ∧
    ('\x60' ∉ path.toList →
      lex ("import " ++ Literal.backquote path) = ⟨importTokens 0 (Literal.backquote path), []⟩ ∧
      readSource (importFile package (Literal.backquote path)) =
        ⟨some ⟨package, [⟨none, path, literalSpan package (Literal.backquote path)⟩], []⟩,
          []⟩) := by
  have hquote := readSource_quote hp hne
  refine ⟨lex_import (isLiteral_quote path), hquote, ?_, fun hplain ↦ ?_⟩
  · rw [← Literal.withoutEndQuote_eq_iff, hquote]
    split
    · rename_i honly
      subst honly
      exact iff_of_false (fun ⟨_, h⟩ ↦ (by cases h)) (by decide)
    · constructor
      · rintro ⟨span, h⟩
        simp only [Reading.mk.injEq, Option.some.injEq, SourceFile.mk.injEq, List.cons.injEq,
          ImportSpec.mk.injEq] at h
        exact h.1.2.1.1.2.1
      · intro h
        exact ⟨_, by rw [h]⟩
  · exact ⟨lex_import (isLiteral_backquote hplain), readSource_backquote hp hne hplain⟩

/-- A path with a quote inside and one at its end, behind a backslash. -/
def quotedPath : String := "a\"/b\\\""

theorem pathLiterals_denote_quotedPath : Token.isIdentifier "shop" = true ∧ quotedPath ≠ "" ∧
    Literal.quote quotedPath = "\"a\\\"/b\\\\\\\"\"" ∧
    readSource (importFile "shop" (Literal.quote quotedPath)) =
      ⟨some ⟨"shop", [⟨none, "a\"/b\\", ⟨20, 31⟩⟩], []⟩, []⟩ ∧
    readSource (importFile "shop" (Literal.backquote quotedPath)) =
      ⟨some ⟨"shop", [⟨none, quotedPath, ⟨20, 28⟩⟩], []⟩, []⟩ := by
  have hp : Token.isIdentifier "shop" = true := by decide
  obtain ⟨-, hquote, -, hraw⟩ := pathLiterals_denote hp (show quotedPath ≠ "" by decide)
  have hlost : Literal.withoutEndQuote quotedPath = "a\"/b\\" := by decide
  have hspan : literalSpan "shop" (Literal.quote quotedPath) = ⟨20, 31⟩ := by decide
  have hrawSpan : literalSpan "shop" (Literal.backquote quotedPath) = ⟨20, 28⟩ := by decide
  rw [if_neg (by decide), hlost, hspan] at hquote
  have hback := (hraw (by decide)).2
  rw [hrawSpan] at hback
  exact ⟨hp, by decide, by decide, hquote, hback⟩

end Reading

end Understudy
