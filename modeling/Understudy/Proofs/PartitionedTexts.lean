import Understudy.Proofs.FileSpans
import Understudy.Proofs.PieceForms
import Understudy.Proofs.ScannedBytes

namespace Understudy

/-- The range starts and ends between characters, or at an end of the text. -/
def Span.OnCharacters (source : String) (s : Span) : Prop :=
  (⟨s.start⟩ : String.Pos.Raw).IsValid source ∧ (⟨s.stop⟩ : String.Pos.Raw).IsValid source

theorem Scanner.RestAt.onCharacters {source : String} {i : Nat} {text rest : List Char}
    (h : RestAt source i (text ++ rest)) : Span.OnCharacters source ⟨i, i + Piece.byteCount text⟩ :=
  ⟨h.isValid, h.drop.isValid⟩

namespace Token

def isInserted (t : Token) : Bool := t.kind == .semicolon && t.text == ""

def Holds (t : Token) (x : Nat) : Prop := t.span.start ≤ x ∧ x < t.span.stop

end Token

open Piece

def IsSpaceAt (source : String) (x : Nat) : Prop :=
  ∃ u c v, source.toList = u ++ c :: v ∧ byteCount u = x ∧ isSpace c = true

def InComment (source : String) (x : Nat) : Prop :=
  ∃ before text rest, HasByte (pieces source.toList) x before ⟨.comment, text⟩ ∧
    source.toList = textOf before ++ (text ++ rest) ∧ IsComment text rest

/-- At byte `x` the text ends or a line of it does, or a comment begins that a line ends in. -/
def EndsLineAt (source : String) (x : Nat) : Prop :=
  ∃ u v, source.toList = u ++ v ∧ byteCount u = x ∧
    (v = [] ∨ v.head? = some '\n' ∨ ∃ text rest, v = text ++ rest ∧
      IsComment text rest ∧ '\n' ∈ text)

section Division

variable {source : String} {before : List Piece} {p : Piece} {text : List Char} {x : Nat}
    {t : Token}

theorem endsLineAt_of_cut (h : before ++ [p] <+: pieces source.toList) (hp : p.endsLine = true) :
    EndsLineAt source (byteCount (textOf before)) := by
  obtain ⟨rest, htext, hform⟩ := exists_hasForm h
  refine ⟨textOf before, p.text ++ rest, htext, rfl, .inr ?_⟩
  obtain ⟨shape, text⟩ := p
  cases hform with
  | newline => exact .inl rfl
  | comment h => exact .inr ⟨text, rest, rfl, h, by simpa [endsLine] using hp⟩
  | _ => cases hp

theorem endsLineAt_end (source : String) : EndsLineAt source source.utf8ByteSize := by
  refine ⟨source.toList, [], by simp, ?_, .inl rfl⟩
  rw [byteCount_eq, String.ofList_toList]

theorem gives_lex (ht : t ∈ (lex source).tokens) :
    Gives source.utf8ByteSize 0 (pieces source.toList) t :=
  gives_of_mem ht

theorem mem_lex {kind : TokenKind} (h : before ++ [⟨.token kind, text⟩] <+: pieces source.toList) :
    ⟨kind, ⟨byteCount (textOf before), byteCount (textOf before) + byteCount text⟩,
      String.ofList text⟩ ∈ (lex source).tokens := by
  rw [← Nat.zero_add (byteCount (textOf before))]
  exact mem_tokens_of_cut h

theorem slice_lex (ht : t ∈ (lex source).tokens) : Token.slice source t.span = t.text := by
  have hempty : ∀ x, Token.slice source ⟨x, x⟩ = "" := fun x ↦ by
    simp [Token.slice, String.Pos.Raw.extract]
  cases gives_lex ht with
  | @lexeme before kind text x hcut hx =>
    obtain ⟨rest, htext, hform⟩ := exists_hasForm hcut
    rw [← hx, Nat.zero_add]
    exact Scanner.RestAt.slice ⟨_, htext, rfl⟩
  | _ => exact hempty _

theorem endsLineAt_of_inserted (ht : t ∈ (lex source).tokens) (hinserted : t.isInserted = true) :
    t.span.start = t.span.stop ∧ EndsLineAt source t.span.start := by
  cases gives_lex ht with
  | eof => cases hinserted
  | @lexeme before kind text x hcut hx =>
    obtain ⟨rest, -, hform⟩ := exists_hasForm hcut
    have hne : text ≠ [] := hform.text_ne_nil
    simp [Token.isInserted, hne] at hinserted
  | lineEnd hcut hp hx =>
    rw [Nat.zero_add] at hx
    exact ⟨rfl, hx ▸ endsLineAt_of_cut hcut hp⟩
  | textEnd => exact ⟨rfl, endsLineAt_end source⟩

theorem onCharacters_of_lexeme (ht : t ∈ (lex source).tokens) (hkind : t.kind ≠ .eof)
    (hwritten : t.isInserted = false) :
    t.span.start < t.span.stop ∧ t.span.OnCharacters source := by
  cases gives_lex ht with
  | eof => exact absurd rfl hkind
  | @lexeme before kind text x hcut hx =>
    obtain ⟨rest, htext, hform⟩ := exists_hasForm hcut
    have hpos : 0 < byteCount text := Nat.pos_of_ne_zero (mt eq_nil_of_byteCount hform.text_ne_nil)
    rw [← hx, Nat.zero_add]
    exact ⟨Nat.lt_add_of_pos_right hpos, Scanner.RestAt.onCharacters ⟨_, htext, rfl⟩⟩
  | _ => cases hwritten

theorem ends_in_eof (source : String) : ∃ ts, (lex source).tokens =
    ts ++ [⟨.eof, ⟨source.utf8ByteSize, source.utf8ByteSize⟩, ""⟩] ∧ (∀ t ∈ ts, t.kind ≠ .eof) ∧
      (ts.getLast?.map (·.kind)).any TokenKind.completesLine = false := by
  have hkinds : ∀ p ∈ pieces source.toList, p.shape ≠ .token .eof := by
    intro p hp heq
    obtain ⟨before, after, hps⟩ := List.append_of_mem hp
    have hcut : before ++ [p] <+: pieces source.toList := ⟨after, by simp [hps]⟩
    obtain ⟨rest, -, hform⟩ := exists_hasForm hcut
    rw [heq] at hform
    exact hform.kind_ne_eof rfl
  obtain ⟨ts, hts, hall, hlast⟩ := exists_tokens_eq source.utf8ByteSize 0 none hkinds
  exact ⟨ts, hts, hall, by simpa using hlast⟩

theorem isSpaceAt_of_hasByte {shape : Shape} {c : Char}
    (h : HasByte (pieces source.toList) x before ⟨shape, [c]⟩) (hspace : isSpace c = true) :
    IsSpaceAt source x := by
  have hone : c.utf8Size = 1 := by
    simp only [isSpace, isBlank, Bool.or_eq_true, beq_iff_eq] at hspace
    rcases hspace with (((rfl | rfl) | rfl) | rfl) | rfl <;> rfl
  obtain ⟨rest, htext, -⟩ := exists_hasForm h.cut
  have hstart := h.start_le
  have hstop := h.lt_stop
  simp only [size, byteCount, hone] at hstop
  exact ⟨textOf before, c, rest, htext, by omega, hspace⟩

/-- In a text without a report a byte that no token has is blank or in a comment. -/
theorem covered_of_sound (h : (lex source).diagnostics = []) (hx : x < source.utf8ByteSize)
    (houtside : ∀ t ∈ (lex source).tokens, ¬t.Holds x) :
    IsSpaceAt source x ∨ InComment source x := by
  have hsound := isSound_of_diagnostics h
  have hread : x < byteCount (textOf (pieces source.toList)) := by
    rwa [(precede_source h).2, byteCount_eq, String.ofList_toList]
  obtain ⟨before, p, hbyte⟩ := exists_hasByte hread
  obtain ⟨rest, htext, hform⟩ := exists_hasForm hbyte.cut
  have hp := hsound p (hbyte.cut.subset (by simp))
  obtain ⟨shape, text⟩ := p
  cases hform with
  | newline => exact .inl (isSpaceAt_of_hasByte hbyte rfl)
  | blank hc => exact .inl (isSpaceAt_of_hasByte hbyte (by simp [isSpace, hc]))
  | comment h => exact .inr ⟨before, text, rest, hbyte, htext, h⟩
  | openLiteral | openComment => cases hp.isOpen_eq_false
  | unknown => exact absurd (unknownBytes_eq_nil (hp 0)) (by simp [String.utf8EncodeChar_ne_nil])
  | _ => exact absurd ⟨hbyte.start_le, hbyte.lt_stop⟩ (houtside _ (mem_lex hbyte.cut))

/-- The tokens of a text divide it. Reading it byte by byte never has to cut a character and comes
to these tokens. The end of the text is the last of them and comes nowhere else. Each starts at
the end of the one before or behind it, and says what stands in the text there. A semicolon without
a text stands where a line ends, and any other token covers some characters as a whole. Without a
report, a byte that no token has is a blank, a line end or part of a comment. -/
theorem tokens_partition (source : String) :
    Scanner.lex? source = some (lex source) ∧
    (∃ ts, (lex source).tokens =
        ts ++ [⟨.eof, ⟨source.utf8ByteSize, source.utf8ByteSize⟩, ""⟩] ∧ ∀ t ∈ ts, t.kind ≠ .eof) ∧
    Token.InOrder 0 (lex source).tokens ∧
    (∀ t ∈ (lex source).tokens,
      t.span.stop ≤ source.utf8ByteSize ∧ Token.slice source t.span = t.text) ∧
    (∀ t ∈ (lex source).tokens, t.isInserted = true →
      t.span.start = t.span.stop ∧ EndsLineAt source t.span.start) ∧
    (∀ t ∈ (lex source).tokens, t.kind ≠ .eof → t.isInserted = false →
      t.span.start < t.span.stop ∧ t.span.OnCharacters source) ∧
    ((lex source).diagnostics = [] → ∀ x < source.utf8ByteSize,
      (∀ t ∈ (lex source).tokens, ¬t.Holds x) → IsSpaceAt source x ∨ InComment source x) := by
  obtain ⟨ts, hts, hall, -⟩ := ends_in_eof source
  exact ⟨Scanner.lex?_eq source, ⟨ts, hts, hall⟩, inOrder_lex source,
    fun t ht ↦ ⟨stop_le_lex source t ht, slice_lex ht⟩, fun t ht ↦ endsLineAt_of_inserted ht,
    fun t ht ↦ onCharacters_of_lexeme ht, fun h x ↦ covered_of_sound h⟩

/-- A literal in which a backslash stands in front of a character of two bytes, and behind it a
comment that runs over the end of its line. -/
def notedWords : String := "p \"\\é\" /*é\n*/ q"

def notedTokens : List Token :=
  [⟨.ident, ⟨0, 1⟩, "p"⟩, ⟨.str, ⟨2, 7⟩, "\"\\é\""⟩, ⟨.semicolon, ⟨8, 8⟩, ""⟩,
    ⟨.ident, ⟨16, 17⟩, "q"⟩, ⟨.semicolon, ⟨17, 17⟩, ""⟩, ⟨.eof, ⟨17, 17⟩, ""⟩]

theorem tokens_partition_notedWords : Scanner.lex? notedWords = some ⟨notedTokens, []⟩ ∧
    EndsLineAt notedWords 8 ∧ Span.OnCharacters notedWords ⟨2, 7⟩ ∧
    (IsSpaceAt notedWords 11 ∨ InComment notedWords 11) := by
  have hlex : lex notedWords = ⟨notedTokens, []⟩ := by decide +kernel
  obtain ⟨hscan, -, -, -, hinserted, hwritten, hcovered⟩ := tokens_partition notedWords
  rw [hlex] at hscan hinserted hwritten hcovered
  refine ⟨hscan, ?_, ?_, hcovered rfl 11 (by decide) (by simp [notedTokens, Token.Holds])⟩
  · exact (hinserted ⟨.semicolon, ⟨8, 8⟩, ""⟩ (by simp [notedTokens]) rfl).2
  · exact (hwritten ⟨.str, ⟨2, 7⟩, "\"\\é\""⟩ (by simp [notedTokens]) nofun rfl).2

end Division

end Understudy
