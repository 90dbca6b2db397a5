import Understudy.Token.Lexer

namespace Understudy

namespace Scanner

-- A byte is told by the character that has it as its code.

section Ends

variable (bytes : Array UInt8)

def charAt? (i : Nat) : Option Char := bytes[i]?.map Char.ofUInt8

def skipWhile (p : Char → Bool) (i : Nat) : Nat :=
  if h : i < bytes.size then
    if p (Char.ofUInt8 bytes[i]) then skipWhile p (i + 1) else i
  else i
termination_by bytes.size - i

/-- Where a literal ends that goes on at byte `i`, or where it breaks off. A backslash takes the
next byte with it, whatever that is part of. -/
def literalEnd (quote : Char) (i : Nat) : Except Nat Nat :=
  if h : i < bytes.size then
    let c := Char.ofUInt8 bytes[i]
    if c = '\\' ∧ quote = '"' then literalEnd quote (i + 2)
    else if c = '\n' ∧ quote = '"' then .error i
    else if c = quote then .ok (i + 1)
    else literalEnd quote (i + 1)
  else .error bytes.size
termination_by bytes.size - i

def commentEnd (i : Nat) : Except Nat Nat :=
  if i + 1 < bytes.size then
    if charAt? bytes i = some '*' ∧ charAt? bytes (i + 1) = some '/' then .ok (i + 2)
    else commentEnd (i + 1)
  else .error bytes.size
termination_by bytes.size - i

def markOf? : Char → Option TokenKind
  | '(' => some .lparen
  | ')' => some .rparen
  | '\x7b' => some .lbrace
  | '\x7d' => some .rbrace
  | '[' => some .lbracket
  | ']' => some .rbracket
  | ',' => some .comma
  | ';' => some .semicolon
  | '.' => some .dot
  | '*' => some .star
  | _ => none

def mark? (c : Char) (i : Nat) : Option (TokenKind × Nat) :=
  if c = '.' ∧ charAt? bytes (i + 1) = some '.' ∧ charAt? bytes (i + 2) = some '.' then
    some (.ellipsis, i + 3)
  else if c = '<' ∧ charAt? bytes (i + 1) = some '-' then some (.arrow, i + 2)
  else (markOf? c).map (·, i + 1)

end Ends

section Scan

variable (source : String) (bytes : Array UInt8)

/-- The text between two bytes, which there is none of if one of them lies inside a character. -/
def text? (start stop : Nat) : Option String :=
  if (⟨start⟩ : String.Pos.Raw).IsValid source ∧ (⟨stop⟩ : String.Pos.Raw).IsValid source then
    some (Token.slice source ⟨start, stop⟩)
  else none

/-- What starts with the byte of `c` at `i`, and where it ends. -/
def look (c : Char) (i : Nat) : Option (Shape × Nat) :=
  if c = '\n' then some (.newline, i + 1)
  else if Piece.isBlank c then some (.blank, i + 1)
  else if Piece.startsWord c then
    let stop := skipWhile bytes Piece.inWord (i + 1)
    (text? source i stop).map fun word ↦ (.token (TokenKind.ofWord word), stop)
  else if c.isDigit then some (.token .int, skipWhile bytes Piece.inNumber i)
  else if c = '"' ∨ c = '\x60' then
    match literalEnd bytes c (i + 1) with
    | .ok stop => some (.token .str, stop)
    | .error stop => some (.openString, stop)
  else if c = '/' ∧ charAt? bytes (i + 1) = some '/' then
    some (.comment, skipWhile bytes (· ≠ '\n') (i + 2))
  else if c = '/' ∧ charAt? bytes (i + 1) = some '*' then
    match commentEnd bytes (i + 2) with
    | .ok stop => some (.comment, stop)
    | .error stop => some (.openComment, stop)
  else
    match mark? bytes c i with
    | some (kind, stop) => some (.token kind, stop)
    | none => some (.unknown, i + 1)

section Progress

variable {bytes} {source : String} {p : Char → Bool} {quote c : Char} {i stop : Nat}

theorem le_skipWhile : i ≤ skipWhile bytes p i := by
  fun_induction skipWhile bytes p i with
  | case1 i h hp ih => omega
  | case2 | case3 => exact Nat.le_refl _

theorem lt_skipWhile (h : i < bytes.size) (hp : p (Char.ofUInt8 bytes[i]) = true) :
    i < skipWhile bytes p i := by
  rw [skipWhile, dif_pos h, if_pos hp]
  exact le_skipWhile

theorem lt_literalEnd (h : literalEnd bytes quote i = .ok stop) : i < stop := by
  fun_induction literalEnd bytes quote i with
  | case1 i hi c hescape ih => have := ih h; omega
  | case2 => cases h
  | case3 => cases h; omega
  | case4 i hi c hescape hend hquote ih => have := ih h; omega
  | case5 => cases h

theorem lt_commentEnd (h : commentEnd bytes i = .ok stop) : i < stop := by
  fun_induction commentEnd bytes i with
  | case1 => cases h; omega
  | case2 i hi hmark ih => have := ih h; omega
  | case3 => cases h

theorem lt_mark? {kind : TokenKind} (h : mark? bytes c i = some (kind, stop)) : i < stop := by
  unfold mark? at h
  split at h
  · cases h; omega
  split at h
  · cases h; omega
  · obtain ⟨kind, -, hkind⟩ := Option.map_eq_some_iff.1 h
    cases hkind
    exact Nat.lt_succ_self i

theorem inNumber_of_isDigit (h : c.isDigit = true) : Piece.inNumber c = true := by
  rw [Piece.inNumber, h, Bool.true_or]

theorem lt_look {shape : Shape} (hi : i < bytes.size) (hopen : shape.isOpen = false)
    (h : look source bytes (Char.ofUInt8 bytes[i]) i = some (shape, stop)) : i < stop := by
  unfold look at h
  split at h
  · cases h; omega
  split at h
  · cases h; omega
  split at h
  · obtain ⟨word, -, hword⟩ := Option.map_eq_some_iff.1 h
    cases hword
    exact Nat.lt_of_lt_of_le (Nat.lt_succ_self i) le_skipWhile
  split at h
  · cases h
    exact lt_skipWhile hi (inNumber_of_isDigit ‹_›)
  split at h
  · split at h
    · rename_i hend
      cases h
      have := lt_literalEnd hend
      omega
    · cases h
      cases hopen
  split at h
  · cases h
    exact Nat.lt_of_lt_of_le (by omega) le_skipWhile
  split at h
  · split at h
    · rename_i hend
      cases h
      have := lt_commentEnd hend
      omega
    · cases h
      cases hopen
  split at h
  · cases h
    exact lt_mark? ‹_›
  · cases h; omega

end Progress

def endLine (tokens : List Token) (place : Nat) : List Token :=
  if (tokens.getLast?.map (·.kind)).any TokenKind.completesLine then
    tokens ++ [⟨.semicolon, ⟨place, place⟩, ""⟩]
  else tokens

def report (s : Lexed) (message : String) (start stop : Nat) : Lexed :=
  { s with diagnostics := s.diagnostics ++ [.error message (some ⟨start, stop⟩)] }

def keep (s : Lexed) (c : Char) (i : Nat) (shape : Shape) (stop : Nat) : Lexed :=
  match shape with
  | .blank => s
  | .newline => { s with tokens := endLine s.tokens i }
  | .comment =>
    if (bytes.extract i stop).contains '\n'.toUInt8 then { s with tokens := endLine s.tokens i }
      else s
  | .token kind => { s with tokens := s.tokens ++ [.ofSource source kind ⟨i, stop⟩] }
  | .unknown => report s ("unknown token `" ++ String.singleton c ++ "`") i stop
  | .openString => report s "unterminated string literal" i stop
  | .openComment => report s "unterminated block comment" i stop

def finish (s : Lexed) : Lexed :=
  { s with tokens := endLine s.tokens bytes.size ++ [⟨.eof, ⟨bytes.size, bytes.size⟩, ""⟩] }

def scan (s : Lexed) (i : Nat) : Option Lexed :=
  if hi : i < bytes.size then
    match hlook : look source bytes (Char.ofUInt8 bytes[i]) i with
    | none => none
    | some (shape, stop) =>
      let s := keep source bytes s (Char.ofUInt8 bytes[i]) i shape stop
      if hopen : shape.isOpen then some (finish bytes s) else scan s stop
  else some (finish bytes s)
termination_by bytes.size - i
decreasing_by
  have := lt_look hi (by simpa using hopen) hlook
  omega

/-- The tokens of a source text, unless one of its words would have to be cut inside a character. -/
def lex? (source : String) : Option Lexed := scan source source.toUTF8.data ⟨[], []⟩ 0

end Scan

end Scanner

end Understudy
