import Understudy.Span

namespace Understudy

inductive TokenKind
  | packageWord
  | importWord
  | typeWord
  | funcWord
  | interfaceWord
  | structWord
  | mapWord
  | chanWord
  | ident
  | int
  | str
  | lparen
  | rparen
  | lbrace
  | rbrace
  | lbracket
  | rbracket
  | comma
  | semicolon
  | dot
  | ellipsis
  | star
  | arrow
  | eof
deriving DecidableEq, Inhabited

namespace TokenKind

/-- Reserved words are kinds of their own, any other word is an identifier. -/
def ofWord (word : String) : TokenKind :=
  if word = "package" then .packageWord
  else if word = "import" then .importWord
  else if word = "type" then .typeWord
  else if word = "func" then .funcWord
  else if word = "interface" then .interfaceWord
  else if word = "struct" then .structWord
  else if word = "map" then .mapWord
  else if word = "chan" then .chanWord
  else .ident

/-- A line that stops after one of these is complete: its end counts as a semicolon. -/
def completesLine : TokenKind → Bool
  | .ident | .int | .str | .rparen | .rbracket | .rbrace => true
  | _ => false

def opensBracket : TokenKind → Bool
  | .lparen | .lbrace | .lbracket => true
  | _ => false

def closesBracket : TokenKind → Bool
  | .rparen | .rbrace | .rbracket => true
  | _ => false

end TokenKind

structure Token where
  kind : TokenKind
  span : Span
  /-- The part of the source that the token covers, empty for a semicolon that a line end stands
  for. -/
  text : String
deriving DecidableEq, Inhabited

namespace Token

/-- The part of `source` between two byte offsets; empty if they are out of order, out of range, or
inside a character. -/
def slice (source : String) (span : Span) : String :=
  let start : String.Pos.Raw := ⟨span.start⟩
  let stop : String.Pos.Raw := ⟨span.stop⟩
  if span.start ≤ span.stop ∧ start.IsValid source ∧ stop.IsValid source then
    String.Pos.Raw.extract source start stop
  else ""

def ofSource (source : String) (kind : TokenKind) (span : Span) : Token :=
  ⟨kind, span, slice source span⟩

end Token

end Understudy
