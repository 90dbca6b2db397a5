import Understudy.Token

namespace Understudy

inductive Shape
  | blank
  | newline
  | comment
  | token (kind : TokenKind)
  | unknown
  | openString
  | openComment
deriving DecidableEq

/-- A literal or comment that does not end leaves nothing that could be read after it. -/
def Shape.isOpen : Shape → Bool
  | .openString | .openComment => true
  | _ => false

structure Piece where
  shape : Shape
  text : List Char
deriving DecidableEq

namespace Piece

def isBlank (c : Char) : Bool := c == ' ' || c == '\t' || c == '\r' || c == '\x0c'

def startsWord (c : Char) : Bool := c.isAlpha || c == '_'

def inWord (c : Char) : Bool := c.isAlphanum || c == '_'

def inNumber (c : Char) : Bool := c.isDigit || c == '_'

/-- After an opening double quote: does the literal end on its line, and how many characters belong
to it? A backslash takes the next character with it. -/
def quotedTail : List Char → Bool × Nat
  | [] => (false, 0)
  | '"' :: _ => (true, 1)
  | '\n' :: _ => (false, 0)
  | '\\' :: _ :: rest => let (closed, n) := quotedTail rest; (closed, n + 2)
  | _ :: rest => let (closed, n) := quotedTail rest; (closed, n + 1)

def rawTail : List Char → Bool × Nat
  | [] => (false, 0)
  | c :: rest =>
    if c = '\x60' then (true, 1) else let (closed, n) := rawTail rest; (closed, n + 1)

def blockTail : List Char → Bool × Nat
  | [] => (false, 0)
  | '*' :: '/' :: _ => (true, 2)
  | _ :: rest => let (closed, n) := blockTail rest; (closed, n + 1)

def mark? (c : Char) (rest : List Char) : Option (TokenKind × Nat) :=
  match c, rest with
  | '.', '.' :: '.' :: _ => some (.ellipsis, 2)
  | '<', '-' :: _ => some (.arrow, 1)
  | '(', _ => some (.lparen, 0)
  | ')', _ => some (.rparen, 0)
  | '\x7b', _ => some (.lbrace, 0)
  | '\x7d', _ => some (.rbrace, 0)
  | '[', _ => some (.lbracket, 0)
  | ']', _ => some (.rbracket, 0)
  | ',', _ => some (.comma, 0)
  | ';', _ => some (.semicolon, 0)
  | '.', _ => some (.dot, 0)
  | '*', _ => some (.star, 0)
  | _, _ => none

/-- What starts with `c`, and how many of the characters after it belong to it: always as many as
possible. -/
def extent (c : Char) (rest : List Char) : Shape × Nat :=
  if c = '\n' then (.newline, 0)
  else if isBlank c then (.blank, 0)
  else if startsWord c then
    let tail := rest.takeWhile inWord
    (.token (TokenKind.ofWord (String.ofList (c :: tail))), tail.length)
  else if c.isDigit then (.token .int, (rest.takeWhile inNumber).length)
  else if c = '"' then
    let (closed, n) := quotedTail rest
    (if closed then .token .str else .openString, n)
  else if c = '\x60' then
    let (closed, n) := rawTail rest
    (if closed then .token .str else .openString, n)
  else if c = '/' ∧ rest.head? = some '/' then
    (.comment, (rest.takeWhile (· ≠ '\n')).length)
  else if c = '/' ∧ rest.head? = some '*' then
    let (closed, n) := blockTail rest.tail
    (if closed then .comment else .openComment, n + 1)
  else
    match mark? c rest with
    | some (kind, n) => (.token kind, n)
    | none => (.unknown, 0)

def pieces : List Char → List Piece
  | [] => []
  | c :: rest =>
    let (shape, n) := extent c rest
    ⟨shape, c :: rest.take n⟩ :: if shape.isOpen then [] else pieces (rest.drop n)
termination_by text => text.length
decreasing_by simp only [List.length_drop, List.length_cons]; omega

def byteCount : List Char → Nat
  | [] => 0
  | c :: rest => c.utf8Size + byteCount rest

def size (p : Piece) : Nat := byteCount p.text

/-- A line ends at a newline, and at a comment that runs over one. -/
def endsLine (p : Piece) : Bool :=
  match p.shape with
  | .newline => true
  | .comment => p.text.contains '\n'
  | _ => false

theorem text_pieces (text : List Char) :
    (pieces text).flatMap (·.text) <+: text := by
  fun_induction pieces text with
  | case1 => simp
  | case2 c rest shape n _ ih =>
    rw [List.flatMap_cons, List.cons_append, List.prefix_cons_inj]
    split
    · simpa using List.take_prefix n rest
    · have h := (List.prefix_append_right_inj (rest.take n)).2 ih
      rwa [List.take_append_drop] at h

theorem text_pieces_eq {text : List Char} (h : ∀ p ∈ pieces text, p.shape.isOpen = false) :
    (pieces text).flatMap (·.text) = text := by
  fun_induction pieces text with
  | case1 => simp
  | case2 c rest shape n _ ih =>
    have hopen : shape.isOpen = false := h _ (List.mem_cons_self ..)
    simp only [hopen, Bool.false_eq_true, if_false, List.flatMap_cons, List.cons_append] at h ih ⊢
    rw [ih (fun p hp ↦ h p (List.mem_cons_of_mem _ hp)), List.take_append_drop]

end Piece

end Understudy
