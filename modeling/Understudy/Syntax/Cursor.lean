import Understudy.Diagnostic
import Understudy.Token

namespace Understudy

structure Cursor where
  tokens : List Token
  lastStop : Nat

namespace Cursor

def ofTokens (tokens : List Token) : Cursor := ⟨tokens, 0⟩

/-- The end of the list counts as the end of the text. -/
def isAt (c : Cursor) (kind : TokenKind) : Bool :=
  match c.tokens with
  | [] => kind == .eof
  | t :: _ => t.kind == kind

def span? (c : Cursor) : Option Span := c.tokens.head?.map (·.span)

def start (c : Cursor) : Nat := (c.span?.map (·.start)).getD 0

def following? (c : Cursor) : Option TokenKind := c.tokens[1]?.map (·.kind)

def skipSemicolons (stop : Nat) : List Token → Cursor
  | [] => ⟨[], stop⟩
  | t :: rest =>
    if t.kind = .semicolon then skipSemicolons t.span.stop rest else ⟨t :: rest, stop⟩

/-- Past the next semicolon that is not inside brackets, but not past the end of the text. A closing
bracket without its partner is passed over. -/
def resume (depth stop : Nat) : List Token → Cursor
  | [] => ⟨[], stop⟩
  | t :: rest =>
    if t.kind.opensBracket then resume (depth + 1) t.span.stop rest
    else if t.kind.closesBracket then resume (depth - 1) t.span.stop rest
    else if t.kind = .semicolon ∧ depth = 0 then ⟨rest, t.span.stop⟩
    else if t.kind = .eof then ⟨t :: rest, stop⟩
    else resume depth t.span.stop rest

end Cursor

inductive Fault
  /-- A stretch of text would have to end before it starts. -/
  | reversedSpan
  /-- The bound on the steps was reached, which the number of tokens rules out. -/
  | exhausted
deriving DecidableEq

def Fault.message : Fault → String
  | .reversedSpan => "span start must be <= end"
  | .exhausted => "step bound reached"

inductive Reply (α : Type)
  | done (value : α) (rest : Cursor)
  | rejected (problem : Diagnostic) (rest : Cursor)
  | fault (cause : Fault)

def Reader (α : Type) : Type := Cursor → Reply α

namespace Reader

variable {α β : Type}

protected def pure (a : α) : Reader α := fun c ↦ .done a c

protected def bind (p : Reader α) (f : α → Reader β) : Reader β := fun c ↦
  match p c with
  | .done a rest => f a rest
  | .rejected d rest => .rejected d rest
  | .fault e => .fault e

instance : Monad Reader where
  pure := Reader.pure
  bind := Reader.bind

@[simp]
theorem pure_apply (a : α) (c : Cursor) : (pure a : Reader α) c = .done a c := rfl

theorem bind_apply (p : Reader α) (f : α → Reader β) (c : Cursor) :
    (p >>= f) c = match p c with
      | .done a rest => f a rest
      | .rejected d rest => .rejected d rest
      | .fault e => .fault e := rfl

instance : LawfulMonad Reader :=
  LawfulMonad.mk' Reader
    (fun p ↦ by
      funext c
      change Reader.bind p _ c = p c
      unfold Reader.bind
      cases p c <;> rfl)
    (fun _ _ ↦ rfl)
    (fun p f g ↦ by
      funext c
      simp only [bind_apply]
      cases p c <;> rfl)

def fault (cause : Fault) : Reader α := fun _ ↦ .fault cause

def reject (message : String) : Reader α := fun c ↦ .rejected (.error message c.span?) c

def rejectAt (message : String) (span : Span) : Reader α := fun c ↦
  .rejected (.error message (some span)) c

def attempt (p : Reader α) : Reader (Except Diagnostic α) := fun c ↦
  match p c with
  | .done a rest => .done (.ok a) rest
  | .rejected d rest => .done (.error d) rest
  | .fault e => .fault e

def cursor : Reader Cursor := fun c ↦ .done c c

def isAt (kind : TokenKind) : Reader Bool := fun c ↦ .done (c.isAt kind) c

def eat (kind : TokenKind) : Reader Bool := fun c ↦
  match c.tokens with
  | [] => .done false c
  | t :: rest => if t.kind = kind then .done true ⟨rest, t.span.stop⟩ else .done false c

def expect (kind : TokenKind) (message : String) : Reader Token := fun c ↦
  match c.tokens with
  | [] => .rejected (.error message none) c
  | t :: rest =>
    if t.kind = kind then .done t ⟨rest, t.span.stop⟩
      else .rejected (.error message (some t.span)) c

def ident (message : String) : Reader (String × Span) := do
  let t ← expect .ident message
  return (t.text, t.span)

def skipSemicolons : Reader Unit := fun c ↦ .done () (Cursor.skipSemicolons c.lastStop c.tokens)

def resume : Reader Unit := fun c ↦ .done () (Cursor.resume 0 c.lastStop c.tokens)

/-- What `what` names must end here: with a semicolon, or in front of the bracket or text end that
closes what is around it. -/
def terminator (what : String) : Reader Unit := do
  if ← eat .semicolon then return ()
  let c ← cursor
  if c.isAt .rparen || c.isAt .rbrace || c.isAt .eof then return ()
  reject ("expected `;` after " ++ what)

def range (start stop : Nat) : Reader Span :=
  match Span.between? start stop with
  | some s => pure s
  | none => fault .reversedSpan

def join (s t : Span) : Reader Span :=
  match s.join? t with
  | some u => pure u
  | none => fault .reversedSpan

/-- Runs a reader that is given a bound on its steps: no more than there are tokens left. -/
def bounded (p : Nat → Reader α) : Reader α := fun c ↦ p (c.tokens.length + 1) c

end Reader

end Understudy
