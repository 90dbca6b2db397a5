import Understudy.Syntax
import Understudy.Syntax.Literal
import Understudy.Syntax.Cursor

namespace Understudy.Reader

variable {α : Type}

def typeName : Reader TypeExpr := do
  let (first, span) ← ident "expected type name"
  if ← eat .dot then
    let (name, nameSpan) ← ident "expected type name after `.`"
    return .name (some first) name (← join span nameSpan)
  return .name none first span

def startsType : TokenKind → Bool
  | .ident | .star | .lbracket | .mapWord | .chanWord | .arrow | .funcWord | .interfaceWord
  | .structWord => true
  | _ => false

section Params

/-- Gives each bare name in `pending` the type of the next entry that has one. -/
def shareTypes (pending : List (String × Span)) :
    List (ParamExpr TypeExpr) → Except Diagnostic (List (ParamExpr TypeExpr))
  | [] =>
    match pending with
    | [] => .ok []
    | (_, span) :: _ => .error (.error "mixed named and unnamed parameters" (some span))
  | entry :: rest =>
    match entry.name with
    | some _ =>
      if entry.variadic && !pending.isEmpty then
        .error (.error "can only use `...` with the final parameter" (some entry.span))
      else
        match shareTypes [] rest with
        | .error d => .error d
        | .ok later =>
          .ok (pending.map (fun (name, span) ↦ ⟨some name, entry.type, false, span⟩) ++
            entry :: later)
    | none =>
      match entry.type, entry.variadic with
      | .name none name span, false => shareTypes (pending ++ [(name, span)]) rest
      | other, _ => .error (.error "mixed named and unnamed parameters" (some other.span))

/-- The parameters that a list of entries means: either none of them has a name, or each one has. -/
def groupParams (entries : List (ParamExpr TypeExpr)) :
    Except Diagnostic (List (ParamExpr TypeExpr)) :=
  match entries.dropLast.find? (·.variadic) with
  | some entry => .error (.error "can only use `...` with the final parameter" (some entry.span))
  | none => if entries.all (·.name.isNone) then .ok entries else shareTypes [] entries

variable (p : Reader TypeExpr)

/-- One entry of a parameter list. A word is the name of the entry if a type can follow it. -/
def paramEntry : Reader (ParamExpr TypeExpr) := do
  let c ← cursor
  let named := c.isAt .ident && !(c.following? matches some .comma | some .rparen | some .dot)
  let name ← if named then (fun word ↦ some word.1) <$> ident "expected parameter name"
      else pure none
  let variadic ← eat .ellipsis
  let type ← p
  return ⟨name, type, variadic, ← range c.start type.span.stop⟩

def paramEntries : Nat → Reader (List (ParamExpr TypeExpr))
  | 0 => fault .exhausted
  | n + 1 => do
    let c ← cursor
    if c.isAt .rparen || c.isAt .eof then return []
    let entry ← paramEntry p
    if ← eat .comma then return entry :: (← paramEntries n)
    return [entry]

def params : Reader (List (ParamExpr TypeExpr)) := do
  let _ ← expect .lparen "expected `(`"
  let entries ← bounded (paramEntries p)
  let _ ← expect .rparen "expected `)` after parameters"
  match groupParams entries with
  | .ok grouped => pure grouped
  | .error d => fun c ↦ .rejected d c

def results : Reader (List (ParamExpr TypeExpr)) := do
  let c ← cursor
  if c.isAt .lparen then params p
  else if c.tokens.head?.any (startsType ·.kind) then
    let type ← p
    return [⟨none, type, false, type.span⟩]
  else return []

def signature : Reader (SignatureExpr TypeExpr) := do
  let start := (← cursor).start
  let inputs ← params p
  let outputs ← results p
  match outputs.find? (·.variadic) with
  | some output => rejectAt "results cannot be variadic" output.span
  | none => return ⟨inputs, outputs, ← range start (← cursor).lastStop⟩

end Params

section Bodies

def bodyItems (what : String) (item : Reader (List α)) : Nat → Reader (List α)
  | 0 => fault .exhausted
  | n + 1 => do
    skipSemicolons
    let c ← cursor
    if c.isAt .rbrace || c.isAt .eof then return []
    let items ← item
    terminator what
    return items ++ (← bodyItems what item n)

variable (p : Reader TypeExpr)

/-- A word directly in front of a parenthesis is a method; any other word is an interface to
embed. -/
def element : Reader (ElementExpr TypeExpr) := do
  let c ← cursor
  if c.isAt .ident && c.following? == some .lparen then
    let (name, nameSpan) ← ident "expected method name"
    let sig ← signature p
    return .method name sig (← join nameSpan sig.span)
  else if c.isAt .ident then
    return .embedded (← typeName)
  else reject "interfaces may only contain methods and embedded interfaces"

def interfaceType : Reader TypeExpr := do
  let word ← expect .interfaceWord "expected `interface`"
  let _ ← expect .lbrace "expected `\x7b` after `interface`"
  let elements ← bounded (bodyItems "interface element" ((fun e ↦ [e]) <$> element p))
  let close ← expect .rbrace "expected `\x7d` to end interface body"
  return .interface elements (← range word.span.start close.span.stop)

def fieldNames : Nat → Reader (List (String × Span))
  | 0 => fault .exhausted
  | n + 1 => do
    if ← eat .comma then
      let name ← ident "expected field name after `,`"
      return name :: (← fieldNames n)
    return []

def namedFields (type : TypeExpr) : List (String × Span) → Reader (List (FieldExpr TypeExpr))
  | [] => pure []
  | (name, span) :: rest => do
    let span ← join span type.span
    return ⟨some name, type, span⟩ :: (← namedFields type rest)

def fieldGroup : Reader (List (FieldExpr TypeExpr)) := do
  let c ← cursor
  let embedded := c.isAt .star ||
    c.isAt .ident && (c.following? matches some .semicolon | some .rbrace | some .dot | some .str)
  let fields ←
    if embedded then do
      let type ← p
      pure [⟨none, type, type.span⟩]
    else do
      let first ← ident "expected field name"
      let names ← bounded fieldNames
      let type ← p
      namedFields type (first :: names)
  let _ ← eat .str
  return fields

def structType : Reader TypeExpr := do
  let word ← expect .structWord "expected `struct`"
  let _ ← expect .lbrace "expected `\x7b` after `struct`"
  let fields ← bounded (bodyItems "struct field" (fieldGroup p))
  let close ← expect .rbrace "expected `\x7d` to end struct body"
  return .struct fields (← range word.span.start close.span.stop)

end Bodies

def bracketed (p : Reader TypeExpr) (start : Nat) : Reader TypeExpr := do
  if ← eat .rbracket then
    let elem ← p
    return .slice elem (← range start elem.span.stop)
  let lengthToken ← expect .int "expected array length"
  let digits := Literal.ungroup lengthToken.text
  match Literal.arrayLength? digits with
  | none => rejectAt ("invalid array length `" ++ digits ++ "`") lengthToken.span
  | some length =>
    let _ ← expect .rbracket "expected `]` after array length"
    let elem ← p
    return .array length elem (← range start elem.span.stop)

/-- A type whose parts are read by `p`. Parentheses around a type leave no trace. -/
def typeOver (p : Reader TypeExpr) : Reader TypeExpr := do
  match (← cursor).tokens.head? with
  | none => reject "expected type"
  | some t =>
    let start := t.span.start
    match t.kind with
    | .ident => typeName
    | .star =>
      let _ ← eat .star
      let elem ← p
      return .pointer elem (← range start elem.span.stop)
    | .lbracket =>
      let _ ← eat .lbracket
      bracketed p start
    | .mapWord =>
      let _ ← eat .mapWord
      let _ ← expect .lbracket "expected `[` after `map`"
      let key ← p
      let _ ← expect .rbracket "expected `]` after map key type"
      let elem ← p
      return .map key elem (← range start elem.span.stop)
    | .chanWord =>
      let _ ← eat .chanWord
      let dir := if ← eat .arrow then .send else .both
      let elem ← p
      return .chan dir elem (← range start elem.span.stop)
    | .arrow =>
      let _ ← eat .arrow
      let _ ← expect .chanWord "expected `chan` after `<-`"
      let elem ← p
      return .chan .recv elem (← range start elem.span.stop)
    | .funcWord =>
      let _ ← eat .funcWord
      let sig ← signature p
      return .func sig (← range start sig.span.stop)
    | .interfaceWord => interfaceType p
    | .structWord => structType p
    | .lparen =>
      let _ ← eat .lparen
      let inner ← p
      let _ ← expect .rparen "expected `)` after type"
      return inner
    | _ => reject "expected type"

def typeWithin : Nat → Reader TypeExpr
  | 0 => fault .exhausted
  | n + 1 => typeOver (typeWithin n)

def type : Reader TypeExpr := bounded typeWithin

end Understudy.Reader
