import Understudy.Syntax.Types
import Understudy.Token.Lexer

namespace Understudy

structure Parsed where
  file : SourceFile
  diagnostics : List Diagnostic

structure Clause (α : Type) where
  items : List α
  problem : Option Diagnostic

namespace Reader

variable {α : Type}

def packageClause : Reader String := do
  skipSemicolons
  let _ ← expect .packageWord "expected `package` clause at the start of the file"
  let (name, _) ← ident "expected package name"
  terminator "package clause"
  return name

def importSpec : Reader ImportSpec := do
  let c ← cursor
  let qualifier ←
    if c.isAt .ident then (fun word ↦ some word.1) <$> ident "expected import alias"
    else if c.isAt .dot then reject "dot imports are not supported"
    else pure none
  let literal ← expect .str "expected import path string"
  let path := Literal.string literal.text
  if path.isEmpty then rejectAt "import path is empty" literal.span
  else return ⟨qualifier, path, ← range c.start literal.span.stop⟩

def typeSpec : Reader Decl := do
  let (name, nameSpan) ← ident "expected type name"
  let type ← type
  return .type name type (← join nameSpan type.span)

def noBody : Reader Unit := do
  if ← isAt .lbrace then reject "function declarations are signatures only; bodies are not allowed"

def funcDecl : Reader Decl := do
  let word ← expect .funcWord "expected `func`"
  let (name, _) ← ident "expected function name"
  noBody
  let sig ← signature type
  noBody
  let span ← range word.span.start sig.span.stop
  terminator "function declaration"
  return .func name sig span

def groupItems (what : String) (item : Reader α) : Nat → Reader (Clause α)
  | 0 => fault .exhausted
  | n + 1 => do
    skipSemicolons
    let c ← cursor
    if c.isAt .rparen || c.isAt .eof then return ⟨[], none⟩
    match ← attempt item with
    | .error d => return ⟨[], some d⟩
    | .ok x =>
      match ← attempt (terminator what) with
      | .error d => return ⟨[x], some d⟩
      | .ok () =>
        let later ← groupItems what item n
        return ⟨x :: later.items, later.problem⟩

def group (itemEnd close : String) (item : Reader α) : Reader (Clause α) := do
  let body ← bounded (groupItems itemEnd item)
  match body.problem with
  | some _ => return body
  | none =>
    match ← attempt (expect .rparen close) with
    | .error d => return ⟨body.items, some d⟩
    | .ok _ => return body

def singleItem (item : Reader α) : Reader (Clause α) := do
  match ← attempt item with
  | .error d => return ⟨[], some d⟩
  | .ok x => return ⟨[x], none⟩

/-- After the leading word of a clause: one item or a group of them, then the end of the clause. -/
def clause (itemEnd close clauseEnd : String) (item : Reader α) : Reader (Clause α) := do
  let body ← if ← eat .lparen then group itemEnd close item else singleItem item
  match body.problem with
  | some _ => return body
  | none =>
    match ← attempt (terminator clauseEnd) with
    | .error d => return ⟨body.items, some d⟩
    | .ok () => return body

def importClause : Reader (Clause ImportSpec) := do
  let _ ← eat .importWord
  clause "import path" "expected `)` to close import group" "import declaration" importSpec

def typeClause : Reader (Clause Decl) := do
  let _ ← eat .typeWord
  clause "type declaration" "expected `)` to close type group" "type declaration" typeSpec

def refusal (message : String) : Reader (Clause α) := do
  return ⟨[], some (.error message (← cursor).span?)⟩

def declClause : Reader (Clause Decl) := do
  let c ← cursor
  if c.isAt .typeWord then typeClause
  else if c.isAt .funcWord then singleItem funcDecl
  else if c.isAt .importWord then refusal "imports must appear before other declarations"
  else refusal "expected `type` or `func`"

/-- Clause after clause until `done`, resuming behind each one that had a problem. -/
def clauses (done : Cursor → Bool) (next : Reader (Clause α)) :
    Nat → Reader (List α × List Diagnostic)
  | 0 => fault .exhausted
  | n + 1 => do
    skipSemicolons
    if done (← cursor) then return ([], [])
    let first ← next
    if first.problem.isSome then resume
    let (items, problems) ← clauses done next n
    return (first.items ++ items, first.problem.toList ++ problems)

def file : Reader Parsed := do
  let (package, packageProblems) ←
    match ← attempt packageClause with
    | .ok name => pure (name, [])
    | .error d => do
      resume
      pure ("", [d])
  let (imports, importProblems) ← bounded (clauses (!·.isAt .importWord) importClause)
  let (decls, declProblems) ← bounded (clauses (·.isAt .eof) declClause)
  return ⟨⟨package, imports, decls⟩, packageProblems ++ importProblems ++ declProblems⟩

end Reader

def parse (tokens : List Token) : Except Fault Parsed :=
  match Reader.file (.ofTokens tokens) with
  | .done parsed _ => .ok parsed
  | .rejected problem _ => .ok ⟨⟨"", [], []⟩, [problem]⟩
  | .fault cause => .error cause

structure Reading where
  file : Option SourceFile
  diagnostics : List Diagnostic

/-- Reads a source text. Text that does not come apart into tokens is not read any further. -/
def readSource (source : String) : Reading :=
  let lexed := lex source
  if lexed.diagnostics.isEmpty then
    match parse lexed.tokens with
    | .ok parsed =>
      if parsed.diagnostics.isEmpty then ⟨some parsed.file, []⟩ else ⟨none, parsed.diagnostics⟩
    | .error _ => ⟨none, []⟩
  else ⟨none, lexed.diagnostics⟩

end Understudy
