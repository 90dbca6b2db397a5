import Understudy.Diagnostic

namespace Understudy

structure FileLines where
  path : String
  starts : List Nat

namespace FileLines

def newlineEnds (pos : Nat) : List Char → List Nat
  | [] => []
  | c :: rest =>
    let next := pos + c.utf8Size
    if c = '\n' then next :: newlineEnds next rest else newlineEnds next rest

def ofSource (path source : String) : FileLines := ⟨path, 0 :: newlineEnds 0 source.toList⟩

def line (f : FileLines) (offset : Nat) : Nat := f.starts.countP (· ≤ offset)

end FileLines

structure SourceMap where
  files : List (String × FileLines)

namespace SourceMap

def empty : SourceMap := ⟨[]⟩

/-- Adds a file, in place of what had its id before. -/
def add (m : SourceMap) (fileId path source : String) : SourceMap :=
  ⟨(fileId, .ofSource path source) :: m.files⟩

def file? (m : SourceMap) (fileId : String) : Option FileLines := m.files.lookup fileId

def line? (m : SourceMap) (fileId : String) (offset : Nat) : Option Nat :=
  (m.file? fileId).map (·.line offset)

def place (m : SourceMap) (d : Diagnostic) : String :=
  match d.fileId with
  | none => "<unknown>"
  | some id =>
    match m.file? id, d.span with
    | none, _ => id
    | some f, none => f.path
    | some f, some span => f.path ++ ":" ++ Nat.repr (f.line span.start)

def describe (m : SourceMap) (d : Diagnostic) : String :=
  m.place d ++ ": " ++ d.severity.text ++ ": " ++ d.message

def report (m : SourceMap) (ds : List Diagnostic) : String := "\n".intercalate (ds.map m.describe)

end SourceMap

end Understudy
