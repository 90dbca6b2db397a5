import Understudy.Span

namespace Understudy

inductive Severity
  | error
  | warning
  | note
deriving DecidableEq, Inhabited

def Severity.text : Severity → String
  | .error => "error"
  | .warning => "warning"
  | .note => "note"

structure Diagnostic where
  message : String
  severity : Severity
  span : Option Span
  fileId : Option String
deriving DecidableEq, Inhabited

namespace Diagnostic

def error (message : String) (span : Option Span) : Diagnostic :=
  ⟨message, .error, span, none⟩

def warning (message : String) (span : Option Span) : Diagnostic :=
  ⟨message, .warning, span, none⟩

/-- A note is about the run as a whole and has no place in a text. -/
def note (message : String) : Diagnostic :=
  ⟨message, .note, none, none⟩

def inFile (d : Diagnostic) (fileId : String) : Diagnostic :=
  { d with fileId := some fileId }

end Diagnostic

end Understudy
