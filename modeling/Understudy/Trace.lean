import Understudy.Diagnostic
import Understudy.ImportRegistry

namespace Understudy

inductive TraceLevel
  | debug
  | info
  | warn
  | error
deriving DecidableEq

inductive Event
  | parsing (file : String)
  | resolved (path : String) (symbols : Nat)
  | loaded (path directory : String)
  | importAdded (qualifier path : String)
  | fakeMade (target : String) (methods imports : Nat)
  | reported (d : Diagnostic)
deriving DecidableEq

namespace Event

def level : Event → TraceLevel
  | .reported d =>
    match d.severity with
    | .error => .error
    | .warning => .warn
    | .note => .info
  | _ => .debug

def message : Event → String
  | .parsing _ => "parsing"
  | .resolved _ _ => "resolved module"
  | .loaded _ _ => "loaded module"
  | .importAdded _ _ => "adding import"
  | .fakeMade _ _ _ => "resolved fake"
  | .reported d => d.message

def fields : Event → List (String × String)
  | .parsing file => [("file", file)]
  | .resolved path symbols => [("module", path), ("symbols", Nat.repr symbols)]
  | .loaded path directory => [("module", path), ("dir", directory)]
  | .importAdded qualifier path => [("alias", qualifier), ("path", path)]
  | .fakeMade target methods imports =>
    [("target", target), ("methods", Nat.repr methods), ("imports", Nat.repr imports)]
  | .reported d => [("module", d.fileId.getD "<core>")]

end Event

def ImportRegistry.events (r : ImportRegistry) : List Event :=
  r.entries.map fun i ↦ .importAdded i.qualifier i.path

end Understudy
