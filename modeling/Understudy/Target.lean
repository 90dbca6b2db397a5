import Understudy.Diagnostic
import Understudy.ImportRegistry
import Understudy.ModuleSet

namespace Understudy

inductive DeclKind
  | interface
  | function
  | other
deriving DecidableEq

structure Target where
  decl : TypeDecl
  module : Module
  kind : DeclKind

namespace Target

def kindOf (modules : ModuleSet) (t : Ty) : DeclKind :=
  match modules.underlying? t with
  | some (.interface ..) => .interface
  | some (.signature _) => .function
  | _ => .other

def find? (modules : ModuleSet) (name : String) : Option Target :=
  modules.rootModules.findSome? fun m ↦
    (m.lookupType? name).map fun decl ↦ ⟨decl, m, kindOf modules decl.type⟩

def notes (t : Target) : List Diagnostic :=
  match t.kind with
  | .interface =>
    [(Diagnostic.note ("found interface with name: [" ++ t.decl.name ++ "]")).inFile t.module.path]
  | .function =>
    [(Diagnostic.note ("found function with name: [" ++ t.decl.name ++ "]")).inFile t.module.path]
  | .other => []

end Target

inductive LocateError
  | notFound (name : String)

def LocateError.message : LocateError → String
  | .notFound name => "cannot find declaration named " ++ name

/-- How one look-up went: what it found, what it reported, and the imports that it left. -/
structure Lookup where
  outcome : Except LocateError Target
  reported : List Diagnostic
  imports : ImportRegistry

namespace Target

/-- Looks up a type by its name alone. The module of a type that is found is registered. -/
def locate (modules : ModuleSet) (imports : ImportRegistry) (name : String) : Lookup :=
  match find? modules name with
  | none => ⟨.error (.notFound name), [], imports⟩
  | some t => ⟨.ok t, t.notes, imports.register t.module.name t.module.path⟩

def locateAll (modules : ModuleSet) (imports : ImportRegistry) : List String → List Lookup
  | [] => []
  | name :: rest =>
    let first := locate modules imports name
    first :: locateAll modules first.imports rest

end Target

end Understudy
