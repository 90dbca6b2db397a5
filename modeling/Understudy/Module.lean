import Understudy.Ty

namespace Understudy

structure TypeDecl where
  name : String
  type : Ty

structure FuncDecl where
  name : String
  sig : Signature Ty

inductive Object
  | type (decl : TypeDecl)
  | func (decl : FuncDecl)

def Object.name : Object → String
  | .type decl => decl.name
  | .func decl => decl.name

structure Scope where
  objects : List (String × Object)

namespace Scope

def empty : Scope := ⟨[]⟩

def lookup? (s : Scope) (name : String) : Option Object := s.objects.lookup name

def put (s : Scope) (key : String) (object : Object) : Scope :=
  if (s.lookup? key).isSome then
    ⟨s.objects.map fun entry ↦ if entry.1 = key then (key, object) else entry⟩
  else ⟨s.objects ++ [(key, object)]⟩

/-- Keeps an object under its name, with what was there before. -/
def insert (s : Scope) (object : Object) : Option Object × Scope :=
  (s.lookup? object.name, s.put object.name object)

/-- The type declared under a name; functions do not count. -/
def lookupType? (s : Scope) (name : String) : Option TypeDecl :=
  match s.lookup? name with
  | some (.type decl) => some decl
  | _ => none

def size (s : Scope) : Nat := s.objects.length

def names (s : Scope) : List String := (s.objects.map (·.1)).mergeSort

end Scope

structure Module where
  path : String
  name : String
  /-- Absent if the module was loaded without looking at its types. -/
  scope : Option Scope
  imports : List String

namespace Module

def ref (m : Module) : ModuleRef := ⟨m.path, m.name⟩

def lookup? (m : Module) (name : String) : Option Object := m.scope.bind (·.lookup? name)

def lookupType? (m : Module) (name : String) : Option TypeDecl := m.scope.bind (·.lookupType? name)

end Module

end Understudy
