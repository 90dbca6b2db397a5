import Understudy.Diagnostic
import Understudy.ImportRegistry
import Understudy.Ty.Display

namespace Understudy

namespace Ty

/-- The types at the ends of pointers, slices, arrays, maps and channels, from left to right. -/
def leaves : Ty → List Ty
  | .pointer elem | .slice elem | .array _ elem | .chan _ elem => elem.leaves
  | .map key elem => key.leaves ++ elem.leaves
  | t => [t]

def module? : Ty → Option ModuleRef
  | .named (some name) => name.module
  | _ => none

/-- Signatures and structs have no text of their own in generated code. -/
def unsupported? (t : Ty) : Option Diagnostic :=
  match t with
  | .signature _ | .struct _ => some (.warning ("missing case for type " ++ t.form) none)
  | _ => none

def unrenderable? (t : Ty) : Option Diagnostic :=
  match t with
  | .named none => some (.warning ("named type has no declaration: " ++ t.display) none)
  | other => other.unsupported?

def registerProblems (t : Ty) : List Diagnostic := t.leaves.filterMap unsupported?

def renderProblems (t : Ty) : List Diagnostic := t.leaves.filterMap unrenderable?

end Ty

namespace ImportRegistry

def registerLeaf (r : ImportRegistry) (t : Ty) : ImportRegistry :=
  match t.module? with
  | some m => if m.path.isEmpty then r else r.register m.name m.path
  | none => r

def registerType (r : ImportRegistry) (t : Ty) : ImportRegistry := t.leaves.foldl registerLeaf r

/-- The import that qualifies the name of a declared type. The name stands alone if it has no
module, if its module is the destination, and if its module is not registered. -/
def qualifierOf? (r : ImportRegistry) (name : TypeName) : Option Import :=
  match name.module with
  | none => none
  | some m => if r.isDestination m.path then none else r.find? m.path

def spell (r : ImportRegistry) (name : TypeName) : String :=
  match r.qualifierOf? name with
  | some i => i.qualifier ++ "." ++ name.name
  | none => name.name

/-- The text of a type. What cannot be rendered leaves a gap. -/
def render (r : ImportRegistry) : Ty → String
  | .pointer elem => "*" ++ r.render elem
  | .slice elem => "[]" ++ r.render elem
  | .array length elem => lengthMark length ++ r.render elem
  | .map key elem => "map[" ++ r.render key ++ "]" ++ r.render elem
  | .chan dir elem => dir.mark ++ r.render elem
  | .basic kind => kind.name
  | .named (some name) => r.spell name
  | .named none => ""
  | .interface methods embedded => (Ty.interface methods embedded).display
  | .signature _ => ""
  | .struct _ => ""

def qualifiedPaths (r : ImportRegistry) (t : Ty) : List String :=
  t.leaves.filterMap fun leaf ↦ leaf.asNamed?.bind fun name ↦ (r.qualifierOf? name).map (·.path)

def allQualifiedPaths (r : ImportRegistry) (ts : List Ty) : List String :=
  (ts.flatMap r.qualifiedPaths).eraseDups

end ImportRegistry

end Understudy
