import Understudy.Diagnostic
import Understudy.ModuleSet
import Understudy.Ty.Display

namespace Understudy

structure Expansion where
  methods : List (Method Ty)
  seen : List TypeName
  problems : List Diagnostic

namespace Expansion

def start : Expansion := ⟨[], [], []⟩

def add (x : Expansion) (methods : List (Method Ty)) : Expansion :=
  { x with methods := x.methods ++ methods }

def mark (x : Expansion) (name : TypeName) : Expansion := { x with seen := name :: x.seen }

def refuse (x : Expansion) (t : Ty) : Expansion :=
  { x with problems := x.problems ++ [.warning ("cannot expand embedded type " ++ t.display) none] }

end Expansion

def errorMethod : Method Ty := ⟨"Error", ⟨[], [⟨none, .basic .string⟩], false⟩⟩

namespace Ty

mutual

def embeddedNames : Ty → List TypeName
  | .named (some name) => [name]
  | .interface _ embedded => embeddedNamesAll embedded
  | _ => []
termination_by structural t => t

def embeddedNamesAll : List Ty → List TypeName
  | [] => []
  | t :: rest => embeddedNames t ++ embeddedNamesAll rest
termination_by structural ts => ts

end

section

variable (modules : ModuleSet) (named : List (Method Ty) → List Ty → Expansion → Expansion)

mutual

/-- Adds what embedding a type adds. The interface behind a name is left to `named`. -/
def embed (x : Expansion) : Ty → Expansion
  | .interface methods embedded => embedAll (x.add methods) embedded
  | .named (some name) =>
    if x.seen.contains name then x
    else
      let x := x.mark name
      if name = errorName then x.add [errorMethod]
      else
        match modules.underlying? (.named (some name)) with
        | some (.interface methods embedded) => named methods embedded x
        | _ => x.refuse (.named (some name))
  | t => x.refuse t
termination_by structural t => t

def embedAll (x : Expansion) : List Ty → Expansion
  | [] => x
  | t :: rest => embedAll (embed x t) rest
termination_by structural ts => ts

end

end

/-- Adds an interface whose embedded names are followed at most `n` deep. -/
def expand (modules : ModuleSet) : Nat → List (Method Ty) → List Ty → Expansion → Expansion
  | 0, _, _, x => x
  | n + 1, methods, embedded, x => embedAll modules (expand modules n) (x.add methods) embedded

end Ty

def ModuleSet.embeddedNames (s : ModuleSet) : List TypeName :=
  s.modules.flatMap fun m ↦ (m.scope.map Scope.objects).getD [] |>.flatMap fun (_, object) ↦
    match object with
    | .type decl => decl.type.embeddedNames
    | .func _ => []

namespace Ty

/-- The expansion of an interface among the modules of a set. No name is followed twice, so nothing
is deeper than there are names. -/
def expansion (modules : ModuleSet) (methods : List (Method Ty)) (embedded : List Ty) : Expansion :=
  let names := modules.embeddedNames ++ embeddedNamesAll embedded
  expand modules (names.length + 1) methods embedded .start

def dropRepeats (last : Option String) : List (Method Ty) → List (Method Ty)
  | [] => []
  | m :: rest =>
    if last = some m.name then dropRepeats last rest else m :: dropRepeats (some m.name) rest

/-- One method for each name, in the order of the names. -/
def methodSet (methods : List (Method Ty)) : List (Method Ty) :=
  dropRepeats none (methods.mergeSort fun a b ↦ a.name ≤ b.name)

end Ty

end Understudy
