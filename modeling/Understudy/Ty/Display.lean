import Understudy.Ty

namespace Understudy

def TypeName.display : TypeName → String
  | ⟨name, some module⟩ => module.path ++ "." ++ name
  | ⟨name, none⟩ => name

def ChanDir.mark : ChanDir → String
  | .both => "chan "
  | .send => "chan<- "
  | .recv => "<-chan "

def lengthMark (length : UInt64) : String := "[" ++ Nat.repr length.toNat ++ "]"

namespace Ty

mutual

def display : Ty → String
  | .basic kind => kind.name
  | .pointer elem => "*" ++ display elem
  | .slice elem => "[]" ++ display elem
  | .array length elem => lengthMark length ++ display elem
  | .map key elem => "map[" ++ display key ++ "]" ++ display elem
  | .chan dir elem => dir.mark ++ display elem
  | .named (some name) => name.display
  | .named none => "<invalid>"
  | .interface methods embedded =>
    "interface\x7b" ++ "; ".intercalate (displayAll embedded ++ displayMethods methods) ++ "\x7d"
  | .signature sig => "func" ++ displaySignature sig
  | .struct fields => "struct\x7b" ++ "; ".intercalate (displayVars fields) ++ "\x7d"
termination_by structural t => t

def displayAll : List Ty → List String
  | [] => []
  | t :: rest => display t :: displayAll rest
termination_by structural ts => ts

def displayMethods : List (Method Ty) → List String
  | [] => []
  | ⟨name, sig⟩ :: rest => (name ++ displaySignature sig) :: displayMethods rest
termination_by structural ms => ms

def displayVars : List (Var Ty) → List String
  | [] => []
  | ⟨some name, t⟩ :: rest => (name ++ " " ++ display t) :: displayVars rest
  | ⟨none, t⟩ :: rest => display t :: displayVars rest
termination_by structural vs => vs

/-- Parameters of which the last, if it is a slice, collects what is left. -/
def displayVariadic : List (Var Ty) → List String
  | [] => []
  | [⟨name, t⟩] =>
    let text := match t with
      | .slice elem => "..." ++ display elem
      | other => display other
    [match name with
      | some n => n ++ " " ++ text
      | none => text]
  | ⟨some name, t⟩ :: rest => (name ++ " " ++ display t) :: displayVariadic rest
  | ⟨none, t⟩ :: rest => display t :: displayVariadic rest
termination_by structural vs => vs

/-- Parameters in parentheses, then the results: a single one without a name stands alone. -/
def displaySignature : Signature Ty → String
  | ⟨params, results, variadic⟩ =>
    let inputs := if variadic then displayVariadic params else displayVars params
    let outputs := match results with
      | [] => ""
      | [⟨none, t⟩] => " " ++ display t
      | all => " (" ++ ", ".intercalate (displayVars all) ++ ")"
    "(" ++ ", ".intercalate inputs ++ ")" ++ outputs
termination_by structural sig => sig

end

end Ty

end Understudy
