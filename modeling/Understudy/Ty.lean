import Understudy.Syntax

namespace Understudy

inductive BasicKind
  | bool
  | string
  | int
  | int8
  | int16
  | int32
  | int64
  | uint
  | uint8
  | uint16
  | uint32
  | uint64
  | uintptr
  | float32
  | float64
  | complex64
  | complex128
  | byte
  | rune
deriving DecidableEq, Inhabited

namespace BasicKind

def name : BasicKind → String
  | .bool => "bool"
  | .string => "string"
  | .int => "int"
  | .int8 => "int8"
  | .int16 => "int16"
  | .int32 => "int32"
  | .int64 => "int64"
  | .uint => "uint"
  | .uint8 => "uint8"
  | .uint16 => "uint16"
  | .uint32 => "uint32"
  | .uint64 => "uint64"
  | .uintptr => "uintptr"
  | .float32 => "float32"
  | .float64 => "float64"
  | .complex64 => "complex64"
  | .complex128 => "complex128"
  | .byte => "byte"
  | .rune => "rune"

def all : List BasicKind :=
  [.bool, .string, .int, .int8, .int16, .int32, .int64, .uint, .uint8, .uint16, .uint32, .uint64,
    .uintptr, .float32, .float64, .complex64, .complex128, .byte, .rune]

def ofName? (name : String) : Option BasicKind := all.find? (·.name = name)

theorem ofName?_name (k : BasicKind) : ofName? k.name = some k := by cases k <;> decide +kernel

end BasicKind

/-- How a module is known to the types that are declared in it. -/
structure ModuleRef where
  path : String
  name : String
deriving DecidableEq, Inhabited

/-- The name of a declared type. Without a module it is one of the names known everywhere. -/
structure TypeName where
  name : String
  module : Option ModuleRef
deriving DecidableEq, Inhabited

structure Var (τ : Type) where
  name : Option String
  type : τ

/-- In a variadic signature the last parameter has the slice type of what it collects. -/
structure Signature (τ : Type) where
  params : List (Var τ)
  results : List (Var τ)
  variadic : Bool

structure Method (τ : Type) where
  name : String
  sig : Signature τ

inductive Ty
  | basic (kind : BasicKind)
  | pointer (elem : Ty)
  | slice (elem : Ty)
  | array (length : UInt64) (elem : Ty)
  | map (key elem : Ty)
  | chan (dir : ChanDir) (elem : Ty)
  | named (name : Option TypeName)
  | interface (methods : List (Method Ty)) (embedded : List Ty)
  | signature (sig : Signature Ty)
  | struct (fields : List (Var Ty))

namespace Ty

def errorName : TypeName := ⟨"error", none⟩

def form : Ty → String
  | .basic _ => "basic"
  | .pointer _ => "pointer"
  | .slice _ => "slice"
  | .array _ _ => "array"
  | .map _ _ => "map"
  | .chan _ _ => "chan"
  | .named _ => "named"
  | .interface _ _ => "interface"
  | .signature _ => "signature"
  | .struct _ => "struct"

def asNamed? : Ty → Option TypeName
  | .named name => name
  | _ => none

def interfaceIsEmpty? : Ty → Option Bool
  | .interface methods embedded => some (methods.isEmpty && embedded.isEmpty)
  | _ => none

end Ty

end Understudy
