import Understudy.Span

namespace Understudy

inductive ChanDir
  | both
  | send
  | recv
deriving DecidableEq, Inhabited

/-- One parameter or result, after names that share a type have each been given it. -/
structure ParamExpr (τ : Type) where
  name : Option String
  type : τ
  variadic : Bool
  span : Span

structure SignatureExpr (τ : Type) where
  params : List (ParamExpr τ)
  results : List (ParamExpr τ)
  span : Span

inductive ElementExpr (τ : Type)
  | method (name : String) (sig : SignatureExpr τ) (span : Span)
  | embedded (type : τ)

structure FieldExpr (τ : Type) where
  name : Option String
  type : τ
  span : Span

inductive TypeExpr
  | name (qualifier : Option String) (name : String) (span : Span)
  | pointer (elem : TypeExpr) (span : Span)
  | slice (elem : TypeExpr) (span : Span)
  | array (length : UInt64) (elem : TypeExpr) (span : Span)
  | map (key elem : TypeExpr) (span : Span)
  | chan (dir : ChanDir) (elem : TypeExpr) (span : Span)
  | func (sig : SignatureExpr TypeExpr) (span : Span)
  | interface (elements : List (ElementExpr TypeExpr)) (span : Span)
  | struct (fields : List (FieldExpr TypeExpr)) (span : Span)

def TypeExpr.span : TypeExpr → Span
  | .name _ _ s | .pointer _ s | .slice _ s | .array _ _ s | .map _ _ s | .chan _ _ s | .func _ s
  | .interface _ s | .struct _ s => s

structure ImportSpec where
  /-- What the file calls the module, if not by the name it has itself. -/
  qualifier : Option String
  path : String
  span : Span
deriving DecidableEq

inductive Decl
  | type (name : String) (type : TypeExpr) (span : Span)
  | func (name : String) (sig : SignatureExpr TypeExpr) (span : Span)

namespace Decl

def name : Decl → String
  | .type n _ _ | .func n _ _ => n

def span : Decl → Span
  | .type _ _ s | .func _ _ s => s

end Decl

structure SourceFile where
  package : String
  imports : List ImportSpec
  decls : List Decl

end Understudy
