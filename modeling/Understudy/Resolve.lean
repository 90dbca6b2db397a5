import Understudy.Diagnostic
import Understudy.ModulePath
import Understudy.ModuleSet
import Understudy.Syntax

namespace Understudy

structure ParsedFile where
  id : String
  file : SourceFile

structure Resolution where
  module : Module
  diagnostics : List Diagnostic

/-- Why a name is not the name of a type; names are given as they are written. -/
inductive NameError
  | undefined (shown : String)
  | notAType (shown : String)

def NameError.message : NameError → String
  | .undefined shown => "undefined: " ++ shown
  | .notAType shown => "`" ++ shown ++ "` is not a type"

abbrev Checked (α : Type) := Except (List Diagnostic) α

namespace Checked

variable {α β γ : Type}

/-- Joins two parts. What is wrong with either is kept, the first part first. -/
def both (f : α → β → γ) : Checked α → Checked β → Checked γ
  | .ok a, .ok b => .ok (f a b)
  | .ok _, .error e => .error e
  | .error d, .ok _ => .error d
  | .error d, .error e => .error (d ++ e)

def problems : Checked α → List Diagnostic
  | .ok _ => []
  | .error ds => ds

end Checked

structure NameContext where
  self : ModuleRef
  fileId : String
  decls : List Decl
  /-- The imports of this file by the name that the file uses for them. -/
  imports : List (String × ModuleRef)
  deps : ModuleSet

namespace NameContext

/-- The declaration that a name of the module is judged by: the last one. -/
def decl? (ctx : NameContext) (name : String) : Option Decl :=
  ctx.decls.reverse.find? (·.name = name)

/-- Declarations of the module hide the names that are known everywhere. -/
def localType (ctx : NameContext) (name : String) : Except NameError Ty :=
  match ctx.decl? name with
  | some (.type ..) => .ok (.named (some ⟨name, some ctx.self⟩))
  | some (.func ..) => .error (.notAType name)
  | none =>
    match BasicKind.ofName? name with
    | some kind => .ok (.basic kind)
    | none =>
      if name = "error" then .ok (.named (some Ty.errorName))
      else if name = "any" then .ok (.interface [] [])
      else .error (.undefined name)

def importedType (ctx : NameContext) (qualifier name : String) : Except NameError Ty :=
  match ctx.imports.lookup qualifier with
  | none => .error (.undefined qualifier)
  | some ref =>
    match (ctx.deps.get? ref.path).bind (·.lookup? name) with
    | some (.type _) => .ok (.named (some ⟨name, some ref⟩))
    | some (.func _) => .error (.notAType (qualifier ++ "." ++ name))
    | none => .error (.undefined (qualifier ++ "." ++ name))

def namedType (ctx : NameContext) (qualifier : Option String) (name : String) :
    Except NameError Ty :=
  match qualifier with
  | none => ctx.localType name
  | some q => ctx.importedType q name

variable (ctx : NameContext)

mutual

def typeOf : TypeExpr → Checked Ty
  | .name qualifier name span =>
    match ctx.namedType qualifier name with
    | .ok t => .ok t
    | .error e => .error [(Diagnostic.error e.message (some span)).inFile ctx.fileId]
  | .pointer elem _ => (typeOf elem).map .pointer
  | .slice elem _ => (typeOf elem).map .slice
  | .array length elem _ => (typeOf elem).map (.array length)
  | .map key elem _ => Checked.both .map (typeOf key) (typeOf elem)
  | .chan dir elem _ => (typeOf elem).map (.chan dir)
  | .func sig _ => (signatureOf sig).map .signature
  | .interface elements _ =>
    (elementsOf elements).map fun (methods, embedded) ↦ .interface methods embedded
  | .struct fields _ => (fieldsOf fields).map .struct
termination_by structural t => t

def signatureOf : SignatureExpr TypeExpr → Checked (Signature Ty)
  | ⟨params, results, _⟩ =>
    Checked.both (fun inputs outputs ↦ ⟨inputs, outputs, params.getLast?.any (·.variadic)⟩)
      (paramsOf params) (paramsOf results)
termination_by structural sig => sig

/-- A variadic parameter collects its values in a slice. -/
def paramsOf : List (ParamExpr TypeExpr) → Checked (List (Var Ty))
  | [] => .ok []
  | ⟨name, type, variadic, _⟩ :: rest =>
    Checked.both (fun t vars ↦ ⟨name, if variadic then .slice t else t⟩ :: vars)
      (typeOf type) (paramsOf rest)
termination_by structural ps => ps

def elementsOf : List (ElementExpr TypeExpr) → Checked (List (Method Ty) × List Ty)
  | [] => .ok ([], [])
  | .method name sig _ :: rest =>
    Checked.both (fun s (methods, embedded) ↦ (⟨name, s⟩ :: methods, embedded))
      (signatureOf sig) (elementsOf rest)
  | .embedded type :: rest =>
    Checked.both (fun t (methods, embedded) ↦ (methods, t :: embedded)) (typeOf type)
      (elementsOf rest)
termination_by structural es => es

def fieldsOf : List (FieldExpr TypeExpr) → Checked (List (Var Ty))
  | [] => .ok []
  | ⟨name, type, _⟩ :: rest =>
    Checked.both (fun t vars ↦ ⟨name, t⟩ :: vars) (typeOf type) (fieldsOf rest)
termination_by structural fs => fs

end

def objectOf : Decl → Checked Object
  | .type name type _ => (ctx.typeOf type).map fun t ↦ .type ⟨name, t⟩
  | .func name sig _ => (ctx.signatureOf sig).map fun s ↦ .func ⟨name, s⟩

end NameContext

namespace ImportSpec

/-- What an import adds to the names of its file, given those that the imports before it added.
An import under the name `_` is not referred to. -/
def bind (deps : ModuleSet) (fileId : String) (bound : List (String × ModuleRef)) (i : ImportSpec) :
    Checked (Option (String × ModuleRef)) :=
  let path := ModulePath.unvendor i.path
  match deps.get? path with
  | none =>
    .error [(Diagnostic.error ("import `" ++ path ++ "` was not loaded") (some i.span)).inFile
      fileId]
  | some dep =>
    let name := i.qualifier.getD dep.name
    if name = "_" then .ok none
    else if (bound.lookup name).isSome then
      .error [(Diagnostic.error ("`" ++ name ++ "` redeclared in this file") (some i.span)).inFile
        fileId]
    else .ok (some (name, dep.ref))

def bindAll (deps : ModuleSet) (fileId : String) (bound : List (String × ModuleRef)) :
    List ImportSpec → List (String × ModuleRef) × List Diagnostic
  | [] => (bound, [])
  | i :: rest =>
    match i.bind deps fileId bound with
    | .ok added => bindAll deps fileId (bound ++ added.toList) rest
    | .error ds =>
      let (all, later) := bindAll deps fileId bound rest
      (all, ds ++ later)

end ImportSpec

namespace Resolve

def packageConflicts (path name : String) (files : List ParsedFile) : List Diagnostic :=
  (files.filter (·.file.package ≠ name)).map fun f ↦
    (Diagnostic.error ("package `" ++ f.file.package ++ "` conflicts with package `" ++ name
      ++ "` declared by other files of `" ++ path ++ "`") none).inFile f.id

def redeclarations (seen : List String) : List (String × Decl) → List Diagnostic
  | [] => []
  | (fileId, d) :: rest =>
    if seen.contains d.name then
      (Diagnostic.error ("`" ++ d.name ++ "` redeclared in this module") (some d.span)).inFile
      fileId
        :: redeclarations seen rest
    else redeclarations (d.name :: seen) rest

/-- The first object that comes in under a name stays. -/
def addObjects (scope : Scope) (objects : List Object) : Scope :=
  objects.foldl (fun s o ↦ if (s.lookup? o.name).isSome then s else (s.insert o).2) scope

def fileObjects (self : ModuleRef) (decls : List Decl) (deps : ModuleSet) (f : ParsedFile) :
    List Object × List Diagnostic :=
  let (imports, importProblems) := ImportSpec.bindAll deps f.id [] f.file.imports
  let made := f.file.decls.map (NameContext.objectOf ⟨self, f.id, decls, imports, deps⟩)
  (made.filterMap (·.toOption), importProblems ++ made.flatMap Checked.problems)

end Resolve

def resolveModule (path : String) (files : List ParsedFile) (deps : ModuleSet) : Resolution :=
  let name := (files.head?.map (·.file.package)).getD ""
  let placed := files.flatMap fun f ↦ f.file.decls.map (f.id, ·)
  let made := files.map (Resolve.fileObjects ⟨path, name⟩ (placed.map (·.2)) deps)
  let imported := files.flatMap fun f ↦ f.file.imports.map (ModulePath.unvendor ·.path)
  { module := ⟨path, name, some (Resolve.addObjects .empty (made.flatMap (·.1))),
    imported.eraseDups⟩
    diagnostics := Resolve.packageConflicts path name files.tail ++ Resolve.redeclarations [] placed
      ++ made.flatMap (·.2) }

end Understudy
