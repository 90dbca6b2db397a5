import Understudy.Load
import Understudy.Target
import Understudy.Ty.MethodSet
import Understudy.Ty.Render

namespace Understudy

structure FakeOptions where
  destination : String
  /-- What the stand-in is called; if blank, it is called after its target. -/
  name : String
deriving DecidableEq

def FakeOptions.default : FakeOptions := ⟨"", ""⟩

structure Param where
  name : Option String
  text : String
  variadic : Bool
deriving DecidableEq

structure FakeMethod where
  name : String
  params : List Param
  results : List Param
deriving DecidableEq

structure Fake where
  targetName : String
  targetPath : String
  targetQualifier : String
  kind : DeclKind
  name : String
  methods : List FakeMethod
  imports : ImportRegistry

inductive FakeError
  | unlocated (e : LocateError)
  | notFakeable (name : String)

def FakeError.message : FakeError → String
  | .unlocated e => e.message
  | .notFakeable name => "`" ++ name ++ "` is neither an interface nor a function type"

/-- How the making of a stand-in went: what came of it, what was reported on the way, and the
imports that it had registered. -/
structure Generation where
  outcome : Except FakeError Fake
  reported : List Diagnostic
  imports : ImportRegistry

def Generation.events (g : Generation) : List Event :=
  g.imports.events ++
    match g.outcome with
    | .ok fake => [.fakeMade fake.targetName fake.methods.length fake.imports.entries.length]
    | .error _ => []

namespace Fake

def targetText (f : Fake) : String :=
  if f.imports.isDestination f.targetPath then f.targetName
  else f.targetQualifier ++ "." ++ f.targetName

def variadicText (r : ImportRegistry) : Ty → String
  | .slice elem => "..." ++ r.render elem
  | t => r.render t

def renderVars (r : ImportRegistry) (variadic : Bool) : List (Var Ty) → List Param
  | [] => []
  | [v] => [⟨v.name, if variadic then variadicText r v.type else r.render v.type, variadic⟩]
  | v :: rest => ⟨v.name, r.render v.type, false⟩ :: renderVars r variadic rest

def renderMethod (r : ImportRegistry) (m : Method Ty) : FakeMethod :=
  ⟨m.name, renderVars r m.sig.variadic m.sig.params, renderVars r false m.sig.results⟩

/-- The types that a list of methods writes down, in the order of the text. -/
def writtenTypes (methods : List (Method Ty)) : List Ty :=
  methods.flatMap fun m ↦ (m.sig.params ++ m.sig.results).map (·.type)

/-- The methods that a stand-in needs, with what is reported when they are collected: those of an
interface, or the signature of a function type under the name of the target. -/
def methodsFor? (modules : ModuleSet) (target : Target) :
    Option (List (Method Ty) × List Diagnostic) :=
  match target.kind, modules.underlying? target.decl.type with
  | .interface, some (.interface methods embedded) =>
    let all := Ty.expansion modules methods embedded
    some (Ty.methodSet all.methods, all.problems)
  | .function, some (.signature sig) => some ([⟨target.decl.name, sig⟩], [])
  | _, _ => none

/-- Writes the methods down. All modules in them are registered before the first text is made. -/
def ofMethods (options : FakeOptions) (target : Target) (registry : ImportRegistry)
    (methods : List (Method Ty)) : Fake :=
  let types := writtenTypes methods
  let registry := types.foldl ImportRegistry.registerType registry
  let qualified := registry.allQualifiedPaths types
  let path := target.module.path
  let marked := qualified.foldl ImportRegistry.markReferenced registry
  let name := Text.trim options.name
  { targetName := target.decl.name
    targetPath := path
    targetQualifier := ((registry.find? path).map (·.qualifier)).getD target.module.name
    kind := target.kind
    name := if name.isEmpty then "Fake" ++ target.decl.name else name
    methods := methods.map (renderMethod registry)
    imports := if registry.isDestination path then marked else marked.markReferenced path }

/-- Makes the stand-in for the type of this name in a root of `modules`. The module of the target is
imported even if no method mentions it. -/
def generate (modules : ModuleSet) (targetName : String) (options : FakeOptions) : Generation :=
  let found := Target.locate modules (.forDestination options.destination) (Text.trim targetName)
  match found.outcome with
  | .error e => ⟨.error (.unlocated e), found.reported, found.imports⟩
  | .ok target =>
    match methodsFor? modules target with
    | none => ⟨.error (.notFakeable target.decl.name), found.reported, found.imports⟩
    | some (methods, problems) =>
      let fake := ofMethods options target found.imports methods
      let types := writtenTypes methods
      ⟨.ok fake, found.reported ++ problems ++ types.flatMap Ty.registerProblems
        ++ types.flatMap Ty.renderProblems, fake.imports⟩

end Fake

def Library.generate (lib : Library) (requests : List String) (targetName : String)
    (options : FakeOptions) : Except LoadError Generation × List Event :=
  match lib.loadRoots requests .start with
  | .error e session => (.error e, session.events)
  | .ok () session =>
    let generation := Fake.generate session.modules targetName options
    (.ok generation, session.events ++ generation.events)

end Understudy
