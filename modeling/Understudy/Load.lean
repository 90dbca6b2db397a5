import Understudy.FileTree
import Understudy.Resolve
import Understudy.SourceMap
import Understudy.Syntax.File
import Understudy.Text.Quoted
import Understudy.Trace

namespace Understudy

structure LoadOptions where
  root : String
  extension : String
  /-- Whether modules are also looked for below the directory `vendor` of the root. -/
  vendor : Bool
deriving DecidableEq

def LoadOptions.default : LoadOptions := ⟨".", "api", true⟩

inductive LoadError
  | notFound (path : String) (searched : List String)
  | noFiles (path directory extension : String)
  | unreadable (file : String) (cause : FileError)
  /-- A link in a module's directory that leads nowhere. -/
  | badEntry (file : String) (cause : FileError)
  /-- A link in a module's directory that leads back to it. -/
  | linkLoop (file directory : String)
  | notParsed (path report : String) (diagnostics : List Diagnostic)
  | notResolved (path report : String) (diagnostics : List Diagnostic)
  | importCycle (cycle : List String)
  /-- The bound on nested imports was reached, which the number of imports in the tree rules out. -/
  | exhausted (path : String)

namespace LoadError

def message : LoadError → String
  | .notFound path searched =>
    "module not found: `" ++ path ++ "` (searched: " ++ Text.quoteAll searched ++ ")"
  | .noFiles path directory extension =>
    "module `" ++ path ++ "` has no ." ++ extension ++ " files in " ++ directory
  | .unreadable file cause => "failed to read " ++ file ++ ": " ++ cause.message
  | .badEntry file cause => "IO error for operation on " ++ file ++ ": " ++ cause.message
  | .linkLoop file directory =>
    "File system loop found: " ++ file ++ " points to an ancestor " ++ directory
  | .notParsed path report _ => "failed to parse module `" ++ path ++ "`:\n" ++ report
  | .notResolved path report _ => "failed to resolve module `" ++ path ++ "`:\n" ++ report
  | .importCycle cycle => "circular import detected: " ++ " → ".intercalate cycle
  | .exhausted path => "too many nested imports at `" ++ path ++ "`"

def diagnostics : LoadError → List Diagnostic
  | .notParsed _ _ ds | .notResolved _ _ ds => ds
  | _ => []

end LoadError

structure Session where
  modules : ModuleSet
  events : List Event

def Session.start : Session := ⟨.empty, []⟩

abbrev Load (α : Type) := EStateM LoadError Session α

structure ReadFile where
  id : String
  path : String
  source : String
  reading : Reading

namespace ReadFile

def diagnostics (f : ReadFile) : List Diagnostic := f.reading.diagnostics.map (·.inFile f.id)

def parsed? (f : ReadFile) : Option ParsedFile := f.reading.file.map (⟨f.id, ·⟩)

def sourceMap (files : List ReadFile) : SourceMap :=
  files.foldl (fun m f ↦ m.add f.id f.path f.source) .empty

end ReadFile

structure Library where
  options : LoadOptions
  tree : FileTree

namespace Library

variable (lib : Library)

def log (e : Event) : Load Unit := modify fun s ↦ { s with events := s.events ++ [e] }

def candidates (request path : String) : List String :=
  if request.isEmpty then []
  else
    let own := joinPath lib.options.root request
    if lib.options.vendor then [own, joinPath (joinPath lib.options.root "vendor") path] else [own]

def locate (request path : String) : Except LoadError String :=
  let searched := lib.candidates request path
  match searched.find? lib.tree.isDirectory with
  | some directory => .ok directory
  | none => .error (.notFound path searched)

/-- What an entry of a module's directory stands for. A link has to lead somewhere, and not back to
the directory itself. -/
def entryTarget (directory : String) (place : Location) (name : String) :
    Except LoadError Location :=
  let file := joinPath directory name
  match lib.tree.node? (place ++ [name]) with
  | some (.link _) =>
    match lib.tree.locate file with
    | .error cause => .error (.badEntry file cause)
    | .ok target => if target = place then .error (.linkLoop file directory) else .ok target
  | _ => .ok (place ++ [name])

def entryText? (directory : String) (place : Location) (name : String) :
    Except LoadError (Option String) := do
  let file := joinPath directory name
  match lib.tree.node? (← lib.entryTarget directory place name) with
  | some (.file _) =>
    if extension? name = some lib.options.extension then
      match lib.tree.read file with
      | .ok text => .ok (some text)
      | .error cause => .error (.unreadable file cause)
    else .ok none
  | _ => .ok none

def readEntries (path directory : String) (place : Location) : List String → Load (List ReadFile)
  | [] => return []
  | name :: rest => do
    match lib.entryText? directory place name with
    | .error e => throw e
    | .ok none => readEntries path directory place rest
    | .ok (some source) =>
      let file := joinPath directory name
      log (.parsing file)
      let read : ReadFile := ⟨path ++ "/" ++ name, file, source, readSource source⟩
      return read :: (← readEntries path directory place rest)

/-- Reads all files of a module, which there must be, and none of them with an error. -/
def readFiles (path directory : String) : Load (List ReadFile) := do
  let files ← match lib.tree.locate directory with
    | .ok place => lib.readEntries path directory place (lib.tree.namesIn place)
    | .error cause => throw (.badEntry directory cause)
  let diagnostics := files.flatMap (·.diagnostics)
  if !diagnostics.isEmpty then
    throw (.notParsed path ((ReadFile.sourceMap files).report diagnostics) diagnostics)
  if files.isEmpty then throw (.noFiles path directory lib.options.extension)
  return files

def requests (files : List ParsedFile) : List String :=
  (files.flatMap fun f ↦ f.file.imports.map (·.path)).eraseDups

def resolveFiles (path : String) (files : List ReadFile) : Load Module := do
  let resolution := resolveModule path (files.filterMap (·.parsed?)) (← get).modules
  log (.resolved path ((resolution.module.scope.map (·.size)).getD 0))
  if !resolution.diagnostics.isEmpty then
    throw (.notResolved path ((ReadFile.sourceMap files).report resolution.diagnostics)
      resolution.diagnostics)
  return resolution.module

/-- Loads the module that `request` asks for, with `loading` being the modules that wait for it,
outermost first, and gives its path. No more than `n` modules can wait for each other from here
on. -/
def loadWithin : Nat → List String → String → Load String
  | 0, _, request => throw (.exhausted request)
  | n + 1, loading, request => do
    let request := ModulePath.ofRequest request
    let path := ModulePath.unvendor request
    if (← get).modules.contains path then return path
    if loading.contains path then throw (.importCycle (loading.dropWhile (· ≠ path) ++ [path]))
    match lib.locate request path with
    | .error e => throw e
    | .ok directory =>
      let files ← lib.readFiles path directory
      (requests (files.filterMap (·.parsed?))).forM fun dependency ↦
        discard (loadWithin n (loading ++ [path]) dependency)
      let module ← resolveFiles path files
      log (.loaded path directory)
      modify fun s ↦ { s with modules := s.modules.insert module }
      return path

def allRequests : List String :=
  lib.tree.texts.flatMap fun text ↦
    ((readSource text).file.map fun f ↦ f.imports.map (·.path)).getD []

/-- Loads a module. Modules that wait for each other have different paths, and each but the first is
asked for by an import in some file, so the imports bound their number. -/
def load (request : String) : Load String := lib.loadWithin (lib.allRequests.length + 2) [] request

def loadRoot (request : String) : Load String := do
  let path ← lib.load request
  modify fun s ↦ { s with modules := s.modules.markRoot path }
  return path

def loadRoots (requests : List String) : Load Unit :=
  requests.forM fun request ↦ discard (lib.loadRoot request)

end Library

end Understudy
