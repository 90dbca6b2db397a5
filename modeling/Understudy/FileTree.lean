import Understudy.FileTree.Path

namespace Understudy

inductive Node
  | file (text : Option String)
  /-- A link to what the target means from the link's own directory. -/
  | link (target : String)
  | directory
deriving DecidableEq

abbrev Location := List String

namespace Location

def root : Location := []

/-- The directory that paths start from. It lies in a directory below the root, and no path from
above leads into it, because its name and that of the directory around it are empty. -/
def home : Location := ["", ""]

def parent (place : Location) : Location := place.dropLast

end Location

structure FileTree where
  nodes : List (Location × Node)

namespace FileTree

def empty : FileTree := ⟨[]⟩

/-- The directories above the tree are always there. -/
def node? (t : FileTree) (place : Location) : Option Node :=
  if place.all (·.isEmpty) then some .directory else t.nodes.lookup place

def isDirectoryAt (t : FileTree) (place : Location) : Bool := t.node? place == some .directory

def put (t : FileTree) (place : Location) (node : Node) : FileTree :=
  ⟨(place, node) :: t.nodes.filter (·.1 ≠ place)⟩

def namesIn (t : FileTree) (directory : Location) : List String :=
  (t.nodes.filterMap fun (place, _) ↦
    if place.parent = directory then place.getLast? else none).mergeSort

section Resolve

variable (t : FileTree)

/-- Follows names from a place; where a link is met, `link` is given its directory, its target and
the names behind it. -/
def walkOver (link : Location → String → List String → Except FileError Location) :
    Location → List String → Except FileError Location
  | place, [] => .ok place
  | place, name :: rest =>
    if !t.isDirectoryAt place then .error .notDirectory
    else if staysInPlace name then walkOver link place rest
    else if name = ".." then walkOver link place.parent rest
    else
      match t.node? (place ++ [name]) with
      | some (.link target) => link place target rest
      | some _ => walkOver link (place ++ [name]) rest
      | none => if isTooLongName name then .error .nameTooLong else .error .missing

def startOf (place : Location) (path : String) : Location :=
  if isAbsolutePath path then .root else place

/-- Follows names from a place, and fewer than `n` links on the way. -/
def walk : Nat → Location → List String → Except FileError Location
  | 0, _, _ => .error .tooManyLinks
  | n + 1, place, names =>
    t.walkOver
      (fun place target rest ↦ do
        walk n (startOf place target) ((← followableNames target) ++ rest))
      place names

def maxLinks : Nat := 40

def follow (names : List String) : Except FileError Location := t.walk (maxLinks + 1) .home names

def locate (path : String) : Except FileError Location := do
  t.walk (maxLinks + 1) (startOf .home path) (← followableNames path)

def isDirectory (path : String) : Bool :=
  match t.locate path with
  | .ok place => t.isDirectoryAt place
  | .error _ => false

def read (path : String) : Except FileError String := do
  match t.node? (← t.locate path) with
  | some (.file (some text)) => .ok text
  | some (.file none) => .error .notText
  | _ => .error .isDirectory

end Resolve

def texts (t : FileTree) : List String :=
  t.nodes.filterMap fun (_, node) ↦
    match node with
    | .file text => text
    | _ => none

end FileTree

end Understudy
