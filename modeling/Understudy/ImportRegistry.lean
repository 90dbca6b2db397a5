import Understudy.ModulePath

namespace Understudy

structure Import where
  qualifier : String
  path : String
  /-- Set when some text qualifies a name with it. -/
  referenced : Bool
deriving DecidableEq

structure ImportRegistry where
  entries : List Import
  destination : Option String
deriving DecidableEq

namespace ImportRegistry

def empty : ImportRegistry := ⟨[], none⟩

/-- The registry of a text that goes into the module at `path`; a blank path says nothing. -/
def forDestination (path : String) : ImportRegistry :=
  let path := ModulePath.registered path
  ⟨[], if path.isEmpty then none else some path⟩

def isDestination (r : ImportRegistry) (path : String) : Bool :=
  r.destination == some (ModulePath.registered path)

def entry? (r : ImportRegistry) (path : String) : Option Import :=
  r.entries.find? (·.path = path)

def find? (r : ImportRegistry) (path : String) : Option Import :=
  r.entry? (ModulePath.registered path)

def isTaken (r : ImportRegistry) (qualifier : String) : Bool :=
  r.entries.any (·.qualifier = qualifier)

/-- `hint` itself if it is free, otherwise `hint` with the least number from 1 on that makes it
free. There are more candidates than entries that could take them. -/
def freeQualifier (r : ImportRegistry) (hint : String) : String :=
  if r.isTaken hint then
    match (List.range' 1 r.entries.length).find? fun n ↦ !r.isTaken (hint ++ Nat.repr n) with
    | some n => hint ++ Nat.repr n
    | none => hint
  else hint

/-- Neither the module without a path nor the destination is imported. -/
def refuses (r : ImportRegistry) (path : String) : Bool :=
  path.isEmpty || r.isDestination path

/-- A new entry for `path`. Its qualifier is made from `hint`, or from the path if the hint is
blank. -/
def newEntry (r : ImportRegistry) (hint path : String) : Import :=
  let hint := Text.trim hint
  let hint := if hint.isEmpty then ModulePath.shortName path else hint
  ⟨r.freeQualifier hint, path, false⟩

def register (r : ImportRegistry) (hint path : String) : ImportRegistry :=
  let path := ModulePath.registered path
  if r.refuses path || (r.entry? path).isSome then r
  else { r with entries := r.entries ++ [r.newEntry hint path] }

def registered? (r : ImportRegistry) (path : String) : Option Import :=
  let path := ModulePath.registered path
  if r.refuses path then none else r.entry? path

def markReferenced (r : ImportRegistry) (path : String) : ImportRegistry :=
  let path := ModulePath.registered path
  { r with entries := r.entries.map fun i ↦ if i.path = path then { i with referenced := true }
    else i }

def referenced (r : ImportRegistry) : List Import := r.entries.filter (·.referenced)

end ImportRegistry

end Understudy
