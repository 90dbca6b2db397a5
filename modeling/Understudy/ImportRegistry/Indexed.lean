import Understudy.PathIndex
import Understudy.Ty.Render

namespace Understudy

structure IndexedImports where
  entries : List Import
  positions : List (String × Nat)
  destination : Option String

namespace IndexedImports

def forget (r : IndexedImports) : ImportRegistry := ⟨r.entries, r.destination⟩

def create : Option String → IndexedImports
  | none => ⟨[], [], none⟩
  | some destination => ⟨[], [], (ImportRegistry.forDestination destination).destination⟩

def register (r : IndexedImports) (hint path : String) : IndexedImports × Option Import :=
  let path := ModulePath.registered path
  if r.forget.refuses path then (r, none)
  else
    match r.positions.lookup path with
    | some i => (r, r.entries[i]?)
    | none =>
      let i := r.entries.length
      let entries := r.entries ++ [r.forget.newEntry hint path]
      ({ r with entries, positions := (path, i) :: r.positions }, entries[i]?)

def resolve (r : IndexedImports) (path : String) : Option Import :=
  (r.positions.lookup (ModulePath.registered path)).bind (r.entries[·]?)

def markReferenced (r : IndexedImports) (path : String) :
    Except OutOfBounds (IndexedImports × Bool) :=
  match r.positions.lookup (ModulePath.registered path) with
  | none => .ok (r, false)
  | some i => do
    let entry ← elementAt r.entries i
    return ({ r with entries := r.entries.set i { entry with referenced := true } }, true)

def registerLeaf (r : IndexedImports) (t : Ty) : IndexedImports :=
  match t.module? with
  | some m => if m.path.isEmpty then r else (r.register m.name m.path).1
  | none => r

def registerType (r : IndexedImports) (t : Ty) : IndexedImports := t.leaves.foldl registerLeaf r

end IndexedImports

end Understudy
