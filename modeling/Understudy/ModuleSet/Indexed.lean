import Understudy.ModuleSet
import Understudy.PathIndex

namespace Understudy

structure IndexedSet where
  modules : List Module
  roots : List Nat
  positions : List (String × Nat)

namespace IndexedSet

def empty : IndexedSet := ⟨[], [], []⟩

def forget (s : IndexedSet) : ModuleSet := ⟨s.modules, s.roots⟩

def insert (s : IndexedSet) (m : Module) : IndexedSet × Nat :=
  match s.positions.lookup m.path with
  | some i => (s, i)
  | none =>
    let i := s.modules.length
    ({ s with modules := s.modules ++ [m], positions := (m.path, i) :: s.positions }, i)

def addRoot (s : IndexedSet) (i : Nat) : IndexedSet :=
  if i ∈ s.roots then s else { s with roots := s.roots ++ [i] }

def insertRoot (s : IndexedSet) (m : Module) : IndexedSet × Nat :=
  let (s, i) := s.insert m
  (s.addRoot i, i)

def markRoot (s : IndexedSet) (path : String) : IndexedSet × Bool :=
  match s.positions.lookup path with
  | some i => (s.addRoot i, true)
  | none => (s, false)

def ofRoots (ms : List Module) : IndexedSet := ms.foldl (fun s m ↦ (s.insertRoot m).1) empty

def moduleAt (s : IndexedSet) (i : Nat) : Except OutOfBounds Module := elementAt s.modules i

def get (s : IndexedSet) (path : String) : Except OutOfBounds (Option Module) :=
  match s.positions.lookup path with
  | some i => (s.moduleAt i).map some
  | none => .ok none

def contains (s : IndexedSet) (path : String) : Bool := (s.positions.lookup path).isSome

def rootModules (s : IndexedSet) : Except OutOfBounds (List Module) := s.roots.mapM s.moduleAt

end IndexedSet

end Understudy
