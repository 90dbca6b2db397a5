import Understudy.Module

namespace Understudy

structure ModuleSet where
  modules : List Module
  /-- Positions in `modules`, in the order of the requests. -/
  roots : List Nat

namespace ModuleSet

def empty : ModuleSet := ⟨[], []⟩

def index? (s : ModuleSet) (path : String) : Option Nat := s.modules.findIdx? (·.path = path)

def get? (s : ModuleSet) (path : String) : Option Module := s.modules.find? (·.path = path)

def contains (s : ModuleSet) (path : String) : Bool := (s.index? path).isSome

/-- The first module that comes in under a path stays. -/
def insert (s : ModuleSet) (m : Module) : ModuleSet :=
  if s.contains m.path then s else { s with modules := s.modules ++ [m] }

theorem contains_eq (s : ModuleSet) (path : String) : s.contains path = (s.get? path).isSome := by
  rw [contains, index?, get?, List.findIdx?_isSome, Bool.eq_iff_iff, List.any_eq_true,
    List.find?_isSome]

theorem get?_insert (s : ModuleSet) (m : Module) (path : String) :
    (s.insert m).get? path = (s.get? path).or (if m.path = path then some m else none) := by
  unfold insert
  split
  · rename_i h
    by_cases hp : m.path = path
    · rw [contains_eq, hp] at h
      obtain ⟨n, hn⟩ := Option.isSome_iff_exists.1 h
      simp [hn]
    · simp [hp]
  · simp only [get?, List.find?_append, List.find?_singleton, decide_eq_true_eq]

def markRoot (s : ModuleSet) (path : String) : ModuleSet :=
  match s.index? path with
  | some i => if i ∈ s.roots then s else { s with roots := s.roots ++ [i] }
  | none => s

def insertRoot (s : ModuleSet) (m : Module) : ModuleSet := (s.insert m).markRoot m.path

def ofRoots (ms : List Module) : ModuleSet := ms.foldl insertRoot empty

def rootModules (s : ModuleSet) : List Module := s.roots.filterMap (s.modules[·]?)

/-- The declaration that a type name stands for. Modules are told apart by their paths alone. -/
def lookupType? (s : ModuleSet) (name : TypeName) : Option TypeDecl := do
  let module ← name.module
  (← s.get? module.path).lookupType? name.name

def declCount (s : ModuleSet) : Nat :=
  s.modules.foldr (fun m n ↦ (m.scope.map Scope.size).getD 0 + n) 0

/-- What a type is when at most `n` names are replaced by what they are declared to be. -/
def expand? (s : ModuleSet) : Nat → Ty → Option Ty
  | n, .named name => do
    let decl ← s.lookupType? (← name)
    match n with
    | 0 => none
    | n + 1 => s.expand? n decl.type
  | _, t => some t

/-- What a type is behind all names. There is no answer for a name that nothing declares, and none
for declarations that only refer to each other: a chain of names that comes to an end uses each
declaration once at most. -/
def underlying? (s : ModuleSet) (t : Ty) : Option Ty := s.expand? s.declCount t

end ModuleSet

end Understudy
