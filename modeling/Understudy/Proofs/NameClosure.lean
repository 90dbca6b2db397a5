import Mathlib.Data.List.Induction
import Understudy.Proofs.LoadedSets

namespace Understudy

namespace ModuleSet

/-- A name that stands for the type of failures, or for a type that is found in the set under the
very path and name of the module that declares it. -/
inductive Knows (s : ModuleSet) : Option TypeName → Prop
  | error : Knows s (some Ty.errorName)
  | declared {m : Module} {name : String} {decl : TypeDecl} (hm : m ∈ s.modules)
    (hd : s.lookupType? ⟨name, some m.ref⟩ = some decl) (hname : decl.name = name) :
    Knows s (some ⟨name, some m.ref⟩)

/-- Every module has a scope in which each object stands under its own name and has only names that
the set knows. -/
structure IsClosed (s : ModuleSet) : Prop where
  nodup : (s.modules.map (·.path)).Nodup
  scope : ∀ m ∈ s.modules, ∃ scope, m.scope = some scope ∧ scope.IsKeyed ∧
    ∀ entry ∈ scope.objects, ∀ n ∈ entry.2.names, s.Knows n

theorem isClosed_empty : empty.IsClosed := ⟨List.nodup_nil, List.forall_mem_nil _⟩

theorem lookupType?_ref {s : ModuleSet} {m : Module} (hm : s.get? m.path = some m) (name : String) :
    s.lookupType? ⟨name, some m.ref⟩ = m.lookupType? name := by
  simp [lookupType?, Module.ref, hm]

variable {s : ModuleSet} {m : Module}

theorem mem_of_get? {path : String} (h : s.get? path = some m) :
    m ∈ s.modules := List.mem_of_find?_eq_some h

theorem get?_insert_of_get? {path : String} {m' : Module} (h : s.get? path = some m') :
    (s.insert m).get? path = some m' := by
  rw [get?_insert, h, Option.some_or]

theorem get?_insert_self (h : s.contains m.path = false) : (s.insert m).get? m.path = some m := by
  have hnone : s.get? m.path = none := by
    rw [contains_eq] at h
    simpa using h
  rw [get?_insert, hnone, Option.none_or, if_pos rfl]

theorem get?_of_mem (hnodup : (s.modules.map (·.path)).Nodup) (hm : m ∈ s.modules) :
    s.get? m.path = some m := by
  obtain ⟨m', hm'⟩ : ∃ m', s.get? m.path = some m' := by
    rw [← Option.isSome_iff_exists, get?, List.find?_isSome]
    exact ⟨m, hm, decide_eq_true rfl⟩
  have hpath : m'.path = m.path := by simpa using List.find?_some hm'
  rw [hm', List.inj_on_of_nodup_map hnodup (mem_of_get? hm') hm hpath]

theorem Knows.insert {n : Option TypeName} (h : s.Knows n) (hs : s.IsClosed)
    (hfresh : s.contains m.path = false) :
    (s.insert m).Knows n := by
  cases h with
  | error => exact .error
  | @declared m' name decl hm hd hname =>
    have hget := get?_of_mem hs.nodup hm
    rw [lookupType?_ref hget] at hd
    refine .declared ?_ ?_ hname
    · rw [insert_of_fresh hfresh]
      exact List.mem_append_left _ hm
    · rwa [lookupType?_ref (get?_insert_of_get? hget)]

/-- A module that is resolved against a closed set without a report can come into it. -/
theorem IsClosed.insert_resolved (hs : s.IsClosed) {path : String} {files : List ParsedFile}
    (hclean : (resolveModule path files s).diagnostics = [])
    (hm : m = (resolveModule path files s).module) (hfresh : s.contains m.path = false) :
    (s.insert m).IsClosed := by
  have hmodule := Resolve.module_resolveModule path files s
  rw [← hm] at hmodule
  have hself := get?_insert_self hfresh
  have hmodules : (s.insert m).modules = s.modules ++ [m] := by rw [insert_of_fresh hfresh]
  have hmem : m ∈ (s.insert m).modules := mem_of_get? hself
  constructor
  · rw [hmodules, List.map_append, List.map_singleton, ← List.concat_eq_append]
    refine .concat (fun hmem ↦ ?_) hs.nodup
    rw [← contains_eq_true, hfresh] at hmem
    exact Bool.false_ne_true hmem
  · rw [hmodules]
    refine List.forall_mem_append.2 ⟨fun m' hm' ↦ ?_, List.forall_mem_singleton.2 ?_⟩
    · obtain ⟨scope, hscope, hkeyed, hnames⟩ := hs.scope m' hm'
      exact ⟨scope, hscope, hkeyed, fun entry he n hn ↦ (hnames entry he n hn).insert hs hfresh⟩
    · refine ⟨_, by rw [hmodule], fun entry he ↦ ?_, fun entry he n hn ↦ ?_⟩
      · rcases Resolve.mem_addObjects he with he | ⟨-, hname⟩
        · exact absurd he List.not_mem_nil
        · exact hname
      · have hobject : entry.2 ∈ Resolve.objects path files s := by
          rcases Resolve.mem_addObjects he with he | ⟨hobject, -⟩
          · exact absurd he List.not_mem_nil
          · exact hobject
        rcases Resolve.names_objects hclean hobject hn with
          rfl | ⟨name, t, rfl, ht⟩ | ⟨dep, name, decl, hdep, rfl, hdecl⟩
        · exact .error
        · rw [← hm] at ht ⊢
          exact .declared hmem (lookupType?_ref hself name ▸ ht) rfl
        · -- In a module of the set every object stands under its own name.
          obtain ⟨scope, hscope, hkeyed, -⟩ := hs.scope dep (mem_of_get? hdep)
          have hname : decl.name = name := by
            rw [Module.lookup?, hscope] at hdecl
            exact hkeyed _ (Scope.mem_of_lookup? hdecl)
          have hdep' := get?_insert_of_get? (m := m) hdep
          refine .declared (mem_of_get? hdep') ?_ hname
          rw [lookupType?_ref hdep']
          exact Module.lookupType?_eq_some.2 hdecl

theorem IsClosed.markRoot (hs : s.IsClosed) (path : String) : (s.markRoot path).IsClosed := by
  have hmodules := s.modules_markRoot path
  have hlookup : ∀ name, (s.markRoot path).lookupType? name = s.lookupType? name := by
    intro name
    simp only [lookupType?, get?, hmodules]
  refine ⟨hmodules ▸ hs.nodup, fun m hm ↦ ?_⟩
  obtain ⟨scope, hscope, hkeyed, hnames⟩ := hs.scope m (hmodules ▸ hm)
  refine ⟨scope, hscope, hkeyed, fun entry he n hn ↦ ?_⟩
  cases hnames entry he n hn with
  | error => exact .error
  | declared hm hd hname => exact .declared (hmodules ▸ hm) ((hlookup _).trans hd) hname

end ModuleSet

namespace Library

variable {lib : Library} {loading : List String} {a b : ModuleSet}

theorem Adds.isClosed (h : lib.Adds loading a b) (ha : a.IsClosed) : b.IsClosed := by
  cases h with
  | intro hmakes hfresh hfree => exact ha.insert_resolved hmakes.clean hmakes.eq_module hfresh

theorem Grows.isClosed (h : lib.Grows loading a b) (ha : a.IsClosed) : b.IsClosed := by
  induction h with
  | refl => exact ha
  | tail _ hadds ih => exact hadds.isClosed ih

theorem isClosed_loadRoot {s : Session} (hs : s.modules.IsClosed) (request : String) :
    ((lib.loadRoot request).after s).modules.IsClosed := by
  have hgrows := (lib.extends_loadWithin (lib.allRequests.length + 2) [] request s).grows
  rw [← load] at hgrows
  have hclosed := hgrows.isClosed hs
  cases h : lib.load request s with
  | ok path s' =>
    rw [h] at hclosed
    rw [Load.after_ok (loadRoot_ok h)]
    exact hclosed.markRoot path
  | error e s' =>
    rw [h] at hclosed
    rwa [Load.after_error (loadRoot_error h)]

end Library

namespace Session

/-- The session after requests for roots, each made of the library as it is at that time, and each
with a result or without. -/
def history (calls : List (Library × String)) : Session :=
  calls.foldl (fun s call ↦ (call.1.loadRoot call.2).after s) .start

theorem isClosed_history (calls : List (Library × String)) : (history calls).modules.IsClosed := by
  induction calls using List.reverseRecOn with
  | nil => exact ModuleSet.isClosed_empty
  | append_singleton calls call ih =>
    rw [history, List.foldl_append]
    exact Library.isClosed_loadRoot ih call.2

/-- Whatever was asked for before, each module of the set has a scope, and each name in it, at any
depth, is known to the set. -/
theorem knows_names_history (calls : List (Library × String)) {m : Module}
    (hm : m ∈ (history calls).modules.modules) :
    ∃ scope, m.scope = some scope ∧
      ∀ entry ∈ scope.objects, ∀ n ∈ entry.2.names, (history calls).modules.Knows n := by
  obtain ⟨scope, hscope, -, hnames⟩ := (isClosed_history calls).scope m hm
  exact ⟨scope, hscope, hnames⟩

section Shapes

/-- A library without the module `unit`, which the module `shape` imports. -/
def shapes : Library :=
  ⟨.default, ⟨[(["", "", "shape"], .directory), (["", "", "shape", "box.api"],
    .file
      (some
        ("package shape\nimport u \"unit\"\ntype Box struct \x7b Side map[string]*u.Length; In *Box \x7d\n" ++
      "func Measure(b Box) (u.Length, error)\n")))]⟩⟩

def measured : Library :=
  ⟨.default, (shapes.tree.put ["", "", "unit"] .directory).put ["", "", "unit", "unit.api"]
    (.file (some "package unit\ntype Length int\n"))⟩

/-- The module is asked for twice, the second time when what it imports is there. -/
def shapeCalls : List (Library × String) := [(shapes, "shape"), (measured, "shape/")]

theorem knows_names_history_shapes :
    ∃ m ∈ (history shapeCalls).modules.modules, m.path = "shape" ∧ ∃ scope, m.scope = some scope ∧
      ∀ entry ∈ scope.objects, ∀ n ∈ entry.2.names, (history shapeCalls).modules.Knows n := by
  have hpaths : (history shapeCalls).modules.modules.map (·.path) = ["unit", "shape"] := by
    decide +kernel
  have hshape : "shape" ∈ (history shapeCalls).modules.modules.map (·.path) := by
    rw [hpaths]
    exact List.mem_cons_of_mem _ (List.mem_singleton_self _)
  obtain ⟨m, hm, hpath⟩ := List.mem_map.1 hshape
  exact ⟨m, hm, hpath, knows_names_history shapeCalls hm⟩

example :
    ((history shapeCalls).modules.get? "shape").map (fun m ↦ (m.lookup? "Box").map Object.names) =
    some (some [some ⟨"Length", some ⟨"unit", "unit"⟩⟩,
      some ⟨"Box", some ⟨"shape", "shape"⟩⟩]) := by
  decide +kernel

end Shapes

end Session

end Understudy
