import Understudy.Proofs.UnloadedImports

namespace Understudy

namespace ModuleSet

def Imports (s : ModuleSet) (a b : String) : Prop := ∃ m ∈ s.modules, m.path = a ∧ b ∈ m.imports

def position (s : ModuleSet) (path : String) : Nat := (s.modules.map (·.path)).idxOf path

theorem position_lt {s : ModuleSet} {before after : List Module} {m : Module}
    (hs : s.modules = before ++ m :: after)
    (hnodup : (s.modules.map (·.path)).Nodup) {path : String} (hp : path ∈ before.map (·.path)) :
    s.position path < s.position m.path := by
  rw [hs, List.map_append, List.map_cons] at hnodup
  have hm : m.path ∉ before.map (·.path) := fun hmem ↦
    (List.nodup_append.1 hnodup).2.2 _ hmem _ (List.mem_cons_self ..) rfl
  rw [position, position, hs, List.map_append, List.map_cons, List.idxOf_append_of_mem hp,
    List.idxOf_append_of_notMem hm, List.idxOf_cons_self]
  have hlt := List.idxOf_lt_length_of_mem hp
  omega

theorem not_transGen_of_position {s : ModuleSet} {R : String → String → Prop}
    (h : ∀ a b, R a b → s.position b < s.position a) (path : String) :
    ¬ Relation.TransGen R path path := by
  have hlt : ∀ {a b}, Relation.TransGen R a b → s.position b < s.position a := by
    intro a b hab
    induction hab with
    | single hab => exact h _ _ hab
    | tail _ hbc ih => exact Nat.lt_trans (h _ _ hbc) ih
  exact fun hcycle ↦ Nat.lt_irrefl _ (hlt hcycle)

end ModuleSet

namespace Library

open ModulePath (ofRequest requested unvendor)

variable {lib : Library}

theorem Makes.contains_imports {request directory : String} {files : List ReadFile}
    {deps : ModuleSet} {m : Module} (h : lib.Makes request directory files deps m) :
    ∀ path ∈ m.imports, deps.contains path = true := by
  intro path hpath
  have hmodule := h.eq_module
  rw [resolution, Resolve.module_resolveModule] at hmodule
  rw [hmodule, List.mem_eraseDups, List.mem_flatMap] at hpath
  obtain ⟨f, hf, hpath⟩ := hpath
  obtain ⟨i, hi, rfl⟩ := List.mem_map.1 hpath
  by_contra hmissing
  rw [ModuleSet.contains_eq, Option.not_isSome_iff_eq_none] at hmissing
  obtain ⟨d, hd, -⟩ := Resolve.reports_notLoaded_iff.2 ⟨f, hf, i, hi, rfl, hmissing⟩
  rw [← resolution, h.clean] at hd
  exact List.not_mem_nil hd

theorem Makes.mem_imports {request directory : String} {files : List ReadFile} {deps : ModuleSet}
    {m : Module} (h : lib.Makes request directory files deps m) {r : String}
    (hr : r ∈ wanted files) : unvendor r ∈ m.imports := by
  obtain ⟨f, hf, i, hi, rfl⟩ := mem_wanted.1 hr
  rw [h.eq_module, resolution, Resolve.module_resolveModule]
  exact List.mem_eraseDups.2 (List.mem_flatMap.2 ⟨f, hf, List.mem_map.2 ⟨i, hi, rfl⟩⟩)

/-- Modules that came in one after the other, each under a new path and made out of what was there
before. -/
inductive Built (lib : Library) : List Module → Prop
  | nil : Built lib []
  | snoc {before : List Module} {roots : List Nat} {request directory : String}
      {files : List ReadFile} {m : Module} (h : Built lib before)
      (hmakes : lib.Makes request directory files ⟨before, roots⟩ m)
      (hfresh : m.path ∉ before.map (·.path)) : Built lib (before ++ [m])

theorem Grows.built {loading : List String} {a b : ModuleSet} (h : lib.Grows loading a b)
    (ha : lib.Built a.modules) :
    lib.Built b.modules := by
  induction h with
  | refl => exact ha
  | tail _ hadds ih =>
    cases hadds with
    | @intro request directory files deps m hmakes hfresh hfree =>
      rw [ModuleSet.insert_of_fresh hfresh]
      refine ih.snoc hmakes fun hmem ↦ ?_
      rw [ModuleSet.contains_eq_true.2 hmem] at hfresh
      cases hfresh

namespace Built

variable {modules before after : List Module} {m : Module}

theorem nodup (h : lib.Built modules) : (modules.map (·.path)).Nodup := by
  induction h with
  | nil => exact List.nodup_nil
  | snoc h hmakes hfresh ih =>
    rw [List.map_append, List.map_singleton, ← List.concat_eq_append]
    exact .concat hfresh ih

theorem makes (h : lib.Built modules) (hm : modules = before ++ m :: after) :
    ∃ request directory files roots, lib.Makes request directory files ⟨before, roots⟩ m := by
  induction h generalizing after with
  | nil => simp at hm
  | snoc h hmakes hfresh ih =>
    rcases after.eq_nil_or_concat with rfl | ⟨rest, last, rfl⟩
    · obtain ⟨rfl, hlast⟩ := List.append_inj' hm rfl
      obtain rfl := List.cons.inj hlast |>.1
      exact ⟨_, _, _, _, hmakes⟩
    · rw [List.concat_eq_append, ← List.cons_append, ← List.append_assoc] at hm
      exact ih (List.append_inj' hm rfl).1

end Built

/-- Wherever a request for the path `a` leads to, the files there want the path `b`. -/
def Needs (lib : Library) (a b : String) : Prop :=
  ∀ request directory files, requested request = a → lib.locate (ofRequest request) a =
    .ok directory →
    (∃ s s', lib.readFiles a directory s = .ok files s') → ∃ r ∈ wanted files, requested r = b

section Order

variable {s : ModuleSet} {a b : String}

theorem Built.position_of_imports (h : lib.Built s.modules) (hab : s.Imports a b) :
    s.position b < s.position a := by
  obtain ⟨m, hm, rfl, hb⟩ := hab
  obtain ⟨before, after, hs⟩ := List.append_of_mem hm
  obtain ⟨request, directory, files, roots, hmakes⟩ := h.makes hs
  exact ModuleSet.position_lt hs h.nodup
    (ModuleSet.contains_eq_true.1 (hmakes.contains_imports b hb))

theorem Built.position_of_needs (h : lib.Built s.modules) (ha : a ∈ s.modules.map (·.path))
    (hab : lib.Needs a b) :
    b ∈ s.modules.map (·.path) ∧ s.position b < s.position a := by
  obtain ⟨m, hm, rfl⟩ := List.mem_map.1 ha
  obtain ⟨before, after, hs⟩ := List.append_of_mem hm
  obtain ⟨request, directory, files, roots, hmakes⟩ := h.makes hs
  have hlocated := hmakes.located
  have hread := hmakes.read
  rw [← hmakes.path] at hlocated hread
  obtain ⟨r, hr, rfl⟩ := hab request directory files hmakes.path.symm hlocated hread
  have hbefore := ModuleSet.contains_eq_true.1 (hmakes.loaded r hr)
  refine ⟨?_, ModuleSet.position_lt hs h.nodup hbefore⟩
  rw [hs, List.map_append]
  exact List.mem_append_left _ hbefore

/-- What is needed from a loaded module on is never needed in a circle. -/
theorem Built.not_transGen_needs (h : lib.Built s.modules) (ha : a ∈ s.modules.map (·.path))
    (hab : Relation.ReflTransGen lib.Needs a b) : ¬ Relation.TransGen lib.Needs b b := by
  have hb : b ∈ s.modules.map (·.path) := by
    induction hab with
    | refl => exact ha
    | tail _ hneeds ih => exact (h.position_of_needs ih hneeds).1
  have hlt : ∀ {c}, Relation.TransGen lib.Needs b c → c ∈ s.modules.map (·.path) ∧
      s.position c < s.position b := by
    intro c hc
    induction hc with
    | single hneeds => exact h.position_of_needs hb hneeds
    | tail _ hneeds ih =>
      obtain ⟨hmem, hpos⟩ := h.position_of_needs ih.1 hneeds
      exact ⟨hmem, Nat.lt_trans hpos ih.2⟩
  exact fun hcycle ↦ Nat.lt_irrefl _ (hlt hcycle).2

end Order

end Library

end Understudy
