import Understudy.Fake
import Understudy.Proofs.ResolvedModule

namespace Understudy

def Module.Declares (m : Module) (name : String) (d : TypeDecl) : Prop :=
  ∃ scope, m.scope = some scope ∧ scope.lookup? name = some (.type d)

theorem Module.lookupType?_eq_some_iff {m : Module} {name : String} {d : TypeDecl} :
    m.lookupType? name = some d ↔ m.Declares name d := by
  rw [lookupType?_eq_some, lookup?, Option.bind_eq_some_iff]
  rfl

theorem Module.lookupType?_eq_none_iff {m : Module} {name : String} :
    m.lookupType? name = none ↔ ∀ d, ¬m.Declares name d := by
  simp only [← lookupType?_eq_some_iff, Option.eq_none_iff_forall_ne_some, ne_eq]

namespace ModuleSet

variable {modules : ModuleSet} {name : String}

/-- The root that declares the type, where no root in front of it declares one under that name. -/
def IsFirst (modules : ModuleSet) (name : String) (m : Module) (d : TypeDecl) : Prop :=
  ∃ before after, modules.rootModules = before ++ m :: after ∧ m.Declares name d ∧
    ∀ m' ∈ before, ∀ d', ¬m'.Declares name d'

theorem isFirst_of_find? {t : Target} (h : Target.find? modules name = some t) :
    modules.IsFirst name t.module t.decl := by
  obtain ⟨before, m, after, hroots, hm, hbefore⟩ := List.findSome?_eq_some_iff.1 h
  obtain ⟨d, hd, rfl⟩ := Option.map_eq_some_iff.1 hm
  refine ⟨before, after, hroots, Module.lookupType?_eq_some_iff.1 hd, fun m' hm' ↦ ?_⟩
  exact Module.lookupType?_eq_none_iff.1 (Option.map_eq_none_iff.1 (hbefore m' hm'))

theorem find?_eq_none_iff :
    Target.find? modules name = none ↔ ∀ m ∈ modules.rootModules, ∀ d, ¬m.Declares name d := by
  simp only [Target.find?, List.findSome?_eq_none_iff, Option.map_eq_none_iff,
    Module.lookupType?_eq_none_iff]

/-- What a look-up of the name comes to. -/
structure Answers (modules : ModuleSet) (name : String) (l : Lookup) : Prop where
  found : ∀ t, l.outcome = .ok t → modules.IsFirst name t.module t.decl
  missing_iff : (∃ e, l.outcome = .error e) ↔ ∀ m ∈ modules.rootModules, ∀ d, ¬m.Declares name d
  silent : ∀ e, l.outcome = .error e → e = .notFound name ∧ l.reported = []

theorem answers_locate (modules : ModuleSet) (imports : ImportRegistry) (name : String) :
    modules.Answers name (Target.locate modules imports name) := by
  rw [Target.locate]
  cases h : Target.find? modules name with
  | none =>
    refine ⟨fun _ ht ↦ (by cases ht), ?_, fun e he ↦ ?_⟩
    · exact ⟨fun _ ↦ find?_eq_none_iff.1 h, fun _ ↦ ⟨_, rfl⟩⟩
    · cases he
      exact ⟨rfl, rfl⟩
  | some t =>
    refine ⟨fun t' ht ↦ ?_, ?_, fun _ he ↦ (by cases he)⟩
    · cases ht
      exact isFirst_of_find? h
    · rw [← find?_eq_none_iff, h]
      exact ⟨fun ⟨_, he⟩ ↦ (by cases he), fun hnone ↦ (by cases hnone)⟩

end ModuleSet

def Lookup.place? (l : Lookup) : Option (Module × TypeDecl) :=
  match l.outcome with
  | .ok t => some (t.module, t.decl)
  | .error _ => none

namespace ImportRegistry

def registerModule (r : ImportRegistry) (m : Module) : ImportRegistry := r.register m.name m.path

/-- What look-ups leave behind that began with `r`. -/
def after (r : ImportRegistry) (lookups : List Lookup) : ImportRegistry :=
  (lookups.getLast?.map (·.imports)).getD r

theorem after_cons (r : ImportRegistry) (l : Lookup) (rest : List Lookup) :
    r.after (l :: rest) = l.imports.after rest := by
  simp only [after, List.getLast?_cons, Option.map_some, Option.getD_some]
  cases rest.getLast? <;> rfl

end ImportRegistry

namespace Target

variable (modules : ModuleSet) (r : ImportRegistry)

theorem place?_locate (name : String) : (locate modules r name).place? =
    modules.rootModules.findSome? fun m ↦ (m.lookupType? name).map (m, ·) := by
  have hplace : (locate modules r name).place? = (find? modules name).map fun t ↦
      (t.module, t.decl) := by
    rw [locate]
    cases find? modules name <;> rfl
  rw [hplace, find?, List.map_findSome?]
  congr 1
  funext m
  simp only [Function.comp, Option.map_map]
  rfl

theorem imports_locate (name : String) : (locate modules r name).imports =
    ((locate modules r name).place?.map (·.1)).toList.foldl ImportRegistry.registerModule r := by
  rw [locate]
  cases find? modules name <;> rfl

theorem after_locateAll (names : List String) : r.after (locateAll modules r names) =
    (((locateAll modules r names).filterMap Lookup.place?).map (·.1)).foldl
    ImportRegistry.registerModule r := by
  induction names generalizing r with
  | nil => rfl
  | cons name rest ih =>
    rw [locateAll, ImportRegistry.after_cons, ih, List.filterMap_cons]
    have himports := imports_locate modules r name
    cases h : (locate modules r name).place? with
    | none =>
      rw [h] at himports
      rw [himports]
      rfl
    | some found =>
      rw [h] at himports
      rw [himports]
      rfl

theorem map_place?_locateAll (names : List String) : (locateAll modules r names).map Lookup.place? =
    names.map fun name ↦ modules.rootModules.findSome? fun m ↦ (m.lookupType? name).map (m, ·) := by
  induction names generalizing r with
  | nil => rfl
  | cons name rest ih => rw [locateAll, List.map_cons, List.map_cons, place?_locate, ih]

/-- Each look-up has its answer from the first root that declares the name. What other modules
declare changes neither these answers nor the imports, and the imports are those of the modules that
were found. -/
theorem answers_locateAll (names : List String) :
    List.Forall₂ modules.Answers names (locateAll modules r names) ∧
    r.after (locateAll modules r names) =
      (((locateAll modules r names).filterMap Lookup.place?).map (·.1)).foldl
      ImportRegistry.registerModule r ∧
    ∀ others : ModuleSet, others.rootModules = modules.rootModules →
      (locateAll others r names).map Lookup.place? = (locateAll modules r names).map Lookup.place? ∧
      r.after (locateAll others r names) = r.after (locateAll modules r names) := by
  refine ⟨?_, after_locateAll modules r names, fun others hroots ↦ ?_⟩
  · induction names generalizing r with
    | nil => exact .nil
    | cons name rest ih => exact .cons (modules.answers_locate r name) (ih _)
  · have hplaces : (locateAll others r names).map Lookup.place? =
        (locateAll modules r names).map Lookup.place? := by
      rw [map_place?_locateAll, map_place?_locateAll, hroots]
    refine ⟨hplaces, ?_⟩
    have hfound (ls : List Lookup) : ls.filterMap Lookup.place? =
        (ls.map Lookup.place?).filterMap id := by
      rw [List.filterMap_map]
      rfl
    rw [after_locateAll, after_locateAll, hfound, hplaces, ← hfound]

end Target

end Understudy
