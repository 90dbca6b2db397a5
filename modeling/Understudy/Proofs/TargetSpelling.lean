import Understudy.Proofs.RegisteredPaths

namespace Understudy

namespace ImportRegistry

open ModulePath (registered)

variable {r start : ImportRegistry} {destination path : String}

/-- Nothing can be imported from this path, and it is not where the text goes either. -/
def IsLost (destination path : String) : Prop :=
  registered path = "" ∨
    registered destination ≠ "" ∧ registered path ≠ registered destination ∧
      registered (registered path) = registered destination

section Lost

theorem isDestination_forDestination : (forDestination destination).isDestination path = true ↔
    registered destination ≠ "" ∧ registered path = registered destination := by
  rw [isDestination, forDestination, beq_iff_eq]
  generalize registered path = path, registered destination = destination
  by_cases hblank : destination = ""
  · simp [hblank]
  · simp only [String.isEmpty_iff, hblank, if_false, Option.some.injEq, ne_eq,
      not_false_iff, true_and]
    exact eq_comm

theorem isLost_iff :
    IsLost destination path ↔ (forDestination destination).isDestination path = false ∧
    (forDestination destination).refuses (registered path) = true := by
  rw [← Bool.not_eq_true, refuses, Bool.or_eq_true, String.isEmpty_iff,
    isDestination_forDestination, isDestination_forDestination, IsLost]
  generalize registered (registered path) = again, registered path = path,
    registered destination = destination
  by_cases hpath : path = ""
  · subst hpath
    simp [eq_comm]
  · simp only [hpath, false_or]
    tauto

end Lost

section Calls

theorem exists_calls_registerLeaf (r : ImportRegistry) (t : Ty) :
    ∃ calls, r.registerLeaf t = r.performAll calls := by
  rw [registerLeaf]
  split
  · split
    · exact ⟨[], rfl⟩
    · rename_i m _ _
      exact ⟨[.register m.name m.path], rfl⟩
  · exact ⟨[], rfl⟩

theorem exists_calls_foldl {α : Type} {f : ImportRegistry → α → ImportRegistry}
    (h : ∀ r a, ∃ calls, f r a = r.performAll calls) (as : List α) (r : ImportRegistry) :
    ∃ calls, as.foldl f r = r.performAll calls := by
  induction as generalizing r with
  | nil => exact ⟨[], rfl⟩
  | cons a as ih =>
    obtain ⟨first, hfirst⟩ := h r a
    obtain ⟨later, hlater⟩ := ih (r.performAll first)
    refine ⟨first ++ later, ?_⟩
    rw [List.foldl_cons, hfirst, hlater, performAll_append]

/-- After a call for a module it is found unless it was refused, and then nothing is there for
it. -/
theorem find?_performAll_register (hstart : start.entries = []) (hint path : String)
  (later : List Call) :
    let r := start.performAll (.register hint path :: later)
    (start.refuses (registered path) = false → ∃ i, r.find? path = some i) ∧
    (start.refuses (registered path) = true → ∀ i ∈ r.entries, i.path ≠ registered path) := by
  have hdistinct : start.IsDistinct := by constructor <;> simp [hstart]
  have hadmitted : start.IsAdmitted := by simp [IsAdmitted, hstart]
  refine ⟨fun hrefuses ↦ ?_, fun hrefuses i hi hpath ↦ ?_⟩
  · have hfirst : ∃ i, entry? (start.register hint path) (registered path) = some i := by
      obtain ⟨-, hrefused⟩ | ⟨qualifier, -, -, -, heq⟩ :=
        start.register_cases hint (rfl : registered path = _)
      · simp [hrefuses, entry?, hstart] at hrefused
      · rw [heq, entry?, hstart]
        simp
    obtain ⟨i, hi⟩ := hfirst
    rw [performAll_cons]
    obtain ⟨j, hj, -⟩ :=
      (continues_performAll (start.perform (.register hint path)) later).exists_keeps
      ((hdistinct.register hint path).performAll later) hi
    exact ⟨j, hj⟩
  · have hfinal := (hadmitted.performAll (.register hint path :: later) i hi).2
    rw [refuses_congr (start.continues_performAll _).destination, hpath, hrefuses] at hfinal
    cases hfinal

end Calls

end ImportRegistry

namespace Fake

open ImportRegistry
open ModulePath (registered)

variable {s : ModuleSet} {name : String} {options : FakeOptions} {fake : Fake}

theorem exists_calls_ofMethods (options : FakeOptions) (target : Target) (registry : ImportRegistry)
    (methods : List (Method Ty)) : ∃ calls, (ofMethods options target registry methods).imports =
      registry.performAll calls := by
  refine imports_ofMethods (P := fun r ↦ ∃ calls, r = registry.performAll calls) ?_ ?_
  · rintro r path ⟨calls, rfl⟩
    refine ⟨calls ++ [.markReferenced path], ?_⟩
    rw [performAll_concat, perform]
  · refine exists_calls_foldl (fun r t ↦ ?_) _ _
    exact exists_calls_foldl exists_calls_registerLeaf _ r

theorem targetQualifier_ofMethods (options : FakeOptions) (target : Target)
  (registry : ImportRegistry)
    (methods : List (Method Ty)) :
    let fake := ofMethods options target registry methods
    fake.targetQualifier = ((fake.imports.find? target.module.path).map (·.qualifier)).getD
      target.module.name := by
  intro fake
  have hmarked : (fake.imports.find? target.module.path).map (·.qualifier) =
      (((writtenTypes methods).foldl registerType registry).find? target.module.path).map
      (·.qualifier) :=
    imports_ofMethods (P := fun r ↦ (r.find? target.module.path).map (·.qualifier) = _)
      (fun r path h ↦ (r.find?_markReferenced path _).trans h) rfl
  rw [hmarked]
  rfl

theorem exists_history (h : (generate s name options).outcome = .ok fake) :
    ∃ target later, Target.find? s (Text.trim name) = some target ∧
    fake.targetName = target.decl.name ∧
      fake.targetPath = target.module.path ∧
      fake.imports = (forDestination options.destination).performAll
        (.register target.module.name target.module.path :: later) ∧
      fake.targetQualifier = ((fake.imports.find? fake.targetPath).map (·.qualifier)).getD
        target.module.name := by
  obtain ⟨target, methods, problems, htarget, -, rfl⟩ := exists_of_generate h
  obtain ⟨later, hlater⟩ := exists_calls_ofMethods options target
    ((forDestination options.destination).register target.module.name target.module.path) methods
  refine ⟨target, later, htarget, rfl, rfl, ?_, targetQualifier_ofMethods ..⟩
  rw [hlater, performAll_cons, perform]

/-- The target of a stand-in is spelled as in the types that are written down exactly if its module
is not lost. If it is, nothing is imported for it, and the target is qualified nevertheless. -/
theorem targetText_generate (h : (generate s name options).outcome = .ok fake) :
    ∃ target, Target.find? s (Text.trim name) = some target ∧ fake.targetName = target.decl.name ∧
      fake.targetPath = target.module.path ∧
      let written := fake.imports.render (.named (some ⟨fake.targetName, some target.module.ref⟩))
      (fake.targetText = written ↔ ¬IsLost options.destination fake.targetPath) ∧
      (IsLost options.destination fake.targetPath →
        fake.targetText = target.module.name ++ "." ++ fake.targetName ∧ written = fake.targetName ∧
        ∀ i ∈ fake.imports.entries, i.path ≠ registered fake.targetPath) := by
  obtain ⟨target, later, htarget, hname, hpath, himports, hqualifier⟩ := exists_history h
  have hstart : (forDestination options.destination).entries = [] := rfl
  obtain ⟨hfound, hrefused⟩ :=
    find?_performAll_register hstart target.module.name target.module.path later
  rw [← himports, ← hpath] at hfound hrefused
  have hdestination : fake.imports.isDestination fake.targetPath =
      (forDestination options.destination).isDestination fake.targetPath := by
    rw [isDestination, isDestination, himports, (continues_performAll _ _).destination]
  refine ⟨target, htarget, hname, hpath, ?_⟩
  rw [render, spell_eq, targetText, hdestination, hqualifier, isLost_iff]
  simp only [Module.ref, ← hpath, hdestination]
  cases hown : (forDestination options.destination).isDestination fake.targetPath with
  | true => simp
  | false =>
    cases hrefuses : (forDestination options.destination).refuses (registered fake.targetPath) with
    | false =>
      obtain ⟨i, hi⟩ := hfound hrefuses
      simp [hi]
    | true =>
      have hnone : fake.imports.find? fake.targetPath = none := by
        simpa [find?, entry?_eq_none_iff] using hrefused hrefuses
      simpa [hnone] using hrefused hrefuses

def clockMethod : Method Ty :=
  ⟨"Next", ⟨[], [⟨none, .named (some ⟨"Clock", some ⟨"", "main"⟩⟩)⟩], false⟩⟩

/-- An interface in a module without a path, the method of which speaks of that interface. -/
def clocks : ModuleSet :=
  ⟨[⟨"", "main", some ⟨[("Clock", .type ⟨"Clock", .interface [clockMethod] []⟩)]⟩, []⟩], [0]⟩

theorem targetText_generate_clocks : ∃ fake, (generate clocks "Clock" .default).outcome = .ok fake ∧
    IsLost "" fake.targetPath ∧ fake.targetText = "main.Clock" ∧
    fake.imports.render (.named (some ⟨"Clock", some ⟨"", "main"⟩⟩)) = "Clock" ∧
    fake.methods = [⟨"Next", [], [⟨none, "Clock", false⟩]⟩] := by
  have hmade : (generate clocks "Clock" .default).outcome.toOption.map
      (fun fake ↦ (fake.targetName, fake.targetPath, fake.methods)) =
        some ("Clock", "", [⟨"Next", [], [⟨none, "Clock", false⟩]⟩]) := by decide +kernel
  have hmodule : (Target.find? clocks (Text.trim "Clock")).map (·.module.ref) =
      some ⟨"", "main"⟩ := by
    decide +kernel
  obtain ⟨fake, hout, hfake⟩ := exists_of_outcome hmade
  obtain ⟨hname, hpath, hmethods⟩ : fake.targetName = "Clock" ∧ fake.targetPath = "" ∧
      fake.methods = [⟨"Next", [], [⟨none, "Clock", false⟩]⟩] := by simpa using hfake
  obtain ⟨target, htarget, -, -, -, hlost⟩ := targetText_generate hout
  rw [htarget, Option.map_some, Option.some.injEq] at hmodule
  have hblank : IsLost "" fake.targetPath := by
    rw [hpath]
    exact .inl (by decide +kernel)
  obtain ⟨htext, hwritten, -⟩ := hlost hblank
  have hmain : target.module.name = "main" := congrArg ModuleRef.name hmodule
  rw [hname, hmodule] at hwritten
  rw [hmain, hname] at htext
  exact ⟨fake, hout, hblank, htext, hwritten, hmethods⟩

end Fake

end Understudy
