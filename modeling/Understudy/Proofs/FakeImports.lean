import Understudy.Proofs.FakeQualifiers

namespace Understudy

/-- The paths of the modules that a type mentions at its leaves, from left to right. -/
def Ty.modulePaths (t : Ty) : List String := t.leaves.filterMap fun leaf ↦ leaf.module?.map (·.path)

namespace ImportRegistry

open ModulePath (IsCanonical registered)

/-- What is imported into the module at `destination` by a text that mentions modules in this
order. -/
def importedPaths (destination : String) (mentioned : List String) : List String :=
  (mentioned.filter fun path ↦ path ≠ "" ∧ path ≠ destination).eraseDups

variable {r : ImportRegistry} {destination path : String} {mentioned : List String}

theorem mem_importedPaths : path ∈ importedPaths destination mentioned ↔
    path ∈ mentioned ∧ path ≠ "" ∧ path ≠ destination := by
  simp [importedPaths, List.mem_eraseDups]

section Registering

theorem IsOrderly.paths_register (h : r.IsOrderly destination) (hint : String)
    (hp : IsCanonical path) (hr : r.entries.map (·.path) = importedPaths destination mentioned) :
    (r.register hint path).entries.map (·.path) =
      importedPaths destination (mentioned ++ [path]) := by
  have hrefuses := h.refuses_iff hp
  rw [importedPaths, List.filter_append]
  by_cases hown : path = "" ∨ path = destination
  · have hnone : [path].filter (fun path ↦ path ≠ "" ∧ path ≠ destination) = [] := by
      simpa [or_iff_not_imp_left] using hown
    rw [hnone, List.append_nil]
    obtain ⟨heq, -⟩ | ⟨qualifier, -, hadmits, -, -⟩ := r.register_cases hint hp.registered
    · rw [heq, hr, importedPaths]
    · rw [hrefuses.2 hown] at hadmits
      cases hadmits
  · have hone : [path].filter (fun path ↦ path ≠ "" ∧ path ≠ destination) = [path] := by
      simpa [not_or] using hown
    have hmem : path ∈ mentioned.filter (fun path ↦ path ≠ "" ∧ path ≠ destination) ↔
        path ∈ r.entries.map (·.path) := by
      rw [hr, importedPaths, List.mem_eraseDups]
    rw [hone, eraseDups_append_singleton]
    obtain ⟨heq, hsame⟩ | ⟨qualifier, -, -, hnone, heq⟩ := r.register_cases hint hp.registered
    · have hsome := hsame.resolve_left fun h ↦ hown (hrefuses.1 h)
      obtain ⟨i, hi⟩ := Option.isSome_iff_exists.1 hsome
      have hentry : path ∈ r.entries.map (·.path) := by
        by_contra hnew
        rw [entry?_eq_none_iff.2 hnew] at hi
        cases hi
      rw [heq, if_pos (hmem.2 hentry), hr, importedPaths]
    · rw [heq, if_neg fun h ↦ entry?_eq_none_iff.1 hnone (hmem.1 h), List.map_append, hr,
        importedPaths]
      rfl

theorem registerLeaf_eq (r : ImportRegistry) {t : Ty} {m : ModuleRef} (hm : t.module? = some m) :
    r.registerLeaf t = r.register m.name m.path := by
  rw [registerLeaf, hm]
  dsimp only
  split
  · rename_i hempty
    have hregistered : registered "" = "" := by decide +kernel
    rw [String.isEmpty_iff.1 hempty, ImportRegistry.register, hregistered]
    rfl
  · rfl

theorem IsOrderly.paths_foldl_registerLeaf (h : r.IsOrderly destination) {leaves : List Ty}
    (hleaves : ∀ t ∈ leaves, ∀ m, t.module? = some m → IsCanonical m.path)
    (hr : r.entries.map (·.path) = importedPaths destination mentioned) :
    (leaves.foldl ImportRegistry.registerLeaf r).entries.map (·.path) =
      importedPaths destination
        (mentioned ++ leaves.filterMap fun leaf ↦ leaf.module?.map (·.path)) := by
  induction leaves generalizing r mentioned with
  | nil => rwa [List.filterMap_nil, List.append_nil]
  | cons t rest ih =>
    obtain ⟨ht, hrest⟩ := List.forall_mem_cons.1 hleaves
    rw [List.foldl_cons, List.filterMap_cons]
    cases hm : t.module? with
    | none =>
      have hsame : r.registerLeaf t = r := by rw [ImportRegistry.registerLeaf, hm]
      rw [hsame]
      exact ih h hrest hr
    | some m =>
      rw [r.registerLeaf_eq hm]
      have hfirst := h.paths_register m.name (ht m hm) hr
      have hlater := ih (h.register m.name (ht m hm)) hrest hfirst
      rwa [List.append_assoc] at hlater

end Registering

section Marking

theorem entries_foldl_markReferenced (paths : List String) (r : ImportRegistry) :
    (paths.foldl markReferenced r).entries = r.entries.map fun i ↦
      { i with referenced := i.referenced || (paths.map registered).contains i.path } := by
  induction paths generalizing r with
  | nil => simp
  | cons path rest ih =>
    rw [List.foldl_cons, ih, markReferenced, List.map_map]
    refine List.map_congr_left fun i _ ↦ ?_
    dsimp only [Function.comp]
    by_cases hpath : i.path = registered path
    · simp [hpath]
    · simp [hpath]

theorem mem_qualifiedPaths (h : r.IsOrderly destination) {t leaf : Ty} (hleaf : leaf ∈ t.leaves)
    {m : ModuleRef} (hm : leaf.module? = some m) (hp : IsCanonical m.path)
    (hmem : m.path ∈ r.entries.map (·.path)) : m.path ∈ r.qualifiedPaths t := by
  obtain ⟨name, rfl, hname⟩ : ∃ name, leaf = .named (some name) ∧ name.module = some m := by
    unfold Ty.module? at hm
    split at hm
    · exact ⟨_, rfl, hm⟩
    · cases hm
  obtain ⟨i, hi, hpath⟩ := List.mem_map.1 hmem
  have hne := h.path_ne i hi
  rw [hpath] at hne
  have hdestination : r.isDestination m.path = false := by
    rw [← Bool.not_eq_true, h.isDestination_iff hp hne.1]
    exact hne.2
  refine List.mem_filterMap.2 ⟨_, hleaf, ?_⟩
  have hentry : r.find? m.path = some i := by
    rw [find?, hp.registered]
    exact h.isDistinct.entry?_eq_some_iff.2 ⟨hi, hpath⟩
  simp only [Ty.asNamed?, Option.bind_some, qualifierOf?, hname, hdestination, Bool.false_eq_true,
    if_false, hentry, Option.map_some, hpath]

end Marking

end ImportRegistry

namespace Fake

open ImportRegistry
open ModulePath (IsCanonical registered)

variable {s : ModuleSet} {name : String} {options : FakeOptions} {fake : Fake} {target : Target}
  {methods : List (Method Ty)} {problems : List Diagnostic}

theorem pairwise_methodsFor? (h : methodsFor? s target = some (methods, problems)) :
    methods.Pairwise fun a b ↦ a.name < b.name := by
  unfold methodsFor? at h
  split at h
  · cases h
    exact Ty.pairwise_methodSet _
  · cases h
    exact List.pairwise_singleton _ _
  · cases h

theorem isCanonical_of_writtenTypes (hs : s.IsCanonical)
    (htarget : Target.find? s name = some target)
    (h : methodsFor? s target = some (methods, problems)) :
    ∀ t ∈ (writtenTypes methods).flatMap Ty.leaves, ∀ m, t.module? = some m →
    IsCanonical m.path := by
  intro leaf hleaf m hm
  obtain ⟨n, hmentions, hn⟩ := exists_mentions_of_leaf (mentions_of_methodsFor? htarget h) hleaf hm
  exact hs.refs n hmentions m hn

def registryFor (options : FakeOptions) (target : Target) (methods : List (Method Ty)) :
    ImportRegistry :=
  (writtenTypes methods).foldl registerType
    ((forDestination options.destination).register target.module.name target.module.path)

theorem imports_ofMethods_eq (options : FakeOptions) (target : Target)
    (methods : List (Method Ty)) : ∃ marks : List String, (ofMethods options target
        ((forDestination options.destination).register target.module.name target.module.path)
        methods).imports =
      marks.foldl markReferenced (registryFor options target methods) ∧
      (∀ path ∈ (registryFor options target methods).allQualifiedPaths (writtenTypes methods),
        path ∈ marks) ∧
      ((registryFor options target methods).isDestination target.module.path = false →
        target.module.path ∈ marks) := by
  rw [ofMethods]
  dsimp only
  rw [← registryFor]
  generalize registryFor options target methods = final
  split
  · rename_i hown
    refine ⟨_, rfl, fun _ h ↦ h, fun h ↦ ?_⟩
    rw [hown] at h
    cases h
  · refine ⟨final.allQualifiedPaths (writtenTypes methods) ++ [target.module.path], ?_, ?_, ?_⟩
    · rw [List.foldl_append]
      rfl
    · exact fun path h ↦ List.mem_append_left _ h
    · exact fun _ ↦ List.mem_append_right _ (List.mem_singleton_self _)

section Registry

variable (hs : s.IsCanonical) (htarget : Target.find? s name = some target)
  (hmethods : methodsFor? s target = some (methods, problems))

include hs htarget hmethods

theorem isOrderly_registryFor (options : FakeOptions) :
    (registryFor options target methods).IsOrderly (registered options.destination) := by
  rw [registryFor, registerType_flatMap]
  have hstart := (isOrderly_forDestination options.destination).register target.module.name
    (hs.modules _ (exists_of_find? htarget).1)
  exact hstart.foldl_registerLeaf (isCanonical_of_writtenTypes hs htarget hmethods)

theorem paths_registryFor (options : FakeOptions) :
    (registryFor options target methods).entries.map (·.path) =
    importedPaths (registered options.destination)
      (target.module.path :: (writtenTypes methods).flatMap Ty.modulePaths) := by
  have htargetPath := hs.modules _ (exists_of_find? htarget).1
  have hbegin := isOrderly_forDestination options.destination
  have hempty : (forDestination options.destination).entries.map (·.path) =
      importedPaths (registered options.destination) [] := rfl
  have hfirst := hbegin.paths_register target.module.name htargetPath hempty
  rw [registryFor, registerType_flatMap,
    (hbegin.register target.module.name htargetPath).paths_foldl_registerLeaf
    (isCanonical_of_writtenTypes hs htarget hmethods) hfirst, List.filterMap_flatMap]
  rfl

/-- Each entry is for the target, or some text is qualified with it. -/
theorem mem_registryFor {options : FakeOptions} {path : String}
    (h : path ∈ (registryFor options target methods).entries.map (·.path)) :
    IsCanonical path ∧
      (path = target.module.path ∧ (registryFor options target methods).isDestination path = false ∨
        path ∈ (registryFor options target methods).allQualifiedPaths (writtenTypes methods)) := by
  have horderly := isOrderly_registryFor hs htarget hmethods options
  have himported := h
  rw [paths_registryFor hs htarget hmethods, mem_importedPaths] at himported
  obtain ⟨hmentioned, hne, hforeign⟩ := himported
  rcases List.mem_cons.1 hmentioned with rfl | hmentioned
  · have hp := hs.modules _ (exists_of_find? htarget).1
    refine ⟨hp, .inl ⟨rfl, ?_⟩⟩
    rw [← Bool.not_eq_true, horderly.isDestination_iff hp hne]
    exact hforeign
  · obtain ⟨t, ht, hpath⟩ := List.mem_flatMap.1 hmentioned
    obtain ⟨leaf, hleaf, hpath⟩ := List.mem_filterMap.1 hpath
    obtain ⟨m, hm, rfl⟩ := Option.map_eq_some_iff.1 hpath
    have hp := isCanonical_of_writtenTypes hs htarget hmethods leaf
      (List.mem_flatMap.2 ⟨t, ht, hleaf⟩) m hm
    refine ⟨hp, .inr (List.mem_eraseDups.2 (List.mem_flatMap.2 ⟨t, ht, ?_⟩))⟩
    exact mem_qualifiedPaths horderly hleaf hm hp h

end Registry

/-- The imports of a stand-in are the modules that it mentions, in the order in which it does, and
all of them are used. -/
theorem imports_generate (hs : s.IsCanonical) (h : (generate s name options).outcome = .ok fake) :
    ∃ target methods problems, Target.find? s (Text.trim name) = some target ∧
      methodsFor? s target = some (methods, problems) ∧
      fake.methods = methods.map (renderMethod fake.imports) ∧
      (fake.methods.map (·.name)).Pairwise (fun a b ↦ Text.bytes a < Text.bytes b) ∧
      (∀ i ∈ fake.imports.entries, i.referenced = true) ∧
      fake.imports.entries.map (·.path) = importedPaths (registered options.destination)
        (target.module.path :: (writtenTypes methods).flatMap Ty.modulePaths) := by
  obtain ⟨target, methods, problems, htarget, hmethods, rfl⟩ := exists_of_generate h
  obtain ⟨marks, himports, hused, hneeded⟩ := imports_ofMethods_eq options target methods
  have hentries := entries_foldl_markReferenced marks (registryFor options target methods)
  rw [← himports] at hentries
  refine ⟨target, methods, problems, htarget, hmethods, methods_ofMethods .., ?_, fun i hi ↦ ?_, ?_⟩
  · rw [methods_ofMethods, List.map_map]
    exact List.pairwise_map.2 ((pairwise_methodsFor? hmethods).imp Text.bytes_lt_bytes)
  · rw [hentries] at hi
    obtain ⟨j, hj, rfl⟩ := List.mem_map.1 hi
    obtain ⟨hp, hneed⟩ :=
      mem_registryFor hs htarget hmethods (List.mem_map_of_mem (f := (·.path)) hj)
    have hmark : j.path ∈ marks := by
      rcases hneed with ⟨heq, hforeign⟩ | hqualified
      · rw [heq] at hforeign ⊢
        exact hneeded hforeign
      · exact hused _ hqualified
    have hregistered : j.path ∈ marks.map registered :=
      List.mem_map.2 ⟨j.path, hmark, hp.registered⟩
    simp [hregistered]
  · rw [hentries, List.map_map]
    exact paths_registryFor hs htarget hmethods options

section Journal

def writeMethod : Method Ty :=
  ⟨"Write", ⟨[⟨none, levelOf "a/log"⟩], [⟨none, .named (some Ty.errorName)⟩], false⟩⟩

def readMethod : Method Ty :=
  ⟨"Read", ⟨[⟨none, .slice (levelOf "b/log")⟩], [⟨none, levelOf "a/log"⟩], true⟩⟩

/-- The methods of a journal are not declared in the order of their names. -/
def journalType : Ty := .interface [writeMethod, readMethod] []

def journalModule : Module :=
  ⟨"app", "app", some ⟨[("Journal", .type ⟨"Journal", journalType⟩)]⟩, []⟩

def journal : ModuleSet := ⟨[journalModule], [0]⟩

theorem isCanonical_journal : journal.IsCanonical :=
  ModuleSet.isCanonical_of_paths (by decide +kernel)

theorem imports_generate_journal :
    ∃ fake, (generate journal "Journal" .default).outcome = .ok fake ∧
    fake.methods.map (·.name) = ["Read", "Write"] ∧
    (∀ i ∈ fake.imports.entries, i.referenced = true) ∧
    fake.imports.entries.map (·.path) = ["app", "b/log", "a/log"] := by
  have hmade : (generate journal "Journal" .default).outcome.toOption.map (·.targetName) =
      some "Journal" := by decide +kernel
  obtain ⟨fake, hout, -⟩ := exists_of_outcome hmade
  have hfound : Target.find? journal (Text.trim "Journal") =
      some ⟨⟨"Journal", journalType⟩, journalModule, .interface⟩ := rfl
  have hasked : methodsFor? journal ⟨⟨"Journal", journalType⟩, journalModule, .interface⟩ =
      some (Ty.methodSet [writeMethod, readMethod], []) := rfl
  have hsorted : Ty.methodSet [writeMethod, readMethod] = [readMethod, writeMethod] :=
    Ty.methodSet_eq (by decide +kernel) (by simp [writeMethod, readMethod]) (by decide +kernel)
  obtain ⟨target, methods, problems, htarget, hmethods, htexts, -, hreferenced, hpaths⟩ :=
    imports_generate isCanonical_journal hout
  obtain rfl := Option.some_inj.1 (hfound.symm.trans htarget)
  rw [hasked, hsorted, Option.some_inj] at hmethods
  obtain ⟨rfl, rfl⟩ := Prod.mk.inj hmethods
  refine ⟨fake, hout, ?_, hreferenced, ?_⟩
  · rw [htexts]
    rfl
  · rw [hpaths]
    decide +kernel

end Journal

end Fake

end Understudy
