import Understudy.Proofs.Registration

namespace Understudy

/-- A path in the form that import lists keep. -/
structure ModulePath.IsCanonical (path : String) : Prop where
  trimmed : Text.trim path = path
  unvendored : unvendor path = path

theorem ModulePath.IsCanonical.registered {path : String} (h : IsCanonical path) :
    ModulePath.registered path = path := by
  rw [ModulePath.registered, h.trimmed, h.unvendored]

namespace Ty

/-- A text of a type in which every name has a spelling of its own. -/
inductive IsText (spelled : TypeName → String → Prop) : Ty → String → Prop
  | basic (kind : BasicKind) : IsText spelled (.basic kind) kind.name
  | named {name : TypeName} {text : String} (h : spelled name text) :
      IsText spelled (.named (some name)) text
  | pointer {elem : Ty} {text : String} (h : IsText spelled elem text) :
      IsText spelled (.pointer elem) ("*" ++ text)
  | slice {elem : Ty} {text : String} (h : IsText spelled elem text) :
      IsText spelled (.slice elem) ("[]" ++ text)
  | array (length : UInt64) {elem : Ty} {text : String} (h : IsText spelled elem text) :
    IsText spelled (.array length elem) (lengthMark length ++ text)
  | map {key elem : Ty} {keyText text : String} (hkey : IsText spelled key keyText)
      (h : IsText spelled elem text) :
      IsText spelled (.map key elem) ("map[" ++ keyText ++ "]" ++ text)
  | chan (dir : ChanDir) {elem : Ty} {text : String} (h : IsText spelled elem text) :
    IsText spelled (.chan dir elem) (dir.mark ++ text)
  | undeclared : IsText spelled (.named none) ""
  | interface (methods : List (Method Ty)) (embedded : List Ty) :
    IsText spelled (.interface methods embedded) (Ty.interface methods embedded).display
  | signature (sig : Signature Ty) : IsText spelled (.signature sig) ""
  | struct (fields : List (Var Ty)) : IsText spelled (.struct fields) ""

theorem isText_render {spelled : TypeName → String → Prop} {r : ImportRegistry} {t : Ty}
    (h : ∀ name, .named (some name) ∈ t.leaves → spelled name (r.spell name)) :
    t.IsText spelled (r.render t) := by
  cases t with
  | basic kind => exact .basic kind
  | pointer elem => exact .pointer (isText_render h)
  | slice elem => exact .slice (isText_render h)
  | array length elem => exact .array length (isText_render h)
  | map key elem =>
    refine .map (isText_render fun name hname ↦ h name ?_)
      (isText_render fun name hname ↦ h name ?_)
    · exact List.mem_append_left _ hname
    · exact List.mem_append_right _ hname
  | chan dir elem => exact .chan dir (isText_render h)
  | named name =>
    cases name with
    | none => exact .undeclared
    | some name => exact .named (h name (List.mem_singleton_self _))
  | interface methods embedded => exact .interface methods embedded
  | signature sig => exact .signature sig
  | struct fields => exact .struct fields
termination_by structural t

end Ty

namespace ImportRegistry

open ModulePath (IsCanonical)

/-- How a type name is spelled in the module at `destination`: bare if it is known everywhere or
belongs there, otherwise with the qualifier of the import of its module. -/
inductive Spells (r : ImportRegistry) (destination : String) : TypeName → String → Prop
  | known (name : String) : Spells r destination ⟨name, none⟩ name
  | own {name : String} {m : ModuleRef} (h : m.path = "" ∨ m.path = destination) :
    Spells r destination ⟨name, some m⟩ name
  | imported {name : String} {m : ModuleRef} {i : Import} (hne : m.path ≠ "")
      (hd : m.path ≠ destination) (hi : i ∈ r.entries) (hpath : i.path = m.path) :
      Spells r destination ⟨name, some m⟩ (i.qualifier ++ "." ++ name)

/-- No two entries are for one module, and no two have the same qualifier. -/
structure IsDistinct (r : ImportRegistry) : Prop where
  paths : (r.entries.map (·.path)).Nodup
  qualifiers : (r.entries.map (·.qualifier)).Nodup

/-- Each module has one import at most and that has a qualifier of its own. The module that the text
goes into has none. -/
structure IsOrderly (destination : String) (r : ImportRegistry) : Prop where
  destination_eq : r.destination = if destination.isEmpty then none else some destination
  qualifiers : (r.entries.map (·.qualifier)).Nodup
  paths : (r.entries.map (·.path)).Nodup
  path_ne : ∀ i ∈ r.entries, i.path ≠ "" ∧ i.path ≠ destination

theorem isOrderly_forDestination (path : String) :
    (forDestination path).IsOrderly (ModulePath.registered path) :=
  ⟨rfl, List.nodup_nil, List.nodup_nil, List.forall_mem_nil _⟩

variable {r : ImportRegistry} {destination path : String}

theorem IsOrderly.isDestination_iff (h : r.IsOrderly destination) (hp : IsCanonical path)
    (hne : path ≠ "") : r.isDestination path = true ↔ path = destination := by
  rw [isDestination, hp.registered, h.destination_eq]
  by_cases hd : destination = ""
  · simp [hd, hne]
  · simp [hd, @eq_comm _ path]

theorem IsOrderly.refuses_iff (h : r.IsOrderly destination) (hp : IsCanonical path) :
    r.refuses path = true ↔ path = "" ∨ path = destination := by
  rw [refuses, Bool.or_eq_true, String.isEmpty_iff]
  by_cases hne : path = ""
  · simp [hne]
  · rw [h.isDestination_iff hp hne]

theorem entry?_eq_none_iff : r.entry? path = none ↔ path ∉ r.entries.map (·.path) := by
  simp [ entry?, List.find?_eq_none]

theorem IsDistinct.entry?_eq_some_iff (h : r.IsDistinct) {i : Import} :
    r.entry? path = some i ↔ i ∈ r.entries ∧ i.path = path := by
  constructor
  · intro hi
    exact ⟨List.mem_of_find?_eq_some hi, by simpa using List.find?_some hi⟩
  · rintro ⟨hi, rfl⟩
    have hsome : (r.entry? i.path).isSome := List.find?_isSome.2 ⟨i, hi, decide_eq_true rfl⟩
    obtain ⟨j, hj⟩ := Option.isSome_iff_exists.1 hsome
    have hpath : j.path = i.path := by simpa using List.find?_some hj
    rw [hj, List.inj_on_of_nodup_map h.paths (List.mem_of_find?_eq_some hj) hi hpath]

/-- Registering a module leaves the list as it is, or adds an entry for the module with a qualifier
that is free. -/
theorem register_cases (r : ImportRegistry) (hint : String) {key : String}
    (hkey : ModulePath.registered path = key) :
    r.register hint path = r ∧ (r.refuses key = true ∨ (r.entry? key).isSome) ∨
      ∃ qualifier, r.isTaken qualifier = false ∧ r.refuses key = false ∧ r.entry? key = none ∧
        r.register hint path = { r with entries := r.entries ++ [⟨qualifier, key, false⟩] } := by
  unfold register
  simp only [hkey]
  split
  · rename_i h
    exact .inl ⟨rfl, by simpa using h⟩
  · rename_i h
    simp only [Bool.or_eq_true, not_or, Bool.not_eq_true, Option.isSome_eq_false_iff,
      Option.isNone_iff_eq_none] at h
    exact .inr ⟨_, r.not_isTaken_freeQualifier _, h.1, h.2, rfl⟩

theorem IsDistinct.register (h : r.IsDistinct) (hint path : String) :
    (r.register hint path).IsDistinct := by
  obtain ⟨heq, -⟩ | ⟨qualifier, hfree, -, hnone, heq⟩ :=
    r.register_cases hint (rfl : ModulePath.registered path = _)
  · rwa [heq]
  · rw [heq]
    constructor
    · have hnew : ModulePath.registered path ∉ r.entries.map (·.path) := entry?_eq_none_iff.1 hnone
      simpa [List.nodup_append, h.paths] using hnew
    · have hnew : qualifier ∉ r.entries.map (·.qualifier) := by
        rw [← isTaken_iff, hfree]
        exact Bool.false_ne_true
      simpa [List.nodup_append, h.qualifiers] using hnew

theorem IsOrderly.isDistinct (h : r.IsOrderly destination) : r.IsDistinct := ⟨h.paths, h.qualifiers⟩

theorem IsOrderly.register (h : r.IsOrderly destination) (hint : String) (hp : IsCanonical path) :
    (r.register hint path).IsOrderly destination := by
  have hdistinct := h.isDistinct.register hint path
  obtain ⟨heq, -⟩ | ⟨qualifier, -, hrefuses, -, heq⟩ := r.register_cases hint hp.registered
  · rwa [heq]
  · rw [heq] at hdistinct ⊢
    refine ⟨h.destination_eq, hdistinct.qualifiers, hdistinct.paths, ?_⟩
    have hpath : ¬(path = "" ∨ path = destination) := by
      rw [← h.refuses_iff hp, hrefuses]
      exact Bool.false_ne_true
    exact List.forall_mem_append.2 ⟨h.path_ne, List.forall_mem_singleton.2 (not_or.1 hpath)⟩

theorem IsOrderly.exists_find? (h : r.IsOrderly destination) (hint : String) (hp : IsCanonical path)
    (hne : path ≠ "") (hd : path ≠ destination) :
    ∃ i, (r.register hint path).find? path = some i := by
  rw [find?, hp.registered]
  obtain ⟨heq, hrefuses | hsome⟩ | ⟨qualifier, -, -, hnone, heq⟩ :=
    r.register_cases hint hp.registered
  · exact absurd ((h.refuses_iff hp).1 hrefuses) (not_or.2 ⟨hne, hd⟩)
  · rw [heq]
    exact Option.isSome_iff_exists.1 hsome
  · rw [heq]
    refine ⟨⟨qualifier, path, false⟩, ?_⟩
    rw [ entry?] at hnone
    rw [ entry?, List.find?_append, hnone]
    simp

theorem map_entries_markReferenced {α : Type} {f : Import → α}
    (h : ∀ i : Import, f { i with referenced := true } = f i) (r : ImportRegistry) (path : String) :
    (r.markReferenced path).entries.map f = r.entries.map f := by
  rw [ImportRegistry.markReferenced, List.map_map]
  apply List.map_congr_left
  intro i _
  dsimp only [Function.comp]
  split
  · exact h i
  · rfl

theorem IsDistinct.markReferenced (h : r.IsDistinct) (path : String) :
    (r.markReferenced path).IsDistinct := by
  constructor
  · rw [map_entries_markReferenced fun _ ↦ rfl]
    exact h.paths
  · rw [map_entries_markReferenced fun _ ↦ rfl]
    exact h.qualifiers

theorem IsOrderly.markReferenced (h : r.IsOrderly destination) (path : String) :
    (r.markReferenced path).IsOrderly destination := by
  have hdistinct := h.isDistinct.markReferenced path
  refine ⟨h.destination_eq, hdistinct.qualifiers, hdistinct.paths, fun i hi ↦ ?_⟩
  have hpaths := map_entries_markReferenced (f := (·.path)) (fun _ ↦ rfl) r path
  have hmem : i.path ∈ r.entries.map (·.path) := hpaths ▸ List.mem_map_of_mem hi
  obtain ⟨j, hj, heq⟩ := List.mem_map.1 hmem
  rw [← heq]
  exact h.path_ne j hj

theorem IsOrderly.registerLeaf (h : r.IsOrderly destination) {t : Ty}
    (ht : ∀ m, t.module? = some m → IsCanonical m.path) :
    (r.registerLeaf t).IsOrderly destination := by
  unfold ImportRegistry.registerLeaf
  split
  · rename_i m hm
    split
    · exact h
    · exact h.register m.name (ht m hm)
  · exact h

theorem IsOrderly.foldl_registerLeaf (h : r.IsOrderly destination) {leaves : List Ty}
    (hleaves : ∀ t ∈ leaves, ∀ m, t.module? = some m → IsCanonical m.path) :
    (leaves.foldl ImportRegistry.registerLeaf r).IsOrderly destination := by
  induction leaves generalizing r with
  | nil => exact h
  | cons t rest ih =>
    obtain ⟨ht, hrest⟩ := List.forall_mem_cons.1 hleaves
    exact ih (h.registerLeaf ht) hrest

theorem IsOrderly.exists_find?_of_mem (h : r.IsOrderly destination) {leaves : List Ty}
    (hleaves : ∀ t ∈ leaves, ∀ m, t.module? = some m → IsCanonical m.path) {t : Ty}
    (ht : t ∈ leaves) {m : ModuleRef} (hm : t.module? = some m) (hne : m.path ≠ "")
    (hd : m.path ≠ destination) :
    ∃ i, (leaves.foldl ImportRegistry.registerLeaf r).find? m.path = some i := by
  induction leaves generalizing r with
  | nil => exact absurd ht List.not_mem_nil
  | cons first rest ih =>
    obtain ⟨hfirst, hrest⟩ := List.forall_mem_cons.1 hleaves
    rw [List.foldl_cons]
    rcases List.mem_cons.1 ht with heq | ht
    -- The entry is there once its leaf is registered, and later leaves remove none.
    · rw [← heq] at hfirst ⊢
      obtain ⟨i, hi⟩ := h.exists_find? m.name (hfirst m hm) hne hd
      refine ⟨i, find?_foldl ?_ rest⟩
      rw [ImportRegistry.registerLeaf, hm]
      simpa [hne] using hi
    · exact ih (h.registerLeaf hfirst) hrest ht

theorem IsOrderly.spells (h : r.IsOrderly destination) {name : TypeName}
    (hp : ∀ m, name.module = some m → IsCanonical m.path)
    (hfind : ∀ m, name.module = some m → m.path ≠ "" → m.path ≠ destination → ∃ i,
      r.find? m.path = some i) : r.Spells destination name (r.spell name) := by
  obtain ⟨name, ref⟩ := name
  cases ref with
  | none => exact .known name
  | some m =>
    have hm := hp m rfl
    rw [spell, qualifierOf?]
    by_cases hne : m.path = ""
    · have hnone : r.find? m.path = none := by
        rw [find?, hm.registered, entry?_eq_none_iff]
        intro hmem
        obtain ⟨i, hi, hpath⟩ := List.mem_map.1 hmem
        exact (h.path_ne i hi).1 (hpath.trans hne)
      simp only [hnone, ite_self]
      exact .own (.inl hne)
    · by_cases hd : m.path = destination
      · simp only [(h.isDestination_iff hm hne).2 hd, if_true]
        exact .own (.inr hd)
      · obtain ⟨i, hi⟩ := hfind m rfl hne hd
        have hpath : i.path = m.path := by
          have h := List.find?_some hi
          rw [hm.registered] at h
          simpa using h
        have hdestination : r.isDestination m.path = false := by
          rw [← Bool.not_eq_true, h.isDestination_iff hm hne]
          exact hd
        simp only [hdestination, Bool.false_eq_true, if_false, hi]
        exact .imported hne hd (List.mem_of_find?_eq_some hi) hpath

end ImportRegistry

end Understudy
