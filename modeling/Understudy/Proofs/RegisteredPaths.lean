import Understudy.Proofs.RegistryHistory
import Understudy.Proofs.VendorSegments

namespace Understudy

namespace ImportRegistry

open ModulePath (registered registered_registered_iff)
open Text (startsBlank)

/-- The path of an entry leads back to it. -/
structure Finds (r : ImportRegistry) (i : Import) : Prop where
  find? : r.find? i.path = some i
  marks : (r.markReferenced i.path).find? i.path = some { i with referenced := true }
  register : ∀ hint, r.register hint i.path = r
  destination_ne : r.destination ≠ some i.path

/-- All paths are in the form for import lists, and none is refused. -/
def IsAdmitted (r : ImportRegistry) : Prop :=
  ∀ i ∈ r.entries, (∃ path, i.path = registered path) ∧ r.refuses i.path = false

section Admitted

variable {r : ImportRegistry} {i : Import}

theorem refuses_congr {r r' : ImportRegistry} (h : r'.destination = r.destination) (path : String) :
    r'.refuses path = r.refuses path := by
  rw [refuses, refuses, isDestination, isDestination, h]

theorem IsAdmitted.perform (h : r.IsAdmitted) (call : Call) : (r.perform call).IsAdmitted := by
  intro i hi
  rw [refuses_congr (r.continues_perform call).destination]
  cases call with
  | register hint path =>
    rw [ImportRegistry.perform] at hi
    obtain ⟨heq, -⟩ | ⟨qualifier, -, hrefuses, -, heq⟩ :=
      r.register_cases hint (rfl : ModulePath.registered path = _)
    · rw [heq] at hi
      exact h i hi
    · rw [heq] at hi
      rcases List.mem_append.1 hi with hi | hi
      · exact h i hi
      · rw [List.mem_singleton.1 hi]
        exact ⟨⟨path, rfl⟩, hrefuses⟩
  | markReferenced path =>
    have hpath : i.path ∈ (r.markReferenced path).entries.map (·.path) := List.mem_map_of_mem hi
    rw [map_entries_markReferenced fun _ ↦ rfl] at hpath
    obtain ⟨j, hj, heq⟩ := List.mem_map.1 hpath
    rw [← heq]
    exact h j hj

theorem IsAdmitted.performAll (h : r.IsAdmitted) (calls : List Call) :
    (r.performAll calls).IsAdmitted := by
  induction calls generalizing r with
  | nil => exact h
  | cons call rest ih => exact ih (h.perform call)

theorem isAdmitted_create (destination : Option String) : (create destination).IsAdmitted := by
  intro i hi
  rw [entries_create] at hi
  exact absurd hi List.not_mem_nil

theorem exists_of_destination_create {destination : Option String} {path : String}
    (h : (create destination).destination = some path) : ∃ given, path = registered given := by
  cases destination with
  | none => cases h
  | some given =>
    rw [create, forDestination] at h
    dsimp only at h
    split at h
    · cases h
    · exact ⟨given, (Option.some.inj h).symm⟩

theorem isDestination_of_refuses {path : String} (h : r.refuses path = false) :
    r.isDestination path = false :=
  (Bool.or_eq_false_iff.1 h).2

theorem finds_of_mem (hd : r.IsDistinct) (ha : r.IsAdmitted) (hi : i ∈ r.entries)
    (hb : startsBlank i.path = false) : r.Finds i := by
  obtain ⟨⟨path, hpath⟩, hrefuses⟩ := ha i hi
  have hself : registered i.path = i.path := by
    rw [hpath] at hb ⊢
    exact registered_registered_iff.2 hb
  have hentry : r.entry? i.path = some i := hd.entry?_eq_some_iff.2 ⟨hi, rfl⟩
  constructor
  · rw [ImportRegistry.find?, hself, hentry]
  · rw [ImportRegistry.find?, hself, entry?_markReferenced, hentry, hself,
      Option.map_some, if_pos rfl]
  · intro hint
    rw [ImportRegistry.register, hself, hentry]
    simp
  · intro heq
    have hne := isDestination_of_refuses hrefuses
    rw [isDestination, hself, heq] at hne
    simp at hne

theorem not_finds_of_startsBlank (ha : r.IsAdmitted) (hi : i ∈ r.entries)
    (hb : startsBlank i.path = true) :
    r.find? i.path ≠ some i ∧ i ∈ (r.markReferenced i.path).entries := by
  obtain ⟨⟨path, hpath⟩, -⟩ := ha i hi
  have hself : registered i.path ≠ i.path := by
    rw [hpath] at hb ⊢
    rw [Ne, registered_registered_iff, hb]
    exact nofun
  constructor
  · intro hfind
    have hfound : i.path = registered i.path := by simpa using List.find?_some hfind
    exact hself hfound.symm
  · refine List.mem_map.2 ⟨i, hi, if_neg fun h ↦ hself h.symm⟩

end Admitted

/-- After any calls an entry is found by its own path exactly if that does not begin with white
space, and the module that the text goes into is known by its path on the same condition. No entry
is for what is known as that module. -/
theorem finds_performAll (destination : Option String) (calls : List Call) :
    let r := (create destination).performAll calls
    (∀ i ∈ r.entries, (r.Finds i ↔ startsBlank i.path = false) ∧
      (startsBlank i.path = true → r.find? i.path ≠ some i ∧
        i ∈ (r.markReferenced i.path).entries) ∧
      r.isDestination i.path = false) ∧
    ∀ path, r.destination = some path →
    (r.isDestination path = true ↔ startsBlank path = false) := by
  have hdistinct := (isDistinct_create destination).performAll calls
  have hadmitted := (isAdmitted_create destination).performAll calls
  have hdestination := ((create destination).continues_performAll calls).destination
  refine ⟨fun i hi ↦ ⟨⟨fun hfinds ↦ ?_, ?_⟩, ?_, ?_⟩, fun path hpath ↦ ?_⟩
  · by_contra hb
    exact (not_finds_of_startsBlank hadmitted hi (by simpa using hb)).1 hfinds.find?
  · exact finds_of_mem hdistinct hadmitted hi
  · exact not_finds_of_startsBlank hadmitted hi
  · exact isDestination_of_refuses (hadmitted i hi).2
  · obtain ⟨given, rfl⟩ := exists_of_destination_create (hdestination ▸ hpath)
    rw [isDestination, hpath, ← registered_registered_iff, beq_iff_eq, Option.some.injEq, eq_comm]

/-- White space behind a `vendor` segment is in front of the path without it: the module that the
text goes into gets an entry, which is not found. -/
theorem finds_performAll_vendored :
    let r := (create (some "vendor/ a")).performAll [.register "x" "vendor/ a",
      .register "" "lib/vendor/b"]
    r.entries = [⟨"x", " a", false⟩, ⟨"b", "b", false⟩] ∧ r.destination = some " a" ∧
    r.isDestination " a" = false ∧
      ¬r.Finds ⟨"x", " a", false⟩ ∧ r.find? " a" ≠ some ⟨"x", " a", false⟩ ∧
      r.Finds ⟨"b", "b", false⟩ := by
  have hentries : ((create (some "vendor/ a")).performAll
      [.register "x" "vendor/ a", .register "" "lib/vendor/b"]).entries =
      [⟨"x", " a", false⟩, ⟨"b", "b", false⟩] := by decide +kernel
  have hdestination : ((create (some "vendor/ a")).performAll
      [.register "x" "vendor/ a", .register "" "lib/vendor/b"]).destination =
        some " a" := by decide +kernel
  obtain ⟨hall, hown⟩ :=
    finds_performAll (some "vendor/ a") [.register "x" "vendor/ a", .register "" "lib/vendor/b"]
  have hblank : startsBlank " a" = true := by decide +kernel
  obtain ⟨hfinds, hlost, -⟩ := hall ⟨"x", " a", false⟩ (by rw [hentries]; decide)
  obtain ⟨hfinds', -⟩ := hall ⟨"b", "b", false⟩ (by rw [hentries]; decide)
  refine ⟨hentries, hdestination, ?_, ?_, (hlost hblank).1, hfinds'.2 (by decide +kernel)⟩
  · rw [← Bool.not_eq_true, hown " a" hdestination, hblank]
    exact nofun
  · rw [hfinds, hblank]
    exact nofun

end ImportRegistry

end Understudy
