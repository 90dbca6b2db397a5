import Understudy.Proofs.LoadedSets
import Understudy.Proofs.ReportedParts

namespace Understudy

namespace ImportSpec

def notLoaded (path : String) : String := "import `" ++ path ++ "` was not loaded"

theorem notLoaded_injective : Function.Injective notLoaded := by
  intro a b h
  have hchars := congrArg String.toList h
  simp only [notLoaded, String.toList_append, List.append_assoc, List.append_cancel_left_eq,
    List.append_cancel_right_eq] at hchars
  exact String.toList_injective hchars

theorem head?_notLoaded (path : String) : (notLoaded path).toList.head? = some 'i' := by
  rw [notLoaded, String.toList_append, String.toList_append]
  rfl

variable {deps : ModuleSet} {fileId : String} {bound : List (String × ModuleRef)}
    {specs : List ImportSpec}

theorem exists_bindAll {i : ImportSpec} (hi : i ∈ specs)
    (hnone : deps.get? (ModulePath.unvendor i.path) = none) (bound : List (String × ModuleRef)) :
    ∃ d ∈ (bindAll deps fileId bound specs).2, d.message =
      notLoaded (ModulePath.unvendor i.path) := by
  induction specs generalizing bound with
  | nil => exact absurd hi List.not_mem_nil
  | cons j rest ih =>
    rcases List.mem_cons.1 hi with rfl | hi
    · have hbind : i.bind deps fileId bound =
          .error [(Diagnostic.error (notLoaded (ModulePath.unvendor i.path)) (some i.span)).inFile
            fileId] := by
        rw [ImportSpec.bind, hnone]
        rfl
      rw [bindAll, hbind]
      exact ⟨_, List.mem_cons_self .., rfl⟩
    · rw [bindAll]
      split
      · exact ih hi _
      · rename_i ds _
        obtain ⟨d, hd, hmessage⟩ := ih hi bound
        exact ⟨d, List.mem_append_right ds hd, hmessage⟩

end ImportSpec

theorem NameError.head?_message (e : NameError) : e.message.toList.head? ≠ some 'i' := by
  cases e <;> simp [message, String.toList_append]

namespace Resolve

variable {path : String} {files : List ParsedFile} {deps : ModuleSet}

theorem Concerns.exists_unloaded {f : ParsedFile} {d : Diagnostic} {missing : String}
    (h : Concerns path files deps f d) (hmessage : d.message = ImportSpec.notLoaded missing) :
    ∃ i ∈ f.file.imports, ModulePath.unvendor i.path = missing ∧ deps.get? missing = none := by
  have hhead : d.message.toList.head? = some 'i' := by rw [hmessage, ImportSpec.head?_notLoaded]
  cases h with
  | unloaded hi hnone =>
    obtain rfl := ImportSpec.notLoaded_injective hmessage
    exact ⟨_, hi, rfl, hnone⟩
  | misused _ _ _ => exact absurd hhead (NameError.head?_message _)
  | package | redeclared | rebound =>
    simp [Diagnostic.inFile, Diagnostic.error, String.toList_append] at hhead

/-- An import is reported as not loaded exactly if the set has no module under its unvendored
path. -/
theorem reports_notLoaded_iff {missing : String} :
    (∃ d ∈ (resolveModule path files deps).diagnostics, d.message = ImportSpec.notLoaded missing) ↔
      ∃ f ∈ files, ∃ i ∈ f.file.imports, ModulePath.unvendor i.path = missing ∧
      deps.get? missing = none := by
  constructor
  · rintro ⟨d, hd, hmessage⟩
    obtain ⟨f, hf, hconcerns⟩ := exists_concerns hd
    exact ⟨f, hf, hconcerns.exists_unloaded hmessage⟩
  · rintro ⟨f, hf, i, hi, rfl, hnone⟩
    obtain ⟨d, hd, hmessage⟩ : ∃ d ∈ (ImportSpec.bindAll deps f.id [] f.file.imports).2,
        d.message = _ :=
      ImportSpec.exists_bindAll hi hnone []
    rw [diagnostics_resolveModule]
    exact ⟨d, List.mem_append_right _ (List.mem_flatMap.2 ⟨f, hf, List.mem_append_left _ hd⟩),
      hmessage⟩

end Resolve

namespace Load

def diagnosticsOf {α : Type} : EStateM.Result LoadError Session α → List Diagnostic
  | .ok _ _ => []
  | .error e _ => e.diagnostics

end Load

namespace Library

open ModulePath (ofRequest requested unvendor)

variable {lib : Library} {n : Nat} {loading : List String} {request directory : String}
    {s s₁ s₂ : Session} {files : List ReadFile}

theorem mem_wanted {r : String} :
    r ∈ wanted files ↔ ∃ f ∈ files.filterMap (·.parsed?), ∃ i ∈ f.file.imports, i.path = r := by
  simp only [wanted, requests, List.mem_eraseDups, List.mem_flatMap, List.mem_map]

theorem Opens.unique {directory' : String} {files' : List ReadFile} {s' : Session}
    (h : lib.Opens loading request s directory files s₁)
    (h' : lib.Opens loading request s directory' files' s') :
    files = files' ∧ s₁ = s' := by
  obtain rfl := Except.ok.inj (h.located.symm.trans h'.located)
  have hread := h.read.symm.trans h'.read
  cases hread
  exact ⟨rfl, rfl⟩

theorem diagnosticsOf_loadWithin (hopens : lib.Opens loading request s directory files s₁)
    (hall : lib.loadAll n (loading ++ [requested request]) (wanted files) s₁ = .ok () s₂) :
    Load.diagnosticsOf (lib.loadWithin (n + 1) loading request s) =
      (resolution (requested request) files s₂.modules).diagnostics := by
  have hvisits := lib.visits_loadWithin n loading request s
  generalize lib.loadWithin (n + 1) loading request s = r at hvisits ⊢
  cases hvisits with
  | known h =>
    rw [hopens.fresh] at h
    cases h
  | cycle hfresh h => exact absurd h hopens.free
  | missing hfresh hfree h =>
    rw [hopens.located] at h
    cases h
  | unread hfresh hfree hlocated h =>
    obtain rfl := Except.ok.inj (hopens.located.symm.trans hlocated)
    rw [hopens.read] at h
    cases h
  | blocked hopens' h =>
    obtain ⟨rfl, rfl⟩ := hopens.unique hopens'
    rw [hall] at h
    cases h
  | rejected hopens' h hreports hs =>
    obtain ⟨rfl, rfl⟩ := hopens.unique hopens'
    rw [hall] at h
    cases h
    rfl
  | loaded hopens' h hclean hs =>
    obtain ⟨rfl, rfl⟩ := hopens.unique hopens'
    rw [hall] at h
    cases h
    exact hclean.symm

/-- When all imports of a module came in, each is in the set under the path that was asked for, and
an import is reported as not loaded exactly if the set has no module under the path as it is
written, unvendored. That never happens where the request for each import comes to its unvendored
path. -/
theorem reports_notLoaded_iff_contains (hopens : lib.Opens loading request s directory files s₁)
    (hall : lib.loadAll n (loading ++ [requested request]) (wanted files) s₁ = .ok () s₂) :
    (∀ r ∈ wanted files, s₂.modules.contains (requested r) = true) ∧
    (∀ missing, (∃ d ∈ Load.diagnosticsOf (lib.loadWithin (n + 1) loading request s),
        d.message = ImportSpec.notLoaded missing) ↔
      ∃ r ∈ wanted files, unvendor r = missing ∧ s₂.modules.contains missing = false) ∧
    ((∀ r ∈ wanted files, requested r = unvendor r) →
      ∀ d ∈ Load.diagnosticsOf (lib.loadWithin (n + 1) loading request s),
        ∀ missing, d.message ≠ ImportSpec.notLoaded missing) := by
  have hcontains := contains_of_loadAll (extends_loadWithin n _) hall
  have hiff : ∀ missing, (∃ d ∈ Load.diagnosticsOf (lib.loadWithin (n + 1) loading request s),
      d.message = ImportSpec.notLoaded missing) ↔
      ∃ r ∈ wanted files, unvendor r = missing ∧ s₂.modules.contains missing = false := by
    intro missing
    rw [diagnosticsOf_loadWithin hopens hall, resolution, Resolve.reports_notLoaded_iff,
      ModuleSet.contains_eq, Option.isSome_eq_false_iff, Option.isNone_iff_eq_none]
    constructor
    · rintro ⟨f, hf, i, hi, hpath, hnone⟩
      exact ⟨i.path, mem_wanted.2 ⟨f, hf, i, hi, rfl⟩, hpath, hnone⟩
    · rintro ⟨r, hr, hpath, hnone⟩
      obtain ⟨f, hf, i, hi, rfl⟩ := mem_wanted.1 hr
      exact ⟨f, hf, i, hi, hpath, hnone⟩
  refine ⟨hcontains, hiff, fun hagree d hd missing hmessage ↦ ?_⟩
  obtain ⟨r, hr, rfl, hmissing⟩ := (hiff missing).1 ⟨d, hd, hmessage⟩
  rw [← hagree r hr, hcontains r hr] at hmissing
  cases hmissing

section Slashes

/-- Two modules, one of which imports the other with a slash behind its path. -/
def slashed : Library :=
  ⟨.default, ⟨[(["", "", "a"], .directory),
    (["", "", "a", "a.api"], .file (some "package a\nimport \"b/\"\n")),
    (["", "", "b"], .directory), (["", "", "b", "b.api"], .file (some "package b\n"))]⟩⟩

theorem reports_notLoaded_iff_contains_slashed : ∃ files s₁ s₂,
    slashed.Opens [] "a" .start "./a" files s₁ ∧
    slashed.loadAll (slashed.allRequests.length + 1) ([] ++ [requested "a"]) (wanted files) s₁ =
      .ok () s₂ ∧
    s₂.modules.contains "b" = true ∧
    ∃ d ∈ Load.diagnosticsOf (slashed.load "a" .start), d.message = ImportSpec.notLoaded "b/" := by
  have hread : ((slashed.readFiles (requested "a") "./a").value? .start).map wanted =
      some ["b/"] := by
    decide +kernel
  obtain ⟨files, hfiles, hwanted⟩ := Option.map_eq_some_iff.1 hread
  have hopens :
      slashed.Opens [] "a" .start "./a" files
        ((slashed.readFiles (requested "a") "./a").after .start) :=
    ⟨by decide +kernel, List.not_mem_nil, by rfl, Load.eq_ok_of_value? hfiles⟩
  have hall : slashed.loadAll (slashed.allRequests.length + 1) ([] ++ [requested "a"]) ["b/"]
      ((slashed.readFiles (requested "a") "./a").after .start) = .ok () _ :=
    Load.eq_ok_of_value? (by decide +kernel)
  have hmodules :
      ((slashed.loadAll (slashed.allRequests.length + 1) ([] ++ [requested "a"]) ["b/"]).after
      ((slashed.readFiles (requested "a") "./a").after .start)).modules.modules.map
        (·.path) = ["b"] := by
    decide +kernel
  rw [← hwanted] at hall hmodules
  have hb : unvendor "b/" = "b/" := by decide +kernel
  refine ⟨files, _, _, hopens, hall, ?_, ?_⟩
  · rw [ModuleSet.contains_eq_true, hmodules]
    exact List.mem_singleton_self _
  · refine ((reports_notLoaded_iff_contains hopens hall).2.1 "b/").2 ⟨"b/", ?_, hb, ?_⟩
    · rw [hwanted]
      exact List.mem_singleton_self _
    · rw [← Bool.not_eq_true, ModuleSet.contains_eq_true, hmodules]
      decide

end Slashes

end Library

end Understudy
