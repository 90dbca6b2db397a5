import Mathlib.Data.List.Chain
import Understudy.Proofs.LoaderStack

namespace Understudy

namespace Library

open ModulePath (ofRequest requested)

variable {lib : Library}

def Leads (lib : Library) (request next : String) : Prop :=
  ∃ directory files s s', lib.locate (ofRequest request) (requested request) = .ok directory ∧
    lib.readFiles (requested request) directory s = .ok files s' ∧
    ∃ f ∈ files, ∃ file, f.reading.file = some file ∧ ∃ i ∈ file.imports, i.path = next

/-- A cycle of paths that imports lead to from a request on, its first path repeated at its end. -/
structure IsImportCycle (lib : Library) (request : String) (cycle : List String) : Prop where
  closed : ∃ first between, cycle = first :: between ++ [first]
  distinct : cycle.dropLast.Nodup
  /-- Requests that lead to each other, from the first one to the cycle and once around it. -/
  trail : ∃ lead circle : List String, circle.map requested = cycle ∧
      (lead ++ circle).head? = some request ∧
    (lead ++ circle).IsChain lib.Leads

/-- What waits for the module that is asked for last, outermost first, comes from the first request
on. -/
structure IsTrail (lib : Library) (first : String) (waiting : List String) (request : String) :
    Prop where
  head : (waiting ++ [request]).head? = some first
  leads : (waiting ++ [request]).IsChain lib.Leads
  nodup : (waiting.map requested).Nodup

theorem exists_dropWhile_requested {waiting : List String} {path : String}
    (h : path ∈ waiting.map requested) :
    ∃ lead r rest, waiting = lead ++ r :: rest ∧ requested r = path ∧
      (waiting.map requested).dropWhile (· ≠ path) = path :: rest.map requested := by
  induction waiting with
  | nil => cases h
  | cons r rest ih =>
    rw [List.map_cons] at h ⊢
    by_cases hr : requested r = path
    · refine ⟨[], r, rest, rfl, hr, ?_⟩
      rw [hr, List.dropWhile_cons_of_neg (by simp)]
    · obtain ⟨lead, r', rest', rfl, hr', hdrop⟩ :=
        ih ((List.mem_cons.1 h).resolve_left (Ne.symm hr))
      refine ⟨r :: lead, r', rest', rfl, hr', ?_⟩
      rw [List.dropWhile_cons_of_pos (by simp [hr]), hdrop]

theorem Opens.leads {loading : List String} {request directory : String} {s s' : Session}
    {files : List ReadFile} (h : lib.Opens loading request s directory files s') {r : String}
    (hr : r ∈ wanted files) : lib.Leads request r := by
  obtain ⟨parsed, hparsed, i, hi, hpath⟩ := mem_wanted.1 hr
  obtain ⟨f, hf, hfile⟩ := List.mem_filterMap.1 hparsed
  obtain ⟨file, hreading, rfl⟩ := Option.map_eq_some_iff.1 hfile
  exact ⟨directory, files, s, s', h.located, h.read, f, hf, file, hreading, i, hi, hpath⟩

namespace IsTrail

variable {first request : String} {waiting : List String}

theorem single (lib : Library) (request : String) : lib.IsTrail request [] request :=
  ⟨rfl, .singleton _, List.nodup_nil⟩

theorem step {directory : String} {s s' : Session} {files : List ReadFile}
    (h : lib.IsTrail first waiting request)
    (hopens : lib.Opens (waiting.map requested) request s directory files s') {r : String}
    (hr : r ∈ wanted files) : lib.IsTrail first (waiting ++ [request]) r := by
  refine ⟨?_, ?_, ?_⟩
  · rw [List.head?_append, h.head, Option.some_or]
  · refine h.leads.append (.singleton r) ?_
    intro x hx y hy
    rw [List.getLast?_concat] at hx
    cases hx
    cases hy
    exact hopens.leads hr
  · rw [List.map_append, List.map_singleton, ← List.concat_eq_append]
    exact .concat hopens.free h.nodup

theorem isImportCycle (h : lib.IsTrail first waiting request)
    (hmem : requested request ∈ waiting.map requested) : lib.IsImportCycle first
      ((waiting.map requested).dropWhile (· ≠ requested request) ++ [requested request]) := by
  obtain ⟨lead, r, rest, rfl, hr, hdrop⟩ := exists_dropWhile_requested hmem
  have hdistinct := h.nodup.sublist (List.dropWhile_sublist (· ≠ requested request))
  rw [hdrop] at hdistinct ⊢
  refine ⟨⟨_, _, rfl⟩, ?_, lead, r :: rest ++ [request], ?_, ?_, ?_⟩
  · rwa [List.dropLast_concat]
  · rw [List.map_append, List.map_cons, hr, List.map_singleton]
  · rw [← List.append_assoc]
    exact h.head
  · rw [← List.append_assoc]
    exact h.leads

end IsTrail

/-- Whatever modules there are by then, a cycle that loading fails with goes on from those that
wait. -/
theorem isImportCycle_of_loadWithin {n : Nat} {first request : String} {waiting cycle : List String}
    {s s' : Session} (htrail : lib.IsTrail first waiting request)
    (hrun : lib.loadWithin n (waiting.map requested) request s = .error (.importCycle cycle) s') :
    lib.IsImportCycle first cycle := by
  induction n generalizing waiting request s with
  | zero => cases hrun
  | succ n ih =>
    have hvisits := lib.visits_loadWithin n (waiting.map requested) request s
    rw [hrun] at hvisits
    cases hvisits with
    | cycle hfresh hmem => exact htrail.isImportCycle hmem
    | missing hfresh hfree h => exact (isReading_locate h).elim
    | unread hfresh hfree hlocated h => exact (failsWith_readFiles _ _ _ _ _ h).elim
    | blocked hopens h =>
      obtain ⟨r, hr, s₁, hone⟩ := exists_of_loadAll_error h
      have hmap : (waiting ++ [request]).map requested =
          waiting.map requested ++ [requested request] :=
        List.map_append
      rw [← hmap] at hone
      exact ih (htrail.step hopens hr) hone

end Library

namespace Loader

/-- The loader after requests for roots, each made of the library as it is at that time, whatever
came of them. -/
def afterCalls (calls : List (Library × String)) : Loader :=
  calls.foldl (fun l call ↦ after (loadRoot call.1 call.2) l) start

theorem exists_afterCalls_eq (calls : List (Library × String)) :
    ∃ s, afterCalls calls = ⟨s, []⟩ := by
  induction calls using List.reverseRecOn with
  | nil => exact ⟨.start, rfl⟩
  | append_singleton calls call ih =>
    obtain ⟨s, hs⟩ := ih
    rw [afterCalls, List.foldl_append, ← afterCalls, hs, List.foldl_cons, List.foldl_nil,
      after_loadRoot]
    exact ⟨_, rfl⟩

/-- Whatever was asked for before, an import cycle that a request for a root fails with is one of
the files. -/
theorem isImportCycle_of_loadRoot (calls : List (Library × String)) {lib : Library}
    {request : String} {cycle : List String} {l : Loader}
    (h : loadRoot lib request (afterCalls calls) = .error (.importCycle cycle) l) :
    lib.IsImportCycle request cycle := by
  obtain ⟨s, hs⟩ := exists_afterCalls_eq calls
  rw [hs, loadRoot_eq_within] at h
  cases hload : lib.load request s with
  | ok path s₁ =>
    rw [Library.loadRoot_ok hload] at h
    cases h
  | error e s₁ =>
    rw [Library.loadRoot_error hload] at h
    cases h
    exact Library.isImportCycle_of_loadWithin (.single lib request) hload

section Kitchen

/-- Two modules import each other. A third one, which starts with one of them, is not part of the
cycle. -/
def kitchen : Library :=
  ⟨.default, ⟨[(["", "", "menu"], .directory), (["", "", "dish"], .directory),
    (["", "", "sauce"], .directory), (["", "", "salt"], .directory),
    (["", "", "menu", "menu.api"], .file (some "package menu\nimport \"dish\"\n")),
    (["", "", "dish", "dish.api"],
      .file (some "package dish\nimport \"salt\"\nimport \"sauce/\"\n")),
    (["", "", "sauce", "sauce.api"],
      .file (some "package sauce\nimport \"salt\"\nimport \"dish\"\n")),
    (["", "", "salt", "salt.api"], .file (some "package salt\n"))]⟩⟩

def cycle? {α : Type} : EStateM.Result LoadError Loader α → Option (List String)
  | .error (.importCycle cycle) _ => some cycle
  | _ => none

theorem eq_error_of_cycle? {α : Type} {r : EStateM.Result LoadError Loader α} {cycle : List String}
    (h : cycle? r = some cycle) : ∃ l, r = .error (.importCycle cycle) l := by
  unfold cycle? at h
  split at h
  · cases h
    exact ⟨_, rfl⟩
  · cases h

theorem isImportCycle_of_loadRoot_kitchen :
    ∃ l, loadRoot kitchen "menu/" (afterCalls [(kitchen, "salt")]) =
        .error (.importCycle ["dish", "sauce", "dish"]) l ∧
      kitchen.IsImportCycle "menu/" ["dish", "sauce", "dish"] := by
  have hcycle : cycle? (loadRoot kitchen "menu/" (afterCalls [(kitchen, "salt")])) =
      some ["dish", "sauce", "dish"] := by decide +kernel
  obtain ⟨l, hl⟩ := eq_error_of_cycle? hcycle
  exact ⟨l, hl, isImportCycle_of_loadRoot [(kitchen, "salt")] hl⟩

end Kitchen

end Loader

end Understudy
