import Mathlib.Data.Finset.Card
import Understudy.Proofs.FileTexts
import Understudy.Proofs.LoaderStack

namespace Understudy

namespace Library

open ModulePath (ofRequest requested)

mutual

/-- Loading a module comes to an end, with no more than `depth` modules opened inside each other on
the way. -/
inductive Ends (lib : Library) :
    Nat → List String → String → Session → EStateM.Result LoadError Session String → Prop
  | known {depth : Nat} {loading : List String} {request : String} {s : Session}
    (h : s.modules.contains (requested request) = true) :
    Ends lib depth loading request s (.ok (requested request) s)
  | cycle {depth : Nat} {loading : List String} {request : String} {s : Session}
    (hfresh : s.modules.contains (requested request) = false) (h : requested request ∈ loading) :
    Ends lib depth loading request s
      (.error (.importCycle (loading.dropWhile (· ≠ requested request) ++ [requested request])) s)
  | missing {depth : Nat} {loading : List String} {request : String} {s : Session} {e : LoadError}
    (hfresh : s.modules.contains (requested request) = false) (hfree : requested request ∉ loading)
    (h : lib.locate (ofRequest request) (requested request) = .error e) :
    Ends lib depth loading request s (.error e s)
  | unread {depth : Nat} {loading : List String} {request directory : String} {s s₁ : Session}
      {e : LoadError} (hfresh : s.modules.contains (requested request) = false)
      (hfree : requested request ∉ loading)
      (hlocated : lib.locate (ofRequest request) (requested request) = .ok directory)
      (h : lib.readFiles (requested request) directory s = .error e s₁) :
      Ends lib (depth + 1) loading request s (.error e s₁)
  | blocked {depth : Nat} {loading : List String} {request directory : String}
      {files : List ReadFile} {s s₁ s₂ : Session} {e : LoadError}
      (hopens : lib.Opens loading request s directory files s₁)
      (h : EndsAll lib depth (loading ++ [requested request]) (wanted files) s₁ (.error e s₂)) :
      Ends lib (depth + 1) loading request s (.error e s₂)
  | rejected {depth : Nat} {loading : List String} {request directory : String}
      {files : List ReadFile} {s s₁ s₂ s₃ : Session} {e : LoadError}
      (hopens : lib.Opens loading request s directory files s₁)
      (h : EndsAll lib depth (loading ++ [requested request]) (wanted files) s₁ (.ok () s₂))
      (hresolve : resolveFiles (requested request) files s₂ = .error e s₃) :
      Ends lib (depth + 1) loading request s (.error e s₃)
  | loaded {depth : Nat} {loading : List String} {request directory : String}
      {files : List ReadFile} {s s₁ s₂ s₃ : Session} {m : Module}
      (hopens : lib.Opens loading request s directory files s₁)
      (h : EndsAll lib depth (loading ++ [requested request]) (wanted files) s₁ (.ok () s₂))
      (hresolve : resolveFiles (requested request) files s₂ = .ok m s₃) :
      Ends lib (depth + 1) loading request s (.ok (requested request)
      ⟨s₃.modules.insert m, s₃.events ++ [.loaded (requested request) directory]⟩)

/-- The same for requests one after the other, up to the first that fails. -/
inductive EndsAll (lib : Library) :
    Nat → List String → List String → Session → EStateM.Result LoadError Session Unit → Prop
  | nil {depth : Nat} {loading : List String} {s : Session} :
      EndsAll lib depth loading [] s (.ok () s)
  | cons {depth : Nat} {loading rest : List String} {request path : String} {s s₁ : Session}
    {r : EStateM.Result LoadError Session Unit} (h : Ends lib depth loading request s (.ok path s₁))
    (hrest : EndsAll lib depth loading rest s₁ r) : EndsAll lib depth loading (request :: rest) s r
  | failed {depth : Nat} {loading rest : List String} {request : String} {s s₁ : Session}
      {e : LoadError} (h : Ends lib depth loading request s (.error e s₁)) :
      EndsAll lib depth loading (request :: rest) s (.error e s₁)

end

/-- The different paths that a request and the imports in all files of the tree ask for. -/
def forms (lib : Library) (request : String) : Finset String :=
  ((request :: lib.allRequests).map requested).toFinset

variable {lib : Library} {depth n : Nat} {loading requests : List String} {request : String}
    {s : Session}

theorem loadAll_of_endsAll {r : EStateM.Result LoadError Session Unit}
    (hone : ∀ request s r, lib.Ends depth loading request s r →
      lib.loadWithin n loading request s = r) (h : lib.EndsAll depth loading requests s r) :
    lib.loadAll n loading requests s = r := by
  induction requests generalizing s with
  | nil =>
    cases h
    rfl
  | cons request rest ih =>
    cases h with
    | cons h hrest =>
      rw [loadAll_cons_ok (hone _ _ _ h)]
      exact ih hrest
    | failed h => exact loadAll_cons_error (hone _ _ _ h)

theorem loadWithin_of_ends {r : EStateM.Result LoadError Session String}
    (h : lib.Ends depth loading request s r) (hn : depth < n) :
    lib.loadWithin n loading request s = r := by
  induction n generalizing depth loading request s r with
  | zero => cases hn
  | succ n ih =>
    cases h with
    | known h => exact loadWithin_known h
    | cycle hfresh h => exact loadWithin_cycle hfresh h
    | missing hfresh hfree h => exact loadWithin_missing hfresh hfree h
    | unread hfresh hfree hlocated h =>
      rw [loadWithin_located hfresh hfree hlocated, Load.bind_error h]
    | blocked hopens h =>
      exact hopens.blocked (loadAll_of_endsAll (fun _ _ _ h ↦ ih h (Nat.lt_of_succ_lt_succ hn)) h)
    | rejected hopens h hresolve =>
      have hall := loadAll_of_endsAll (fun _ _ _ h ↦ ih h (Nat.lt_of_succ_lt_succ hn)) h
      rw [loadWithin_located hopens.fresh hopens.free hopens.located, Load.bind_ok hopens.read,
        Load.bind_ok hall, Load.bind_error hresolve]
    | loaded hopens h hresolve =>
      have hall := loadAll_of_endsAll (fun _ _ _ h ↦ ih h (Nat.lt_of_succ_lt_succ hn)) h
      rw [loadWithin_located hopens.fresh hopens.free hopens.located, Load.bind_ok hopens.read,
        Load.bind_ok hall, Load.bind_ok hresolve]
      rfl

theorem ends_unique {depth' : Nat} {r r' : EStateM.Result LoadError Session String}
    (h : lib.Ends depth loading request s r) (h' : lib.Ends depth' loading request s r') :
    r' = r := by
  have hr := loadWithin_of_ends h (n := depth + depth' + 1) (by omega)
  exact (loadWithin_of_ends h' (by omega)).symm.trans hr

theorem exists_of_endsAll_error {e : LoadError} {s' : Session}
    (h : lib.EndsAll depth loading requests s (.error e s')) :
    ∃ request s₁, lib.Ends depth loading request s₁ (.error e s') := by
  induction requests generalizing s with
  | nil => cases h
  | cons request rest ih =>
    cases h with
    | cons h hrest => exact ih hrest
    | failed h => exact ⟨request, s, h⟩

theorem not_ends_exhausted {path : String} {s' : Session} :
    ¬ lib.Ends depth loading request s (.error (.exhausted path) s') := by
  induction depth using Nat.strong_induction_on generalizing loading request s with
  | _ depth ih =>
    intro h
    cases h with
    | missing hfresh hfree h => exact isReading_locate h
    | unread hfresh hfree hlocated h => exact failsWith_readFiles _ _ _ _ _ h
    | blocked hopens h =>
      obtain ⟨request, s₁, h⟩ := exists_of_endsAll_error h
      exact ih _ (Nat.lt_succ_self _) h
    | rejected hopens h hresolve =>
      rw [resolveFiles_apply] at hresolve
      split at hresolve <;> cases hresolve

theorem exists_endsAll (h : ∀ request ∈ requests, ∀ s, ∃ r, lib.Ends depth loading request s r)
    (s : Session) : ∃ r, lib.EndsAll depth loading requests s r := by
  induction requests generalizing s with
  | nil => exact ⟨_, .nil⟩
  | cons request rest ih =>
    obtain ⟨hfirst, hrest⟩ := List.forall_mem_cons.1 h
    obtain ⟨one, hone⟩ := hfirst s
    cases one with
    | error e s₁ => exact ⟨_, .failed hone⟩
    | ok path s₁ =>
      obtain ⟨r, hr⟩ := ih hrest s₁
      exact ⟨r, .cons hone hr⟩

theorem Opens.exists_ends {directory : String} {files : List ReadFile} {s₁ : Session}
    (hopens : lib.Opens loading request s directory files s₁)
    (h : ∃ r, lib.EndsAll depth (loading ++ [requested request]) (wanted files) s₁ r) :
    ∃ r, lib.Ends (depth + 1) loading request s r := by
  obtain ⟨all, hall⟩ := h
  cases all with
  | error e s₂ => exact ⟨_, .blocked hopens hall⟩
  | ok u s₂ =>
    cases hresolve : resolveFiles (requested request) files s₂ with
    | error e s₃ => exact ⟨_, .rejected hopens hall hresolve⟩
    | ok m s₃ => exact ⟨_, .loaded hopens hall hresolve⟩

section Forms

variable {forms : Finset String}

theorem card_sdiff_concat {path : String} (hpath : path ∈ forms) (hfree : path ∉ loading) :
    (forms \ (loading ++ [path]).toFinset).card + 1 = (forms \ loading.toFinset).card := by
  have hmem : path ∈ forms \ loading.toFinset :=
    Finset.mem_sdiff.2 ⟨hpath, mt List.mem_toFinset.1 hfree⟩
  have hset : forms \ (loading ++ [path]).toFinset = (forms \ loading.toFinset).erase path := by
    ext q
    simp only [Finset.mem_sdiff, Finset.mem_erase, List.mem_toFinset, List.mem_append,
      List.mem_singleton]
    tauto
  rw [hset, Finset.card_erase_add_one hmem]

/-- Loading ends because each module that is opened takes one path away from those that nothing
waits for yet. -/
theorem exists_ends (hforms : ∀ r ∈ lib.allRequests, requested r ∈ forms)
    (hrequest : requested request ∈ forms) (hdepth : (forms \ loading.toFinset).card ≤ depth)
    (s : Session) : ∃ r, lib.Ends depth loading request s r := by
  induction depth using Nat.strong_induction_on generalizing loading request s with
  | _ depth ih =>
    cases hfresh : s.modules.contains (requested request) with
    | true => exact ⟨_, .known hfresh⟩
    | false =>
      by_cases hfree : requested request ∈ loading
      · exact ⟨_, .cycle hfresh hfree⟩
      · cases hlocated : lib.locate (ofRequest request) (requested request) with
        | error e => exact ⟨_, .missing hfresh hfree hlocated⟩
        | ok directory =>
          have hcard := card_sdiff_concat hrequest hfree
          obtain ⟨k, rfl⟩ : ∃ k, depth = k + 1 := ⟨depth - 1, by omega⟩
          cases hread : lib.readFiles (requested request) directory s with
          | error e s₁ => exact ⟨_, .unread hfresh hfree hlocated hread⟩
          | ok files s₁ =>
            have hopens : lib.Opens loading request s directory files s₁ :=
              ⟨hfresh, hfree, hlocated, hread⟩
            refine hopens.exists_ends (exists_endsAll (fun r hr s ↦ ?_) s₁)
            exact ih k k.lt_succ_self (hforms r (mem_allRequests hread hr)) (by omega) s

end Forms

theorem mem_forms_self (lib : Library) (request : String) : requested request ∈ lib.forms request :=
  List.mem_toFinset.2 (List.mem_map_of_mem List.mem_cons_self)

theorem mem_forms {r : String} (h : r ∈ lib.allRequests) : requested r ∈ lib.forms request :=
  List.mem_toFinset.2 (List.mem_map_of_mem (List.mem_cons_of_mem _ h))

theorem card_forms_le (lib : Library) (request : String) :
    (lib.forms request).card ≤ lib.allRequests.length + 1 := by
  have h := ((request :: lib.allRequests).map requested).toFinset_card_le
  rwa [List.length_map, List.length_cons] at h

end Library

/-- Loading comes to one end, whatever the tree, the modules in the set and those that wait. As many
modules are opened inside each other as there are forms that nothing waits for, at most, so a loader
with room for one module more than all the forms does not run out of it. -/
theorem load_ends (lib : Library) (l : Loader) (request : String) :
    (lib.forms request).card ≤ lib.allRequests.length + 1 ∧
      ∃ r, lib.Ends (lib.forms request \ l.waiting.toFinset).card l.waiting request l.session r ∧
        (∀ depth r', lib.Ends depth l.waiting request l.session r' → r' = r) ∧
        (∀ n, (lib.forms request).card < n → Loader.load lib n request l =
          Loader.keep l.waiting r) ∧
        ∀ path s', r ≠ .error (.exhausted path) s' := by
  obtain ⟨r, hr⟩ :=
    Library.exists_ends (fun _ ↦ Library.mem_forms) (lib.mem_forms_self request) le_rfl l.session
  refine ⟨lib.card_forms_le request, r, hr, fun _ _ ↦ Library.ends_unique hr, fun n hn ↦ ?_, ?_⟩
  · have hdepth : (lib.forms request \ l.waiting.toFinset).card < n :=
      (Finset.card_le_card Finset.sdiff_subset).trans_lt hn
    rw [Loader.load_eq_within, Loader.within, Library.loadWithin_of_ends hr hdepth]
  · rintro path s' rfl
    exact Library.not_ends_exhausted hr

end Understudy
