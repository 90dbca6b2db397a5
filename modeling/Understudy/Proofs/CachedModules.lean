import Understudy.Proofs.FileTexts
import Understudy.Proofs.LoadOutcomes

namespace Understudy

namespace ModulePath

structure IsExact (path : String) : Prop where
  trimmed : Text.trim path = path
  noSlash : Text.dropEnd (· = '/') path.toList = path.toList
  unvendored : unvendor path = path

instance (path : String) : Decidable (IsExact path) :=
  decidable_of_iff
    (Text.trim path = path ∧ Text.dropEnd (· = '/') path.toList = path.toList ∧
      unvendor path = path)
    ⟨fun ⟨htrim, hslash, hvendor⟩ ↦ ⟨htrim, hslash, hvendor⟩,
      fun h ↦ ⟨h.trimmed, h.noSlash, h.unvendored⟩⟩

theorem IsExact.requested {path : String} (h : IsExact path) : requested path = path := by
  rw [ModulePath.requested, ofRequest, h.trimmed, h.noSlash, String.ofList_toList, h.unvendored]

end ModulePath

theorem ModuleSet.get?_congr {a b : ModuleSet} {path : String}
    (h : ∀ m ∈ a.modules, ∀ m' ∈ b.modules, m.path = m'.path → m = m') (ha : a.contains path = true)
    (hb : b.contains path = true) : a.get? path = b.get? path := by
  rw [contains_eq, Option.isSome_iff_exists] at ha hb
  obtain ⟨m, hm⟩ := ha
  obtain ⟨m', hm'⟩ := hb
  have hpath : m.path = path := by simpa using List.find?_some hm
  have hpath' : m'.path = path := by simpa using List.find?_some hm'
  rw [hm, hm', h m (List.mem_of_find?_eq_some hm) m' (List.mem_of_find?_eq_some hm')
    (hpath.trans hpath'.symm)]

namespace Library

open ModulePath (requested)

variable {lib : Library}

/-- The import paths in all files that can be read are spelled as their modules are called. -/
def IsExact (lib : Library) : Prop :=
  ∀ path directory files s s', lib.readFiles path directory s = .ok files s' →
    ∀ r ∈ wanted files, ModulePath.IsExact r

theorem isExact_of_allRequests (h : ∀ r ∈ lib.allRequests, ModulePath.IsExact r) : lib.IsExact :=
  fun _ _ _ _ _ hread r hr ↦ h r (mem_allRequests hread hr)

theorem resolution_eq_of_contains {a b : ModuleSet} {files : List ReadFile}
    (h : ∀ m ∈ a.modules, ∀ m' ∈ b.modules, m.path = m'.path → m = m')
    (hexact : ∀ r ∈ wanted files, ModulePath.IsExact r)
    (ha : ∀ r ∈ wanted files, a.contains (requested r) = true)
    (hb : ∀ r ∈ wanted files, b.contains (requested r) = true) (path : String) :
    resolution path files a = resolution path files b := by
  apply resolution_congr
  intro r hr
  have hold := ha r hr
  have hold' := hb r hr
  rw [(hexact r hr).requested] at hold hold'
  rw [(hexact r hr).unvendored]
  exact ModuleSet.get?_congr h hold hold'

/-- Modules that came in one after the other, each for a request spelled as it is called. -/
inductive Grown (lib : Library) : List Module → Prop
  | nil : Grown lib []
  | snoc {before : List Module} {roots : List Nat} {directory : String} {files : List ReadFile}
      {m : Module} (h : Grown lib before)
      (hmakes : lib.Makes m.path directory files ⟨before, roots⟩ m)
      (hfresh : m.path ∉ before.map (·.path)) : Grown lib (before ++ [m])

theorem Grown.makes {modules : List Module} (h : lib.Grown modules) {m : Module}
    (hm : m ∈ modules) :
    ∃ before after directory files roots, modules = before ++ m :: after ∧ lib.Grown before ∧
      m.path ∉ before.map (·.path) ∧ lib.Makes m.path directory files ⟨before, roots⟩ m := by
  induction h with
  | nil => exact absurd hm List.not_mem_nil
  | @snoc before roots directory files last h hmakes hfresh ih =>
    rcases List.mem_append.1 hm with hm | hm
    · obtain ⟨before', after, directory', files', roots', rfl, hmade⟩ := ih hm
      refine ⟨before', after ++ [last], directory', files', roots', ?_, hmade⟩
      rw [List.append_assoc, List.cons_append]
    · rw [List.mem_singleton.1 hm]
      exact ⟨before, [], directory, files, roots, rfl, h, hfresh, hmakes⟩

theorem Grown.unique (hlib : lib.IsExact) {a b : List Module} (ha : lib.Grown a)
    (hb : lib.Grown b) : ∀ m ∈ a, ∀ m' ∈ b, m.path = m'.path → m = m' := by
  induction ha with
  | nil => exact List.forall_mem_nil _
  | @snoc before roots directory files last h hmakes hfresh ih =>
    intro m hm m' hm' hpath
    rcases List.mem_append.1 hm with hm | hm
    · exact ih m hm m' hm' hpath
    · rw [List.mem_singleton.1 hm] at hpath ⊢
      obtain ⟨before', after, directory', files', roots', rfl, -, -, hmakes'⟩ := hb.makes hm'
      rw [← hpath] at hmakes'
      cases hmakes.located.symm.trans hmakes'.located
      obtain rfl := files_unique hmakes.read hmakes'.read
      obtain ⟨s, s', hread⟩ := hmakes.read
      -- What it was made of both times came in before it, so there the induction hypothesis
      -- applies.
      have hsame : resolution (requested last.path) files ⟨before, roots⟩ =
          resolution (requested last.path) files ⟨before', roots'⟩ :=
        resolution_eq_of_contains (fun d hd d' hd' ↦ ih d hd d' (List.mem_append_left _ hd'))
          (hlib _ _ _ _ _ hread) hmakes.loaded hmakes'.loaded _
      rw [hmakes.eq_module, hmakes'.eq_module, hsame]

/-- Nothing that the set holds is waited for, and it holds modules that came in for exact
requests. -/
structure Ready (lib : Library) (loading : List String) (s : ModuleSet) : Prop where
  grown : lib.Grown s.modules
  apart : ∀ path ∈ loading, s.contains path = false

theorem Ready.get?_eq (hlib : lib.IsExact) {loading loading' : List String} {a b : ModuleSet}
    (ha : lib.Ready loading a) (hb : lib.Ready loading' b) {path : String}
    (hpath : a.contains path = true) (hpath' : b.contains path = true) :
    a.get? path = b.get? path :=
  ModuleSet.get?_congr (ha.grown.unique hlib hb.grown) hpath hpath'

theorem Ready.resolution_eq (hlib : lib.IsExact) {loading loading' : List String} {a b : ModuleSet}
    (ha : lib.Ready loading a) (hb : lib.Ready loading' b) {files : List ReadFile}
    (hexact : ∀ r ∈ wanted files, ModulePath.IsExact r)
    (hall : ∀ r ∈ wanted files, a.contains (requested r) = true)
    (hall' : ∀ r ∈ wanted files, b.contains (requested r) = true) (path : String) :
    resolution path files a = resolution path files b :=
  resolution_eq_of_contains (ha.grown.unique hlib hb.grown) hexact hall hall' path

section Grow

variable {n : Nat} {loading : List String} {request directory : String} {files : List ReadFile}
    {s s₁ : Session}

theorem Opens.ready (hopens : lib.Opens loading request s directory files s₁)
    (h : lib.Ready loading s.modules) : lib.Ready (loading ++ [requested request]) s₁.modules := by
  rw [hopens.modules]
  refine ⟨h.grown, List.forall_mem_append.2 ⟨h.apart, List.forall_mem_singleton.2 hopens.fresh⟩⟩

theorem grown_loadAll {requests : List String}
    (h : ∀ r ∈ requests, ∀ s : Session, lib.Grown s.modules.modules →
      lib.Grown ((lib.loadWithin n loading r).after s).modules.modules)
    {s : Session} (hs : lib.Grown s.modules.modules) :
    lib.Grown ((lib.loadAll n loading requests).after s).modules.modules := by
  induction requests generalizing s with
  | nil => exact hs
  | cons request rest ih =>
    obtain ⟨hfirst, hrest⟩ := List.forall_mem_cons.1 h
    have hone := hfirst s hs
    cases hrun : lib.loadWithin n loading request s with
    | ok path s' =>
      rw [Load.after_ok hrun] at hone
      rw [Load.after, loadAll_cons_ok hrun]
      exact ih hrest hone
    | error e s' =>
      rw [Load.after_error hrun] at hone
      rwa [Load.after, loadAll_cons_error hrun]

theorem grown_loadWithin (hlib : lib.IsExact) (n : Nat) {loading : List String} {request : String}
    (hr : ModulePath.IsExact request) {s : Session} (hs : lib.Grown s.modules.modules) :
    lib.Grown ((lib.loadWithin n loading request).after s).modules.modules := by
  induction n generalizing loading request s with
  | zero => exact hs
  | succ n ih =>
    -- Its imports come in first, whatever happens to the module itself, which comes in last or not
    -- at all.
    have hall {directory : String} {files : List ReadFile} {s₁ : Session}
        (hopens : lib.Opens loading request s directory files s₁) :
        lib.Grown ((lib.loadAll n (loading ++ [requested request]) (wanted files)).after
          s₁).modules.modules := by
      refine grown_loadAll (fun r hr s hs ↦ ih (hlib _ _ _ _ _ hopens.read r hr) hs) ?_
      rwa [hopens.modules]
    have hvisits := lib.visits_loadWithin n loading request s
    rw [Load.after]
    generalize lib.loadWithin (n + 1) loading request s = result at hvisits
    cases hvisits with
    | known | cycle | missing => exact hs
    | @unread directory e s' _ _ _ h =>
      have hkeeps := lib.keepsModules_readFiles (requested request) directory s
      rw [Load.after_error h] at hkeeps
      rwa [Load.sessionOf, hkeeps]
    | blocked hopens h =>
      have hgrown := hall hopens
      rwa [Load.after_error h] at hgrown
    | rejected hopens h _ hmodules =>
      have hgrown := hall hopens
      rw [Load.after_ok h] at hgrown
      rwa [Load.sessionOf, hmodules]
    | loaded hopens h hclean hmodules =>
      have hgrown := hall hopens
      rw [Load.after_ok h] at hgrown
      obtain ⟨hmakes, hfresh, -⟩ := hopens.adds (lib.extends_loadWithin n) h hclean
      rw [Load.sessionOf, hmodules, ModuleSet.insert_of_fresh hfresh]
      have hpath := hmakes.path.trans hr.requested
      generalize (resolution _ _ _).module = m at hmakes hfresh hpath
      rw [← hpath] at hmakes
      refine hgrown.snoc hmakes fun hmem ↦ ?_
      rw [ModuleSet.contains_eq_true.2 hmem] at hfresh
      cases hfresh

theorem Ready.loadWithin (hlib : lib.IsExact) (h : lib.Ready loading s.modules) (n : Nat)
    (hr : ModulePath.IsExact request) :
    lib.Ready loading ((lib.loadWithin n loading request).after s).modules :=
  ⟨grown_loadWithin hlib n hr h.grown,
    fun path hpath ↦ (lib.extends_loadWithin n loading request s).grows.free hpath
      (h.apart path hpath)⟩

end Grow

end Library

end Understudy
