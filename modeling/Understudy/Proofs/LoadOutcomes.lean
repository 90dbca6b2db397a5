import Understudy.Proofs.LoadSteps
import Understudy.Proofs.ResolvedAlike
import Understudy.Proofs.UnloadedImports

namespace Understudy

namespace Load

variable {α β : Type} {p : Load α} {s t : Session}

def outcome (p : Load α) (s : Session) : Except LoadError α :=
  match p s with
  | .ok a _ => .ok a
  | .error e _ => .error e

theorem outcome_of_ok {s' : Session} {a : α} (h : p s = .ok a s') : p.outcome s = .ok a := by
  rw [outcome, h]

theorem outcome_of_error {s' : Session} {e : LoadError} (h : p s = .error e s') :
    p.outcome s = .error e := by
  rw [outcome, h]

theorem eq_ok_of_outcome {a : α} (h : p.outcome s = .ok a) : p s = .ok a (p.after s) := by
  unfold outcome at h
  rw [after]
  split at h
  · rename_i hp
    cases h
    rw [hp, sessionOf]
  · cases h

theorem eq_error_of_outcome {e : LoadError} (h : p.outcome s = .error e) :
    p s = .error e (p.after s) := by
  unfold outcome at h
  rw [after]
  split at h
  · cases h
  · rename_i hp
    cases h
    rw [hp, sessionOf]

/-- The session has no influence on what comes of this. -/
def IsBlind (p : Load α) : Prop := ∀ s t, p.outcome s = p.outcome t

theorem IsBlind.bind {f : α → Load β} (hp : p.IsBlind) (hf : ∀ a, (f a).IsBlind) :
    IsBlind (p >>= f) := by
  intro s t
  have hsame := hp s t
  cases hs : p.outcome s with
  | ok a =>
    rw [hs] at hsame
    rw [outcome, outcome, bind_ok (eq_ok_of_outcome hs), bind_ok (eq_ok_of_outcome hsame.symm)]
    exact hf a _ _
  | error e =>
    rw [hs] at hsame
    rw [outcome_of_error (bind_error (eq_error_of_outcome hs)),
      outcome_of_error (bind_error (eq_error_of_outcome hsame.symm))]

theorem composes_isBlind : Composes fun _ p ↦ p.IsBlind where
  pure _ := fun _ _ ↦ rfl
  throw _ _ := fun _ _ ↦ rfl
  log _ := fun _ _ ↦ rfl
  bind := .bind

theorem IsBlind.ok (h : p.IsBlind) {s' : Session} {a : α} (hs : p s = .ok a s') (t : Session) :
    p t = .ok a (p.after t) :=
  eq_ok_of_outcome ((h t s).trans (outcome_of_ok hs))

theorem IsBlind.error (h : p.IsBlind) {s' : Session} {e : LoadError} (hs : p s = .error e s')
    (t : Session) : p t = .error e (p.after t) :=
  eq_error_of_outcome ((h t s).trans (outcome_of_error hs))

end Load

namespace Library

variable {lib : Library}

theorem isBlind_readFiles (path directory : String) : (lib.readFiles path directory).IsBlind :=
  Load.composes_isBlind.readFiles path directory

theorem files_unique {path directory : String} {files files' : List ReadFile}
    (h : ∃ s s', lib.readFiles path directory s = .ok files s')
    (h' : ∃ s s', lib.readFiles path directory s = .ok files' s') : files = files' := by
  obtain ⟨s, s', hs⟩ := h
  obtain ⟨t, t', ht⟩ := h'
  rw [(isBlind_readFiles path directory).ok hs t] at ht
  cases ht
  rfl

theorem resolution_congr {path : String} {files : List ReadFile} {deps deps' : ModuleSet}
    (h : ∀ r ∈ wanted files, deps.get? (ModulePath.unvendor r) =
      deps'.get? (ModulePath.unvendor r)) :
    resolution path files deps = resolution path files deps' :=
  resolveModule_congr fun f hf i hi ↦ h i.path (mem_wanted.2 ⟨f, hf, i, hi, rfl⟩)

section Run

open ModulePath (ofRequest requested)

variable {n : Nat} {loading : List String} {request directory : String} {files : List ReadFile}
    {s s₁ s₂ : Session} {e : LoadError}

theorem loadWithin_known (h : s.modules.contains (requested request) = true) :
    lib.loadWithin (n + 1) loading request s = .ok (requested request) s := by
  rw [loadWithin]
  dsimp only
  rw [Load.get_bind, ← requested, if_pos h]
  rfl

section Fresh

variable (hfresh : s.modules.contains (requested request) = false)

include hfresh

theorem loadWithin_cycle (h : requested request ∈ loading) :
    lib.loadWithin (n + 1) loading request s =
    .error (.importCycle (loading.dropWhile (· ≠ requested request) ++ [requested request])) s := by
  rw [loadWithin]
  dsimp only
  rw [Load.get_bind, ← requested, hfresh, if_neg Bool.false_ne_true,
    if_pos (List.contains_iff_mem.2 h)]
  rfl

variable (hfree : requested request ∉ loading)

include hfree

theorem loadWithin_missing (h : lib.locate (ofRequest request) (requested request) = .error e) :
    lib.loadWithin (n + 1) loading request s = .error e s := by
  rw [loadWithin]
  dsimp only
  rw [Load.get_bind, ← requested, hfresh, if_neg Bool.false_ne_true,
    if_neg fun hmem ↦ hfree (List.contains_iff_mem.1 hmem), h]
  rfl

theorem loadWithin_located (h : lib.locate (ofRequest request) (requested request) =
  .ok directory) :
    lib.loadWithin (n + 1) loading request s = (do
      let files ← lib.readFiles (requested request) directory
      lib.loadAll n (loading ++ [requested request]) (wanted files)
      let module ← resolveFiles (requested request) files
      log (.loaded (requested request) directory)
      modify fun s ↦ { s with modules := s.modules.insert module }
      return requested request : Load String) s := by
  rw [loadWithin]
  dsimp only
  rw [Load.get_bind, ← requested, hfresh, if_neg Bool.false_ne_true,
    if_neg fun hmem ↦ hfree (List.contains_iff_mem.1 hmem), h]
  rfl

end Fresh

section Opened

variable (hopens : lib.Opens loading request s directory files s₁)

include hopens

theorem Opens.blocked
    (h : lib.loadAll n (loading ++ [requested request]) (wanted files) s₁ = .error e s₂) :
    lib.loadWithin (n + 1) loading request s = .error e s₂ := by
  rw [loadWithin_located hopens.fresh hopens.free hopens.located, Load.bind_ok hopens.read,
    Load.bind_error h]

variable (h : lib.loadAll n (loading ++ [requested request]) (wanted files) s₁ = .ok () s₂)

include h

theorem Opens.rejected
    (hreports : (resolution (requested request) files s₂.modules).diagnostics ≠ []) :
    ∃ s₃, lib.loadWithin (n + 1) loading request s = .error (.notResolved (requested request)
      ((ReadFile.sourceMap files).report
        (resolution (requested request) files s₂.modules).diagnostics)
      (resolution (requested request) files s₂.modules).diagnostics) s₃ ∧
        s₃.modules = s₂.modules := by
  obtain ⟨s₃, hs₃, hmodules⟩ := resolveFiles_error hreports
  refine ⟨s₃, ?_, hmodules⟩
  rw [loadWithin_located hopens.fresh hopens.free hopens.located, Load.bind_ok hopens.read,
    Load.bind_ok h, Load.bind_error hs₃]

theorem Opens.loaded (hclean : (resolution (requested request) files s₂.modules).diagnostics = []) :
    ∃ s₃, lib.loadWithin (n + 1) loading request s = .ok (requested request) s₃ ∧
      s₃.modules = s₂.modules.insert (resolution (requested request) files s₂.modules).module := by
  obtain ⟨s₃, hs₃, hmodules⟩ := resolveFiles_ok hclean
  rw [loadWithin_located hopens.fresh hopens.free hopens.located, Load.bind_ok hopens.read,
    Load.bind_ok h, Load.bind_ok hs₃, ← hmodules]
  exact ⟨_, rfl, rfl⟩

end Opened

end Run

end Library

end Understudy
