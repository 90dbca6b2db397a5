import Mathlib.Data.List.Nodup
import Understudy.Proofs.CachedModules

namespace Understudy

namespace ModuleSet

/-- From `a` to `a'` the same modules come in as from `b` to `b'`, but for those that `a` or `b`
held before. -/
def GainsAlike (a a' b b' : ModuleSet) : Prop :=
  ∀ path, (a'.contains path = true ∨ b.contains path = true) ↔
    (a.contains path = true ∨ b'.contains path = true)

theorem gainsAlike_refl (a b : ModuleSet) : GainsAlike a a b b := fun _ ↦ Iff.rfl

variable {a a' a'' b b' b'' : ModuleSet}

theorem GainsAlike.symm (h : GainsAlike a a' b b') : GainsAlike b b' a a' := by
  intro path
  rw [or_comm, ← h path, or_comm]

theorem GainsAlike.insert (h : GainsAlike a a' b b') (m : Module) :
    GainsAlike a (a'.insert m) b (b'.insert m) := by
  intro path
  rw [contains_insert, contains_insert, Bool.or_eq_true, Bool.or_eq_true, or_right_comm,
    h path, or_assoc]

end ModuleSet

namespace Load

variable {α : Type} {p : Load α} {s t : Session}

/-- The same comes of both sessions, and both gain the same modules. -/
structure RunsAlike (p : Load α) (s t : Session) : Prop where
  outcome : p.outcome s = p.outcome t
  gain : ModuleSet.GainsAlike s.modules (p.after s).modules t.modules (p.after t).modules

theorem RunsAlike.symm (h : p.RunsAlike s t) : p.RunsAlike t s := ⟨h.outcome.symm, h.gain.symm⟩

theorem runsAlike_of_ok {a : α} {s' t' : Session} (hs : p s = .ok a s') (ht : p t = .ok a t')
    (hgain : ModuleSet.GainsAlike s.modules s'.modules t.modules t'.modules) : p.RunsAlike s t := by
  constructor
  · rw [outcome_of_ok hs, outcome_of_ok ht]
  · rwa [after_ok hs, after_ok ht]

theorem runsAlike_of_error {e : LoadError} {s' t' : Session} (hs : p s = .error e s')
    (ht : p t = .error e t')
    (hgain : ModuleSet.GainsAlike s.modules s'.modules t.modules t'.modules) : p.RunsAlike s t := by
  constructor
  · rw [outcome_of_error hs, outcome_of_error ht]
  · rwa [after_error hs, after_error ht]

end Load

namespace Library

open ModulePath (requested)

variable {lib : Library} {paths : List String} {n : Nat} {loading : List String}

/-- There is room for all modules that may come to wait: modules that wait have different paths, and
of these there are fewer than modules that may wait in all. -/
structure IsRoomy (paths : List String) (n : Nat) (loading : List String) : Prop where
  nodup : loading.Nodup
  subset : loading ⊆ paths
  depth : paths.length < n + loading.length

theorem IsRoomy.ne_zero (h : IsRoomy paths n loading) : n ≠ 0 := by
  intro hn
  have hle := h.nodup.length_le_of_subset h.subset
  have hdepth := h.depth
  omega

theorem IsRoomy.step (h : IsRoomy paths (n + 1) loading) {path : String} (hpath : path ∈ paths)
    (hfree : path ∉ loading) : IsRoomy paths n (loading ++ [path]) := by
  refine ⟨?_, List.append_subset.2 ⟨h.subset, List.cons_subset.2 ⟨hpath, List.nil_subset _⟩⟩, ?_⟩
  · rw [← List.concat_eq_append]
    exact .concat hfree h.nodup
  · have hdepth := h.depth
    rw [List.length_append, List.length_singleton]
    omega

theorem isRoomy_load (request : String) :
    IsRoomy ((request :: lib.allRequests).map requested) (lib.allRequests.length + 2) [] :=
  ⟨List.nodup_nil, List.nil_subset _, by simp⟩

theorem Ready.loadAll (hlib : lib.IsExact) {s : Session} (h : lib.Ready loading s.modules) (n : Nat)
    {requests : List String} (hr : ∀ r ∈ requests, ModulePath.IsExact r) :
    lib.Ready loading ((lib.loadAll n loading requests).after s).modules := by
  refine ⟨grown_loadAll (fun r hmem s hs ↦ grown_loadWithin hlib n (hr r hmem) hs) h.grown,
    fun path hpath ↦ ?_⟩
  exact (grows_loadAll (lib.extends_loadWithin n loading) requests s).free hpath
    (h.apart path hpath)

section Known

variable {known : List Module}

/-- The module comes of the request, and nothing comes in but modules among those known. -/
def LoadsFrom (lib : Library) (known : List Module) (n : Nat) (loading : List String)
    (path : String) (t : Session) : Prop :=
  ∃ t', lib.loadWithin n loading path t = .ok path t' ∧
    ∀ p, t'.modules.contains p = true → t.modules.contains p = true ∨ p ∈ known.map (·.path)

theorem loadAll_of_loadsFrom (hlib : lib.IsExact) {requests : List String}
    (h : ∀ r ∈ requests, ∀ t : Session, lib.Ready loading t.modules →
      lib.LoadsFrom known n loading r t) (hexact : ∀ r ∈ requests, ModulePath.IsExact r)
    {t : Session} (ht : lib.Ready loading t.modules) :
    ∃ t', lib.loadAll n loading requests t = .ok () t' ∧
      ∀ p, t'.modules.contains p = true → t.modules.contains p = true ∨ p ∈ known.map (·.path) := by
  induction requests generalizing t with
  | nil => exact ⟨t, rfl, fun _ ↦ .inl⟩
  | cons request rest ih =>
    obtain ⟨hfirst, hrest⟩ := List.forall_mem_cons.1 h
    obtain ⟨hexact₁, hexact₂⟩ := List.forall_mem_cons.1 hexact
    obtain ⟨t₁, hrun, hnew⟩ := hfirst t ht
    have ht₁ := ht.loadWithin hlib n hexact₁
    rw [Load.after_ok hrun] at ht₁
    obtain ⟨t₂, hruns, hnew'⟩ := ih hrest hexact₂ ht₁
    refine ⟨t₂, (loadAll_cons_ok hrun).trans hruns, fun p hp ↦ ?_⟩
    rcases hnew' p hp with hp | hp
    · exact hnew p hp
    · exact .inr hp

theorem loadsFrom_of_makes (hlib : lib.IsExact) {before after : List Module} {roots : List Nat}
    {directory : String} {files : List ReadFile} {m : Module} (hbefore : lib.Grown before)
    (hmakes : lib.Makes m.path directory files ⟨before, roots⟩ m)
    (hfree : requested m.path ∉ loading) {t : Session} (ht : lib.Ready loading t.modules)
    (hfresh : t.modules.contains (requested m.path) = false)
    (hdeps : ∀ r ∈ wanted files, ∀ t : Session,
      lib.Ready (loading ++ [requested m.path]) t.modules →
      lib.LoadsFrom before n (loading ++ [requested m.path]) r t) :
    lib.LoadsFrom (before ++ m :: after) (n + 1) loading m.path t := by
  obtain ⟨s, s', hread⟩ := hmakes.read
  have hopens : lib.Opens loading m.path t directory files _ :=
    ⟨hfresh, hfree, hmakes.located, (isBlind_readFiles _ _).ok hread t⟩
  have hexact := hlib _ _ _ _ _ hread
  have hready := hopens.ready ht
  obtain ⟨t₂, hall, hnew⟩ := loadAll_of_loadsFrom hlib hdeps hexact hready
  have hready₂ := hready.loadAll hlib n hexact
  rw [Load.after_ok hall] at hready₂
  have hsame : resolution (requested m.path) files t₂.modules =
      resolution (requested m.path) files ⟨before, roots⟩ :=
    hready₂.resolution_eq hlib ⟨hbefore, List.forall_mem_nil _⟩ hexact
      (contains_of_loadAll (lib.extends_loadWithin n _) hall) hmakes.loaded _
  obtain ⟨t₃, hrun, hmodules⟩ := hopens.loaded hall (hsame ▸ hmakes.clean)
  rw [hsame, ← hmakes.eq_module] at hmodules
  rw [← hmakes.path] at hrun
  refine ⟨t₃, hrun, ?_⟩
  intro p hp
  rw [hmodules, ModuleSet.contains_insert, Bool.or_eq_true, decide_eq_true_iff] at hp
  rw [List.map_append, List.map_cons, List.mem_append, List.mem_cons]
  rcases hp with hp | rfl
  · rcases hnew p hp with hp | hp
    · rw [hopens.modules] at hp
      exact .inl hp
    · exact .inr (.inl hp)
  · exact .inr (.inr (.inl rfl))

/-- A module that could come in once can come in again, wherever nothing waits that it is made
of. -/
theorem loadsFrom_of_mem (hlib : lib.IsExact) (hpaths : ∀ r ∈ lib.allRequests, requested r ∈ paths)
    (hroomy : IsRoomy paths n loading) (hknown : lib.Grown known)
    (hapart : ∀ p ∈ loading, p ∉ known.map (·.path)) {m : Module} (hm : m ∈ known)
    (hpath : m.path ∈ paths) {t : Session} (ht : lib.Ready loading t.modules) :
    lib.LoadsFrom known n loading m.path t := by
  induction n generalizing loading known m t with
  | zero => exact absurd rfl hroomy.ne_zero
  | succ n ih =>
    -- All that `m` imports was known before it, where `m` was not: what waits now, and `m`, is
    -- apart from that.
    obtain ⟨before, after, directory, files, roots, rfl, hbefore, hfresh, hmakes⟩ := hknown.makes hm
    have hrequested : requested m.path = m.path := hmakes.path.symm
    have hfree : requested m.path ∉ loading := by
      intro hmem
      apply hapart _ hmem
      simp [hrequested]
    have hapart' : ∀ p ∈ loading ++ [requested m.path], p ∉ before.map (·.path) := by
      intro p hp hmem
      simp only [List.mem_append, List.mem_singleton, hrequested] at hp
      rcases hp with hp | rfl
      · apply hapart p hp
        simp [hmem]
      · exact hfresh hmem
    cases hhas : t.modules.contains (requested m.path) with
    | true =>
      refine ⟨t, ?_, fun _ ↦ .inl⟩
      rw [loadWithin_known hhas, hrequested]
    | false =>
      refine loadsFrom_of_makes hlib hbefore hmakes hfree ht hhas ?_
      intro r hr t ht
      obtain ⟨s, s', hread⟩ := hmakes.read
      have hr' := (hlib _ _ _ _ _ hread r hr).requested
      have hroom := hpaths r (mem_allRequests hread hr)
      have hold := hmakes.loaded r hr
      rw [hr'] at hroom hold
      obtain ⟨d, hd, rfl⟩ := List.mem_map.1 (ModuleSet.contains_eq_true.1 hold)
      refine ih (hroomy.step ?_ hfree) hbefore hapart' hd hroom ht
      rwa [hrequested]

end Known

section Alike

variable {s t : Session} {request : String}

theorem gainsAlike_trans {a a' a'' b b' b'' : ModuleSet} (h : ModuleSet.GainsAlike a a' b b')
    (h' : ModuleSet.GainsAlike a' a'' b' b'') (ha : lib.Grows loading a a')
    (ha' : lib.Grows loading a' a'') (hb : lib.Grows loading b b')
    (hb' : lib.Grows loading b' b'') : ModuleSet.GainsAlike a a'' b b'' := by
  intro path
  constructor
  · rintro (hp | hp)
    · rcases (h' path).1 (.inl hp) with hp | hp
      · exact ((h path).1 (.inl hp)).imp_right hb'.contains
      · exact .inr hp
    · exact .inr (hb'.contains (hb.contains hp))
  · rintro (hp | hp)
    · exact .inl (ha'.contains (ha.contains hp))
    · rcases (h' path).2 (.inr hp) with hp | hp
      · exact .inl hp
      · exact ((h path).2 (.inr hp)).imp_left ha'.contains

theorem runsAlike_loadAll (hlib : lib.IsExact) {requests : List String}
    (hexact : ∀ r ∈ requests, ModulePath.IsExact r)
    (h : ∀ r ∈ requests, ∀ s t : Session, lib.Ready loading s.modules →
      lib.Ready loading t.modules → (lib.loadWithin n loading r).RunsAlike s t)
    (hs : lib.Ready loading s.modules) (ht : lib.Ready loading t.modules) :
    (lib.loadAll n loading requests).RunsAlike s t := by
  induction requests generalizing s t with
  | nil => exact ⟨rfl, ModuleSet.gainsAlike_refl _ _⟩
  | cons request rest ih =>
    obtain ⟨hfirst, hrest⟩ := List.forall_mem_cons.1 h
    obtain ⟨hexact₁, hexact₂⟩ := List.forall_mem_cons.1 hexact
    obtain ⟨houtcome, hgain⟩ := hfirst s t hs ht
    cases hrun : (lib.loadWithin n loading request).outcome s with
    | error e =>
      rw [hrun] at houtcome
      exact Load.runsAlike_of_error (loadAll_cons_error (Load.eq_error_of_outcome hrun))
        (loadAll_cons_error (Load.eq_error_of_outcome houtcome.symm)) hgain
    | ok path =>
      rw [hrun] at houtcome
      have hsrun : lib.loadAll n loading (request :: rest) s = lib.loadAll n loading rest _ :=
        loadAll_cons_ok (Load.eq_ok_of_outcome hrun)
      have htrun : lib.loadAll n loading (request :: rest) t = lib.loadAll n loading rest _ :=
        loadAll_cons_ok (Load.eq_ok_of_outcome houtcome.symm)
      obtain ⟨houtcome', hgain'⟩ :=
        ih hexact₂ hrest (hs.loadWithin hlib n hexact₁) (ht.loadWithin hlib n hexact₁)
      have hextends := lib.extends_loadWithin n loading
      constructor
      · rw [Load.outcome, Load.outcome, hsrun, htrun]
        exact houtcome'
      · rw [Load.after, Load.after, hsrun, htrun]
        exact gainsAlike_trans hgain hgain' (hextends request s).grows
          (grows_loadAll hextends rest _)
          (hextends request t).grows (grows_loadAll hextends rest _)

theorem runsAlike_of_contains (hlib : lib.IsExact)
    (hpaths : ∀ r ∈ lib.allRequests, requested r ∈ paths) (hroomy : IsRoomy paths (n + 1) loading)
    (hexact : ModulePath.IsExact request) (hrequest : request ∈ paths)
    (hs : lib.Ready loading s.modules) (ht : lib.Ready loading t.modules)
    (hhas : s.modules.contains request = true) :
    (lib.loadWithin (n + 1) loading request).RunsAlike s t := by
  have hrun : lib.loadWithin (n + 1) loading request s = .ok (requested request) s :=
    loadWithin_known (by rwa [hexact.requested])
  rw [hexact.requested] at hrun
  have hmem := ModuleSet.contains_eq_true.1 hhas
  obtain ⟨m, hm, rfl⟩ := List.mem_map.1 hmem
  have hapart : ∀ path ∈ loading, path ∉ s.modules.modules.map (·.path) := by
    intro path hpath hmem
    have hnone := hs.apart path hpath
    rw [ModuleSet.contains_eq_true.2 hmem] at hnone
    cases hnone
  obtain ⟨t', hrun', hnew⟩ := loadsFrom_of_mem hlib hpaths hroomy hs.grown hapart hm hrequest ht
  have hgrows := (lib.extends_loadWithin (n + 1) loading m.path t).grows
  rw [hrun'] at hgrows
  refine Load.runsAlike_of_ok hrun hrun' fun path ↦ ⟨fun h ↦ ?_, fun h ↦ ?_⟩
  · exact h.imp_right hgrows.contains
  · rcases h with h | h
    · exact .inl h
    · rcases hnew path h with h | h
      · exact .inr h
      · exact .inl (ModuleSet.contains_eq_true.2 h)

theorem Opens.transfer {directory : String} {files : List ReadFile} {s₁ : Session}
    (hopens : lib.Opens loading request s directory files s₁)
    (hfresh : t.modules.contains (requested request) = false) :
    lib.Opens loading request t directory files
      ((lib.readFiles (requested request) directory).after t) :=
  ⟨hfresh, hopens.free, hopens.located, (isBlind_readFiles _ _).ok hopens.read t⟩

section Opened

variable (hlib : lib.IsExact) (hs : lib.Ready loading s.modules) (ht : lib.Ready loading t.modules)
    {directory : String} {files : List ReadFile} {s₁ t₁ s₂ t₂ : Session}
    (hopens : lib.Opens loading request s directory files s₁)
    (hopens' : lib.Opens loading request t directory files t₁)
    (hrun : lib.loadAll n (loading ++ [requested request]) (wanted files) s₁ = .ok () s₂)
    (hrun' : lib.loadAll n (loading ++ [requested request]) (wanted files) t₁ = .ok () t₂)

include hlib hs ht hopens hopens' hrun hrun'

theorem Opens.resolution_eq :
    resolution (requested request) files s₂.modules =
      resolution (requested request) files t₂.modules := by
  have hexact := hlib _ _ _ _ _ hopens.read
  have hs₂ := (hopens.ready hs).loadAll hlib n hexact
  have ht₂ := (hopens'.ready ht).loadAll hlib n hexact
  rw [Load.after_ok hrun] at hs₂
  rw [Load.after_ok hrun'] at ht₂
  have hextends := lib.extends_loadWithin n (loading ++ [requested request])
  exact hs₂.resolution_eq hlib ht₂ hexact (contains_of_loadAll hextends hrun)
    (contains_of_loadAll hextends hrun') _

end Opened

theorem runsAlike_of_fresh (hlib : lib.IsExact) (hs : lib.Ready loading s.modules)
    (ht : lib.Ready loading t.modules) (hfresh : s.modules.contains (requested request) = false)
    (hfresh' : t.modules.contains (requested request) = false)
    (hall : ∀ directory files s₁ t₁, lib.Opens loading request s directory files s₁ →
      lib.Opens loading request t directory files t₁ →
      (lib.loadAll n (loading ++ [requested request]) (wanted files)).RunsAlike s₁ t₁) :
    (lib.loadWithin (n + 1) loading request).RunsAlike s t := by
  have hvisits := lib.visits_loadWithin n loading request s
  generalize hrun : lib.loadWithin (n + 1) loading request s = result at hvisits
  cases hvisits with
  | known h =>
    rw [hfresh] at h
    cases h
  | cycle _ h =>
    exact Load.runsAlike_of_error hrun (loadWithin_cycle hfresh' h) (ModuleSet.gainsAlike_refl _ _)
  | missing _ hfree h =>
    exact Load.runsAlike_of_error hrun (loadWithin_missing hfresh' hfree h)
      (ModuleSet.gainsAlike_refl _ _)
  | @unread directory e s' _ hfree hlocated h =>
    have hrun' : lib.loadWithin (n + 1) loading request t =
        .error e ((lib.readFiles (requested request) directory).after t) := by
      rw [loadWithin_located hfresh' hfree hlocated,
        Load.bind_error ((isBlind_readFiles _ _).error h t)]
    refine Load.runsAlike_of_error hrun hrun' ?_
    have hkeeps := lib.keepsModules_readFiles (requested request) directory
    rw [← Load.after_error h, hkeeps s, hkeeps t]
    exact ModuleSet.gainsAlike_refl _ _
  | @blocked directory files s₁ s₂ e hopens h =>
    have hopens' := hopens.transfer hfresh'
    obtain ⟨houtcome, hgain⟩ := hall _ _ _ _ hopens hopens'
    rw [Load.outcome_of_error h] at houtcome
    rw [Load.after_error h, hopens.modules, hopens'.modules] at hgain
    exact Load.runsAlike_of_error hrun
      (hopens'.blocked (Load.eq_error_of_outcome houtcome.symm)) hgain
  | @rejected directory files s₁ s₂ s₃ hopens h hreports hmodules =>
    have hopens' := hopens.transfer hfresh'
    obtain ⟨houtcome, hgain⟩ := hall _ _ _ _ hopens hopens'
    rw [Load.outcome_of_ok h] at houtcome
    rw [Load.after_ok h, hopens.modules, hopens'.modules] at hgain
    have h' := Load.eq_ok_of_outcome houtcome.symm
    have hsame := hopens.resolution_eq hlib hs ht hopens' h h'
    rw [hsame] at hreports hrun
    obtain ⟨t₃, hrun', hmodules'⟩ := hopens'.rejected h' hreports
    refine Load.runsAlike_of_error hrun hrun' ?_
    rwa [hmodules, hmodules']
  | @loaded directory files s₁ s₂ s₃ hopens h hclean hmodules =>
    have hopens' := hopens.transfer hfresh'
    obtain ⟨houtcome, hgain⟩ := hall _ _ _ _ hopens hopens'
    rw [Load.outcome_of_ok h] at houtcome
    rw [Load.after_ok h, hopens.modules, hopens'.modules] at hgain
    have h' := Load.eq_ok_of_outcome houtcome.symm
    have hsame := hopens.resolution_eq hlib hs ht hopens' h h'
    rw [hsame] at hclean hmodules
    obtain ⟨t₃, hrun', hmodules'⟩ := hopens'.loaded h' hclean
    refine Load.runsAlike_of_ok hrun hrun' ?_
    rw [hmodules, hmodules']
    exact hgain.insert _

/-- Requests run alike in any two sessions that hold nothing that waits. -/
theorem runsAlike_loadWithin (hlib : lib.IsExact)
    (hpaths : ∀ r ∈ lib.allRequests, requested r ∈ paths) (hroomy : IsRoomy paths n loading)
    (hexact : ModulePath.IsExact request) (hrequest : request ∈ paths)
    (hs : lib.Ready loading s.modules) (ht : lib.Ready loading t.modules) :
    (lib.loadWithin n loading request).RunsAlike s t := by
  induction n generalizing loading request s t with
  | zero => exact absurd rfl hroomy.ne_zero
  | succ n ih =>
    -- What only one session holds the other loads anew. What neither holds both load, with imports
    -- that run alike.
    by_cases hhas : s.modules.contains request = true
    · exact runsAlike_of_contains hlib hpaths hroomy hexact hrequest hs ht hhas
    · by_cases hhas' : t.modules.contains request = true
      · exact (runsAlike_of_contains hlib hpaths hroomy hexact hrequest ht hs hhas').symm
      · rw [Bool.not_eq_true, ← hexact.requested] at hhas hhas'
        refine runsAlike_of_fresh hlib hs ht hhas hhas' fun directory files s₁ t₁ hopens hopens' ↦
          ?_
        have hexacts := hlib _ _ _ _ _ hopens.read
        have hroomy' := hroomy.step (hexact.requested.symm ▸ hrequest) hopens.free
        refine runsAlike_loadAll hlib hexacts (fun r hr s t hs ht ↦ ?_) (hopens.ready hs)
          (hopens'.ready ht)
        have hr' := hpaths r (mem_allRequests hopens.read hr)
        rw [(hexacts r hr).requested] at hr'
        exact ih hroomy' (hexacts r hr) hr' hs ht

end Alike

end Library

end Understudy
