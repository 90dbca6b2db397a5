import Understudy.Proofs.ImportClosure
import Understudy.Proofs.LoadAlike
import Understudy.Proofs.LoaderStack
import Understudy.Proofs.NameClosure

namespace Understudy

namespace Library

open ModulePath (requested)

variable {lib : Library} {s t : Session} {past : List String} {request : String}

def sessionAfter (lib : Library) (past : List String) : Session :=
  Session.history (past.map fun request ↦ (lib, request))

theorem sessionAfter_concat (past : List String) (request : String) :
    lib.sessionAfter (past ++ [request]) = (lib.loadRoot request).after
      (lib.sessionAfter past) := by
  rw [sessionAfter, Session.history, List.map_append, List.foldl_append]
  rfl

theorem outcome_loadRoot (request : String) (s : Session) :
    (lib.loadRoot request).outcome s = (lib.load request).outcome s := by
  cases h : lib.load request s with
  | ok path s' => rw [Load.outcome_of_ok h, Load.outcome_of_ok (loadRoot_ok h)]
  | error e s' => rw [Load.outcome_of_error h, Load.outcome_of_error (loadRoot_error h)]

theorem modules_loadRoot (request : String) (s : Session) :
    ((lib.loadRoot request).after s).modules.modules =
      ((lib.load request).after s).modules.modules := by
  cases h : lib.load request s with
  | ok path s' => rw [Load.after_ok h, Load.after_ok (loadRoot_ok h), ModuleSet.modules_markRoot]
  | error e s' => rw [Load.after_error h, Load.after_error (loadRoot_error h)]

theorem contains_congr {a b : ModuleSet} (h : a.modules = b.modules) (path : String) :
    a.contains path = b.contains path := by
  rw [ModuleSet.contains, ModuleSet.index?, h]
  rfl

theorem roots_loadRoot_error {e : LoadError} (h : (lib.loadRoot request).outcome s = .error e) :
    ((lib.loadRoot request).after s).modules.roots = s.modules.roots := by
  have hgrows := (lib.extends_loadWithin (lib.allRequests.length + 2) [] request s).grows
  rw [outcome_loadRoot] at h
  have hrun := Load.eq_error_of_outcome h
  rw [← load, ← Load.after] at hgrows
  obtain ⟨later, hmodules⟩ := hgrows.exists_append
  rw [Load.after_error (loadRoot_error hrun), hmodules]

theorem ready_start : lib.Ready [] Session.start.modules := ⟨.nil, List.forall_mem_nil _⟩

theorem contains_loadRoot {path : String} (h : (lib.loadRoot request).outcome s = .ok path) :
    path = requested request ∧ ((lib.loadRoot request).after s).modules.contains path = true := by
  rw [outcome_loadRoot] at h
  rw [contains_congr (modules_loadRoot _ _)]
  exact (lib.extends_loadWithin _ [] request s).result (Load.eq_ok_of_outcome h)

section Exact

variable (hlib : lib.IsExact)

include hlib

theorem runsAlike_load (hr : ModulePath.IsExact request) (hs : lib.Ready [] s.modules)
    (ht : lib.Ready [] t.modules) : (lib.load request).RunsAlike s t := by
  refine runsAlike_loadWithin hlib (fun r hr ↦ List.mem_map_of_mem (List.mem_cons_of_mem _ hr))
    (isRoomy_load request)
    hr ?_ hs ht
  rw [List.map_cons, hr.requested]
  exact List.mem_cons_self ..

theorem ready_loadRoot (hr : ModulePath.IsExact request) (hs : lib.Ready [] s.modules) :
    lib.Ready [] ((lib.loadRoot request).after s).modules := by
  refine ⟨?_, List.forall_mem_nil _⟩
  rw [modules_loadRoot]
  exact (hs.loadWithin hlib _ hr).grown

theorem ready_sessionAfter (hpast : ∀ r ∈ past, ModulePath.IsExact r) :
    lib.Ready [] (lib.sessionAfter past).modules := by
  induction past using List.reverseRecOn with
  | nil => exact ready_start
  | append_singleton past request ih =>
    obtain ⟨hpast, hr⟩ := List.forall_mem_append.1 hpast
    rw [sessionAfter_concat]
    exact ready_loadRoot hlib (hr request (List.mem_singleton_self _)) (ih hpast)

theorem contains_sessionAfter (hpast : ∀ r ∈ past, ModulePath.IsExact r) (path : String) :
    (lib.sessionAfter past).modules.contains path = true ↔
      ∃ r ∈ past, ((lib.load r).after .start).modules.contains path = true := by
  induction past using List.reverseRecOn with
  | nil =>
    simp [sessionAfter, Session.history, Session.start, ModuleSet.contains, ModuleSet.index?,
      ModuleSet.empty]
  | append_singleton past request ih =>
    obtain ⟨hpast, hr⟩ := List.forall_mem_append.1 hpast
    have halike :=
      runsAlike_load hlib (hr request (List.mem_singleton_self _)) (ready_sessionAfter hlib hpast)
      (ready_start)
    have hgain := halike.gain path
    have hnone : Session.start.modules.contains path = false := rfl
    rw [hnone, ih hpast] at hgain
    rw [sessionAfter_concat, contains_congr (modules_loadRoot _ _)]
    simpa [or_and_right, exists_or] using hgain

end Exact

/-- What a loader has been asked for does not show in what it answers to a further request. -/
structure ForgetsPast (lib : Library) (past : List String) (request : String) : Prop where
  outcome : (lib.loadRoot request).outcome (lib.sessionAfter past) =
      (lib.loadRoot request).outcome .start
  found : ∀ path, (lib.loadRoot request).outcome .start = .ok path → path = request ∧
    ∃ m, ((lib.loadRoot request).after (lib.sessionAfter past)).modules.get? request = some m ∧
      ((lib.loadRoot request).after .start).modules.get? request = some m
  /-- A failure leaves the roots as they were. -/
  roots : ∀ e, (lib.loadRoot request).outcome (lib.sessionAfter past) = .error e →
    ((lib.loadRoot request).after (lib.sessionAfter past)).modules.roots =
      (lib.sessionAfter past).modules.roots
  /-- Between requests no module waits, and loading with a stack does what the session does. -/
  stack : Loader.history lib past = ⟨lib.sessionAfter past, []⟩ ∧
    Loader.loadRoot lib request (Loader.history lib past) =
      Loader.keep [] (lib.loadRoot request (lib.sessionAfter past))
  /-- In another order the same requests bring in the same modules. -/
  order : ∀ past', (∀ r, r ∈ past' ↔ r ∈ past) →
    ∀ path, (lib.sessionAfter past').modules.get? path = (lib.sessionAfter past).modules.get? path

theorem history_eq (past : List String) :
    Loader.history lib past = ⟨lib.sessionAfter past, []⟩ := by
  induction past using List.reverseRecOn with
  | nil => rfl
  | append_singleton past request ih =>
    rw [Loader.history, List.foldl_append, ← Loader.history, ih, List.foldl_cons, List.foldl_nil,
      Loader.after_loadRoot, sessionAfter_concat]

theorem forgetsPast (hlib : lib.IsExact) (hpast : ∀ r ∈ past, ModulePath.IsExact r)
    (hr : ModulePath.IsExact request) : lib.ForgetsPast past request := by
  have hready := ready_sessionAfter hlib hpast
  have houtcome : (lib.loadRoot request).outcome (lib.sessionAfter past) =
      (lib.loadRoot request).outcome .start := by
    rw [outcome_loadRoot, outcome_loadRoot, (runsAlike_load hlib hr hready ready_start).outcome]
  constructor
  case outcome => exact houtcome
  case found =>
    intro path hpath
    obtain ⟨rfl, hfresh⟩ := contains_loadRoot hpath
    obtain ⟨-, hlater⟩ := contains_loadRoot (houtcome.trans hpath)
    have hsame :=
      (ready_loadRoot hlib hr hready).get?_eq hlib
        (ready_loadRoot hlib hr ready_start) hlater hfresh
    rw [hr.requested] at hfresh hsame ⊢
    rw [ModuleSet.contains_eq, Option.isSome_iff_exists] at hfresh
    obtain ⟨m, hm⟩ := hfresh
    exact ⟨rfl, m, hsame.trans hm, hm⟩
  case roots => exact fun e he ↦ roots_loadRoot_error he
  case stack =>
    refine ⟨history_eq past, ?_⟩
    rw [history_eq, Loader.loadRoot_eq_within]
  case order =>
    intro past' hsame path
    have hpast' : ∀ r ∈ past', ModulePath.IsExact r := fun r hr ↦ hpast r ((hsame r).1 hr)
    have hcontains : (lib.sessionAfter past').modules.contains path =
        (lib.sessionAfter past).modules.contains path := by
      rw [Bool.eq_iff_iff, contains_sessionAfter hlib hpast', contains_sessionAfter hlib hpast]
      simp only [hsame]
    cases hheld : (lib.sessionAfter past).modules.contains path with
    | true =>
      exact (ready_sessionAfter hlib hpast').get?_eq hlib hready (hcontains.trans hheld) hheld
    | false =>
      rw [hheld] at hcontains
      rw [ModuleSet.contains_eq, Option.isSome_eq_false_iff, Option.isNone_iff_eq_none]
        at hcontains hheld
      rw [hcontains, hheld]

section Faulty

def faulty : Library :=
  ⟨.default, ⟨[(["", "", "app"], .directory), (["", "", "store"], .directory),
    (["", "", "left"], .directory), (["", "", "right"], .directory),
    (["", "", "app", "app.api"], .file (some "package app\nimport \"store\"\nimport \"gone\"\n")),
    (["", "", "store", "store.api"], .file (some "package store\ntype Entry int\n")),
    (["", "", "left", "left.api"], .file (some "package left\nimport \"right\"\n")),
    (["", "", "right", "right.api"], .file (some "package right\nimport \"left\"\n"))]⟩⟩

theorem isExact_faulty : faulty.IsExact := by
  refine isExact_of_allRequests ?_
  have hrequests : faulty.allRequests = ["store", "gone", "right", "left"] := by decide +kernel
  rw [hrequests]
  decide +kernel

theorem forgetsPast_faulty :
    (∀ r ∈ ["app", "left"], ((faulty.loadRoot r).outcome .start).isOk = false) ∧
      faulty.ForgetsPast ["app", "left"] "store" ∧
      ((faulty.loadRoot "store").outcome .start).toOption = some "store" ∧
      faulty.ForgetsPast ["app", "left"] "right" ∧
      ((faulty.loadRoot "right").outcome .start).mapError LoadError.message =
        .error "circular import detected: right → left → right" := by
  have hpast : ∀ r ∈ ["app", "left"], ModulePath.IsExact r := by decide +kernel
  refine ⟨by decide +kernel, forgetsPast isExact_faulty hpast (by decide +kernel),
    by decide +kernel, forgetsPast isExact_faulty hpast (by decide +kernel), by decide +kernel⟩

end Faulty

end Library

end Understudy
