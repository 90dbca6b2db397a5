import Mathlib.Data.List.Forall2
import Understudy.Proofs.Embedding
import Understudy.Proofs.Generation
import Understudy.Proofs.MethodOrder

namespace Understudy

namespace Ty

mutual

/-- Two types that differ at most in the order of the elements of an interface, and of the
interfaces in it. -/
inductive Reorders : Ty → Ty → Prop
  | refl (t : Ty) : Reorders t t
  | interface {methods methods' : List (Method Ty)} {embedded embedded' : List Ty}
      (hm : methods.Perm methods') (he : ReordersAll embedded embedded') :
      Reorders (.interface methods embedded) (.interface methods' embedded')

/-- Each type of one list is at some place of the other, and none is left over there. -/
inductive ReordersAll : List Ty → List Ty → Prop
  | nil : ReordersAll [] []
  | insert {t u : Ty} {rest after : List Ty} (before : List Ty) (h : Reorders t u)
    (hrest : ReordersAll rest (before ++ after)) : ReordersAll (t :: rest) (before ++ u :: after)

end

theorem reordersAll_of_perm {ts us : List Ty} (h : ts.Perm us) : ReordersAll ts us := by
  induction ts generalizing us with
  | nil =>
    rw [List.nil_perm.1 h]
    exact .nil
  | cons t rest ih =>
    obtain ⟨before, after, rfl⟩ := List.append_of_mem (h.subset (List.mem_cons_self ..))
    exact .insert before (.refl t) (ih (List.perm_cons t |>.1 (h.trans List.perm_middle)))

theorem ReordersAll.exists_of_mem {ts us : List Ty} (h : ReordersAll ts us) {t : Ty} (ht : t ∈ ts) :
    ∃ u ∈ us, t.Reorders u := by
  induction ts generalizing us with
  | nil => exact absurd ht List.not_mem_nil
  | cons first rest ih =>
    cases h with
    | @insert _ u _ after before hfirst hrest =>
      rcases List.mem_cons.1 ht with rfl | ht
      · exact ⟨u, by simp, hfirst⟩
      · obtain ⟨v, hv, hreorders⟩ := ih hrest ht
        refine ⟨v, ?_, hreorders⟩
        simp only [List.mem_append, List.mem_cons] at hv ⊢
        exact hv.imp_right .inr

theorem ReordersAll.insert_left {before after ts : List Ty} {t u : Ty}
    (h : ReordersAll (before ++ after) ts) (hu : u.Reorders t) :
    ReordersAll (before ++ u :: after) (t :: ts) := by
  induction before generalizing ts with
  | nil => exact .insert [] hu h
  | cons first rest ih =>
    cases h with
    | insert before' hfirst hrest => exact .insert (t :: before') hfirst (ih hrest)

mutual

theorem Reorders.symm {t u : Ty} (h : t.Reorders u) : u.Reorders t := by
  cases t with
  | interface methods embedded =>
    cases h with
    | refl => exact .refl _
    | interface hm he => exact .interface hm.symm he.symm
  | _ =>
    cases h
    exact .refl _
termination_by structural t

theorem ReordersAll.symm {ts us : List Ty} (h : ReordersAll ts us) : ReordersAll us ts := by
  cases ts with
  | nil =>
    cases h
    exact .nil
  | cons t rest =>
    cases h with
    | insert before hfirst hrest => exact .insert_left (.symm hrest) (.symm hfirst)
termination_by structural ts

end

theorem ReordersAll.refl (ts : List Ty) : ReordersAll ts ts := reordersAll_of_perm (.refl ts)

theorem Reorders.exists_interface {methods : List (Method Ty)} {embedded : List Ty} {t : Ty}
    (h : (Ty.interface methods embedded).Reorders t) :
    ∃ methods' embedded', t = .interface methods' embedded' ∧
      methods.Perm methods' ∧ ReordersAll embedded embedded' := by
  cases h with
  | refl => exact ⟨methods, embedded, rfl, .refl _, .refl _⟩
  | interface hm he => exact ⟨_, _, rfl, hm, he⟩

theorem Reorders.eq_named {name : Option TypeName} {t : Ty} (h : (Ty.named name).Reorders t) :
    t = .named name := by
  cases h
  rfl

theorem Reorders.ne_named {t u : Ty} (h : t.Reorders u) (hne : ∀ name, t ≠ .named name)
    (name : Option TypeName) : u ≠ .named name := by
  rintro rfl
  exact hne name h.symm.eq_named

end Ty

section Rel

variable {α β γ δ : Type} {R : α → β → Prop} {S : γ → δ → Prop}

theorem exists_of_rel {a : Option α} {b : Option β} (h : Option.Rel R a b) {x : α}
    (hx : a = some x) : ∃ y, b = some y ∧ R x y := by
  subst hx
  cases h with
  | some h => exact ⟨_, rfl, h⟩

theorem rel_cases {a : Option α} {b : Option β} (h : Option.Rel R a b) :
    (a = none ∧ b = none) ∨ ∃ x y, a = some x ∧ b = some y ∧ R x y := by
  cases h with
  | none => exact .inl ⟨rfl, rfl⟩
  | some h => exact .inr ⟨_, _, rfl, rfl, h⟩

theorem rel_of_exists {a : Option α} {b : Option β} (h : ∀ x, a = some x → ∃ y, b = some y ∧ R x y)
    (h' : ∀ y, b = some y → ∃ x, a = some x) : Option.Rel R a b := by
  cases a with
  | none =>
    cases b with
    | none => exact .none
    | some y =>
      obtain ⟨x, hx⟩ := h' y rfl
      cases hx
  | some x =>
    obtain ⟨y, rfl, hxy⟩ := h x rfl
    exact .some hxy

theorem rel_findSome? {f : α → Option γ} {g : β → Option δ}
    (hfg : ∀ x y, R x y → Option.Rel S (f x) (g y)) {xs : List α} {ys : List β}
    (h : List.Forall₂ R xs ys) : Option.Rel S (xs.findSome? f) (ys.findSome? g) := by
  have hall : List.Forall₂ S (xs.filterMap f) (ys.filterMap g) :=
    List.rel_filterMap (fun x y ↦ hfg x y) h
  rw [← List.head?_filterMap, ← List.head?_filterMap]
  generalize xs.filterMap f = as at hall
  generalize ys.filterMap g = bs at hall
  cases hall with
  | nil => exact .none
  | cons hfirst _ => exact .some hfirst

end Rel

/-- Two objects of one name that differ at most in the order of the elements of an interface. -/
inductive Object.Reorders : Object → Object → Prop
  | type {name : String} {t u : Ty} (h : t.Reorders u) :
      Reorders (.type ⟨name, t⟩) (.type ⟨name, u⟩)
  | func (decl : FuncDecl) : Reorders (.func decl) (.func decl)

theorem Object.Reorders.symm {o o' : Object} (h : o.Reorders o') : o'.Reorders o := by
  cases h with
  | type h => exact .type h.symm
  | func decl => exact .func decl

structure Module.Reorders (m m' : Module) : Prop where
  path : m.path = m'.path
  name : m.name = m'.name
  objects : ∀ name, Option.Rel Object.Reorders (m.lookup? name) (m'.lookup? name)

namespace Module.Reorders

variable {m m' : Module}

theorem symm (h : m.Reorders m') : m'.Reorders m := by
  refine ⟨h.path.symm, h.name.symm, fun name ↦ ?_⟩
  obtain ⟨ho, ho'⟩ | ⟨o, o', ho, ho', hreorders⟩ := rel_cases (h.objects name)
  · rw [ho, ho']
    exact .none
  · rw [ho, ho']
    exact .some hreorders.symm

theorem exists_lookupType? (h : m.Reorders m') {name key : String} {t : Ty}
    (hd : m.lookupType? key = some ⟨name, t⟩) :
    ∃ u, m'.lookupType? key = some ⟨name, u⟩ ∧ t.Reorders u := by
  obtain ⟨o, ho, hreorders⟩ := exists_of_rel (h.objects key) (lookupType?_eq_some.1 hd)
  cases hreorders with
  | type hreorders => exact ⟨_, lookupType?_eq_some.2 ho, hreorders⟩

end Module.Reorders

theorem Module.reorders_of_objects {m m' : Module} {objects objects' : List (String × Object)}
    (hpath : m.path = m'.path) (hname : m.name = m'.name) (hscope : m.scope = some ⟨objects⟩)
    (hscope' : m'.scope = some ⟨objects'⟩)
    (h : List.Forall₂ (fun entry entry' ↦ entry.1 = entry'.1 ∧ entry.2.Reorders entry'.2)
      objects objects') : m.Reorders m' := by
  refine ⟨hpath, hname, fun name ↦ ?_⟩
  rw [Module.lookup?, Module.lookup?, hscope, hscope', Option.bind_some, Option.bind_some,
    Scope.lookup?, Scope.lookup?, List.lookup_eq_findSome?, List.lookup_eq_findSome?]
  refine rel_findSome? (fun entry entry' hentry ↦ ?_) h
  rw [hentry.1]
  split
  · exact .some hentry.2
  · exact .none

/-- Two sets of modules in one order and with the same roots. -/
structure ModuleSet.Reorders (s s' : ModuleSet) : Prop where
  modules : List.Forall₂ Module.Reorders s.modules s'.modules
  roots : s.roots = s'.roots

namespace ModuleSet.Reorders

variable {s s' : ModuleSet} {t t' : Ty}

theorem symm (h : s.Reorders s') : s'.Reorders s :=
  ⟨List.Forall₂.flip (h.modules.imp fun _ _ ↦ Module.Reorders.symm), h.roots.symm⟩

theorem get? (h : s.Reorders s') (path : String) :
    Option.Rel Module.Reorders (s.get? path) (s'.get? path) := by
  rw [ModuleSet.get?, ModuleSet.get?, List.find?_eq_findSome?_guard, List.find?_eq_findSome?_guard]
  refine rel_findSome? (fun m m' hm ↦ ?_) h.modules
  simp only [Option.guard, hm.path]
  split
  · exact .some hm
  · exact .none

theorem rootModules (h : s.Reorders s') :
    List.Forall₂ Module.Reorders s.rootModules s'.rootModules := by
  rw [ModuleSet.rootModules, ModuleSet.rootModules, ← h.roots]
  refine List.rel_filterMap (R := Eq) ?_ (List.forall₂_same.2 fun _ _ ↦ rfl)
  rintro i _ rfl
  have hlength := h.modules.length_eq
  dsimp only
  by_cases hi : i < s.modules.length
  · rw [List.getElem?_eq_getElem hi, List.getElem?_eq_getElem (hlength ▸ hi)]
    exact .some (h.modules.get hi (hlength ▸ hi))
  · rw [List.getElem?_eq_none (by omega), List.getElem?_eq_none (by omega)]
    exact .none

theorem exists_lookupType? (h : s.Reorders s') {key : TypeName} {name : String} {t : Ty}
    (hd : s.lookupType? key = some ⟨name, t⟩) :
    ∃ u, s'.lookupType? key = some ⟨name, u⟩ ∧ t.Reorders u := by
  obtain ⟨key, ref⟩ := key
  cases ref with
  | none => cases hd
  | some ref =>
    rw [lookupType?_eq, Option.bind_eq_some_iff] at hd
    obtain ⟨m, hm, hd⟩ := hd
    obtain ⟨m', hm', hreorders⟩ := exists_of_rel (h.get? ref.path) hm
    obtain ⟨u, hu, htu⟩ := hreorders.exists_lookupType? hd
    exact ⟨u, by rw [lookupType?_eq, hm', Option.bind_some, hu], htu⟩

theorem exists_unfolds (h : s.Reorders s') {places : List (String × String)} {u : Ty}
    (hu : s.Unfolds places t u) (ht : t.Reorders t') :
    ∃ u', s'.Unfolds places t' u' ∧ u.Reorders u' := by
  induction hu generalizing t' with
  | here hne => exact ⟨t', .here (ht.ne_named hne), ht⟩
  | @named name ref decl places u hd _ ih =>
    obtain ⟨declName, type⟩ := decl
    obtain rfl := ht.eq_named
    obtain ⟨type', hd', htype⟩ := h.exists_lookupType? hd
    obtain ⟨u', hu', hreorders⟩ := ih htype
    exact ⟨u', .named hd' hu', hreorders⟩

theorem exists_underlying? (h : s.Reorders s') (ht : t.Reorders t') {u : Ty}
    (hu : s.underlying? t = some u) : ∃ u', s'.underlying? t' = some u' ∧ u.Reorders u' := by
  obtain ⟨places, hu⟩ := underlying?_eq_some_iff.1 hu
  obtain ⟨u', hu', hreorders⟩ := h.exists_unfolds hu ht
  exact ⟨u', underlying?_eq_some_iff.2 ⟨places, hu'⟩, hreorders⟩

theorem underlying? (h : s.Reorders s') (ht : t.Reorders t') :
    Option.Rel Ty.Reorders (s.underlying? t) (s'.underlying? t') := by
  refine rel_of_exists (fun u ↦ h.exists_underlying? ht) fun u' hu' ↦ ?_
  obtain ⟨u, hu, -⟩ := h.symm.exists_underlying? ht.symm hu'
  exact ⟨u, hu⟩

theorem kindOf (h : s.Reorders s') (ht : t.Reorders t') :
    Target.kindOf s t = Target.kindOf s' t' := by
  rw [Target.kindOf, Target.kindOf]
  obtain ⟨hu, hu'⟩ | ⟨u, u', hu, hu', hreorders⟩ := rel_cases (h.underlying? ht)
  · rw [hu, hu']
  · rw [hu, hu']
    cases hreorders <;> rfl

section Closure

variable {root root' : Ty}

/-- In a set that is ordered otherwise, embedding leads to the same interfaces up to their order. -/
theorem exists_reaches (h : s.Reorders s') (hroot : root.Reorders root') {t : Ty}
    (ht : Ty.Reaches s root t) : ∃ t', Ty.Reaches s' root' t' ∧ t.Reorders t' := by
  induction ht with
  | root => exact ⟨root', .root, hroot⟩
  | embedded _ hmem hu ih =>
    obtain ⟨_, hreaches, hreorders⟩ := ih
    obtain ⟨_, embedded', rfl, -, hall⟩ := hreorders.exists_interface
    obtain ⟨v, hv, htv⟩ := hall.exists_of_mem hmem
    obtain ⟨u', hu', hreorders'⟩ := h.exists_underlying? htv hu
    obtain ⟨_, _, rfl, -⟩ := hreorders'.exists_interface
    exact ⟨_, .embedded hreaches hv hu', hreorders'⟩

theorem asks_of_asks (h : s.Reorders s') (hroot : root.Reorders root') {m : Method Ty}
    (hm : Ty.Asks s root m) : Ty.Asks s' root' m := by
  cases hm with
  | own hreaches hm =>
    obtain ⟨_, hreaches', hreorders⟩ := h.exists_reaches hroot hreaches
    obtain ⟨_, _, rfl, hmethods, -⟩ := hreorders.exists_interface
    exact .own hreaches' (hmethods.subset hm)
  | error hreaches he =>
    obtain ⟨_, hreaches', hreorders⟩ := h.exists_reaches hroot hreaches
    obtain ⟨_, _, rfl, -, hall⟩ := hreorders.exists_interface
    obtain ⟨v, hv, hev⟩ := hall.exists_of_mem he
    exact .error hreaches' (hev.eq_named ▸ hv)

theorem asks_iff (h : s.Reorders s') (hroot : root.Reorders root') (m : Method Ty) :
    Ty.Asks s root m ↔ Ty.Asks s' root' m :=
  ⟨h.asks_of_asks hroot, h.symm.asks_of_asks hroot.symm⟩

end Closure

end ModuleSet.Reorders

structure Target.Reorders (target target' : Target) : Prop where
  name : target.decl.name = target'.decl.name
  type : target.decl.type.Reorders target'.decl.type
  module : target.module.Reorders target'.module
  kind : target.kind = target'.kind

theorem ModuleSet.Reorders.find? {s s' : ModuleSet} (h : s.Reorders s') (name : String) :
    Option.Rel Target.Reorders (Target.find? s name) (Target.find? s' name) := by
  rw [Target.find?, Target.find?]
  refine rel_findSome? (fun m m' hm ↦ ?_) h.rootModules
  refine rel_of_exists (fun target htarget ↦ ?_) fun target' htarget' ↦ ?_
  · obtain ⟨⟨declName, t⟩, hd, rfl⟩ := Option.map_eq_some_iff.1 htarget
    obtain ⟨u, hd', htu⟩ := hm.exists_lookupType? hd
    exact ⟨_, Option.map_eq_some_iff.2 ⟨_, hd', rfl⟩, rfl, htu, hm, h.kindOf htu⟩
  · obtain ⟨⟨declName, u⟩, hd', -⟩ := Option.map_eq_some_iff.1 htarget'
    obtain ⟨t, hd, -⟩ := hm.symm.exists_lookupType? hd'
    exact ⟨_, Option.map_eq_some_iff.2 ⟨_, hd, rfl⟩⟩

namespace Fake

variable {s s' : ModuleSet} {target target' : Target}

/-- Among all that a type asks for, no name goes with two signatures. -/
def IsUnambiguous (s : ModuleSet) (t : Ty) : Prop :=
  ∀ m m', Ty.Asks s t m → Ty.Asks s t m' → m.name = m'.name → m.sig = m'.sig

theorem isUnambiguous_of_find? {methods all : List (Method Ty)} {embedded : List Ty}
    (hall : (Ty.expansion s methods embedded).methods = all)
    (h : ∀ m ∈ all, all.find? (·.name = m.name) = some m) :
    IsUnambiguous s (.interface methods embedded) := by
  subst hall
  intro m m' hm hm' hname
  have hfirst := h m (Ty.mem_expansion_iff.2 hm)
  rw [hname, h m' (Ty.mem_expansion_iff.2 hm')] at hfirst
  rw [Option.some.inj hfirst]

theorem methodSet_expansion_eq (h : s.Reorders s') {methods methods' : List (Method Ty)}
    {embedded embedded' : List Ty}
    (ht : (Ty.interface methods embedded).Reorders (.interface methods' embedded'))
    (hone : IsUnambiguous s (.interface methods embedded)) :
    Ty.methodSet (Ty.expansion s methods embedded).methods =
      Ty.methodSet (Ty.expansion s' methods' embedded').methods := by
  refine Ty.methodSet_congr (Ty.find?_congr_of_mem_iff (fun m ↦ ?_) fun m hm m' hm' hname ↦ ?_)
  · rw [Ty.mem_expansion_iff, Ty.mem_expansion_iff, h.asks_iff ht]
  · have hsig := hone m m' (Ty.mem_expansion_iff.1 hm) (Ty.mem_expansion_iff.1 hm') hname
    obtain ⟨_, _⟩ := m
    obtain ⟨_, _⟩ := m'
    cases hname
    cases hsig
    rfl

theorem methodsFor?_eq (h : s.Reorders s') (htarget : target.Reorders target')
    (hone : ∀ t, s.underlying? target.decl.type = some t → IsUnambiguous s t) :
    (methodsFor? s target).map (·.1) = (methodsFor? s' target').map (·.1) := by
  rw [methodsFor?, methodsFor?, ← htarget.kind]
  obtain ⟨hu, hu'⟩ | ⟨t, t', hu, hu', hreorders⟩ := rel_cases (h.underlying? htarget.type)
  · rw [hu, hu']
    cases target.kind <;> rfl
  · rw [hu, hu']
    cases t with
    | interface methods embedded =>
      obtain ⟨methods', embedded', rfl, -⟩ := hreorders.exists_interface
      have hsame := methodSet_expansion_eq h hreorders (hone _ hu)
      cases target.kind with
      | interface => exact congrArg some hsame
      | _ => rfl
    | signature sig =>
      cases hreorders
      cases target.kind with
      | function => rw [htarget.name]
      | _ => rfl
    | _ =>
      cases hreorders
      cases target.kind <;> rfl

theorem ofMethods_congr (h : target.Reorders target') (options : FakeOptions)
    (registry : ImportRegistry) (methods : List (Method Ty)) :
    ofMethods options target registry methods = ofMethods options target' registry methods := by
  simp only [ofMethods, h.name, h.kind, h.module.path, h.module.name]

/-- The order of the elements of interfaces makes no difference to a stand-in, or to whether there
is one. -/
theorem outcome_generate_eq (h : s.Reorders s') (name : String) (options : FakeOptions)
    (hone : ∀ target t, Target.find? s (Text.trim name) = some target →
      s.underlying? target.decl.type = some t → IsUnambiguous s t) :
    (generate s name options).outcome = (generate s' name options).outcome := by
  rw [generate, generate, Target.locate, Target.locate]
  obtain ⟨htarget, htarget'⟩ | ⟨target, target', htarget, htarget', hreorders⟩ :=
    rel_cases (h.find? (Text.trim name))
  · rw [htarget, htarget']
  · have hmethods := methodsFor?_eq h hreorders fun t ht ↦ hone target t htarget ht
    rw [htarget, htarget']
    dsimp only
    cases hall : methodsFor? s target with
    | none =>
      rw [hall, Option.map_none, eq_comm, Option.map_eq_none_iff] at hmethods
      rw [hmethods, hreorders.name]
    | some found =>
      rw [hall, Option.map_some, eq_comm, Option.map_eq_some_iff] at hmethods
      obtain ⟨found', hall', hsame⟩ := hmethods
      rw [hall']
      dsimp only
      rw [hsame, hreorders.module.path, hreorders.module.name, ofMethods_congr hreorders]

section Sessions

def appName (name : String) : Ty := .named (some ⟨name, some ⟨"app", "app"⟩⟩)

def levelled (name path : String) : Method Ty :=
  ⟨name, ⟨[⟨none, .named (some ⟨"Level", some ⟨path, "log"⟩⟩)⟩], [], false⟩⟩

def argless (name : String) : Method Ty := ⟨name, ⟨[], [], false⟩⟩

def appModule (session store log : Ty) : Module :=
  ⟨"app", "app", some ⟨[("Session", .type ⟨"Session", session⟩), ("Store", .type ⟨"Store", store⟩),
    ("Log", .type ⟨"Log", log⟩)]⟩, []⟩

def session : Ty :=
  .interface [levelled "Save" "a/log", argless "Close"] [appName "Store",
    .named (some Ty.errorName)]

/-- Sessions embed stores, stores embed logs and sessions, and logs embed sessions. -/
def sessions : ModuleSet :=
  ⟨[appModule session (.interface [levelled "Load" "b/log"] [appName "Log", appName "Session"])
    (.interface [argless "Close"] [appName "Session",
      .interface [argless "Flush", argless "Sync"] []])], [0]⟩

def sessionsReversed : ModuleSet :=
  ⟨[appModule
    (.interface [argless "Close", levelled "Save" "a/log"] [.named (some Ty.errorName),
      appName "Store"])
    (.interface [levelled "Load" "b/log"] [appName "Session", appName "Log"])
    (.interface [argless "Close"] [.interface [argless "Sync", argless "Flush"] [],
      appName "Session"])], [0]⟩

theorem reorders_sessions : sessions.Reorders sessionsReversed where
  modules := by
    refine .cons (Module.reorders_of_objects rfl rfl rfl rfl ?_) .nil
    refine .cons ⟨rfl, .type (.interface (.swap ..) ?_)⟩
      (.cons ⟨rfl, .type (.interface (.refl _) ?_)⟩
        (.cons ⟨rfl, .type (.interface (.refl _) ?_)⟩ .nil))
    · exact Ty.reordersAll_of_perm (.swap ..)
    · exact Ty.reordersAll_of_perm (.swap ..)
    · exact .insert [_] (.refl _) (.insert [] (.interface (.swap ..) .nil) .nil)
  roots := rfl

theorem isUnambiguous_sessions : IsUnambiguous sessions session := by
  have hall : (Ty.expansion sessions [levelled "Save" "a/log", argless "Close"]
      [appName "Store", .named (some Ty.errorName)]).methods =
      [levelled "Save" "a/log", argless "Close", levelled "Load" "b/log", argless "Close",
        levelled "Save" "a/log",
        argless "Close", errorMethod, argless "Flush", argless "Sync"] := rfl
  refine isUnambiguous_of_find? hall fun m hm ↦ ?_
  simp only [List.mem_cons, List.not_mem_nil, or_false] at hm
  rcases hm with rfl | rfl | rfl | rfl | rfl | rfl | rfl | rfl | rfl <;> rfl

theorem outcome_generate_eq_sessions :
    ∃ fake, (generate sessions "Session" .default).outcome = .ok fake ∧
    (generate sessionsReversed "Session" .default).outcome = .ok fake := by
  have hmade : (generate sessions "Session" .default).outcome.toOption.map (·.targetName) =
      some "Session" := by decide +kernel
  obtain ⟨fake, hout, -⟩ := exists_of_outcome hmade
  have htype : (Target.find? sessions (Text.trim "Session")).map (·.decl.type) = some session := rfl
  have heq := outcome_generate_eq reorders_sessions "Session" .default fun target t htarget ht ↦ by
    rw [htarget, Option.map_some] at htype
    rw [Option.some.inj htype] at ht
    cases ht
    exact isUnambiguous_sessions
  exact ⟨fake, hout, heq ▸ hout⟩

end Sessions

end Fake

end Understudy
