import Understudy.Proofs.Embedding
import Understudy.Proofs.Generation
import Understudy.Proofs.MethodOrder
import Understudy.Proofs.OrderlyImports
import Understudy.Proofs.ResolvedNames

namespace Understudy

namespace Ty

theorem mem_names_of_mem_leaves {t : Ty} {name : Option TypeName} (h : .named name ∈ t.leaves) :
    name ∈ t.names := by
  cases t with
  | pointer elem | slice elem | array length elem | chan dir elem =>
    rw [names]
    exact mem_names_of_mem_leaves h
  | map key elem =>
    rw [names]
    rcases List.mem_append.1 h with h | h
    · exact List.mem_append_left _ (mem_names_of_mem_leaves h)
    · exact List.mem_append_right _ (mem_names_of_mem_leaves h)
  | named other =>
    cases List.mem_singleton.1 h
    exact List.mem_singleton_self _
  | basic | interface | signature | struct => cases List.mem_singleton.1 h
termination_by structural t

theorem namesOfTypes_eq (ts : List Ty) : namesOfTypes ts = ts.flatMap names := by
  induction ts with
  | nil => rfl
  | cons t rest ih => rw [namesOfTypes, List.flatMap_cons, ih]

theorem namesOfVars_eq (vars : List (Var Ty)) :
    namesOfVars vars = vars.flatMap fun v ↦ v.type.names := by
  induction vars with
  | nil => rfl
  | cons v rest ih => rw [namesOfVars, List.flatMap_cons, ih]

theorem namesOfMethods_eq (methods : List (Method Ty)) :
    namesOfMethods methods = methods.flatMap fun m ↦ namesOfSignature m.sig := by
  induction methods with
  | nil => rfl
  | cons m rest ih => rw [namesOfMethods, List.flatMap_cons, ih]

end Ty

namespace ModuleSet

variable {s : ModuleSet}

/-- Some object of the set has this name in it, at any depth. -/
def Mentions (s : ModuleSet) (name : Option TypeName) : Prop :=
  ∃ m ∈ s.modules, ∃ scope, m.scope = some scope ∧ ∃ entry ∈ scope.objects, name ∈ entry.2.names

/-- Import lists keep all paths as they are, those of the modules and those in the names that these
mention. -/
structure IsCanonical (s : ModuleSet) : Prop where
  modules : ∀ m ∈ s.modules, ModulePath.IsCanonical m.path
  refs : ∀ name, s.Mentions (some name) → ∀ ref, name.module = some ref →
      ModulePath.IsCanonical ref.path

instance (path : String) : Decidable (ModulePath.IsCanonical path) :=
  decidable_of_iff (Text.trim path = path ∧ ModulePath.unvendor path = path)
    ⟨fun h ↦ ⟨h.1, h.2⟩, fun h ↦ ⟨h.1, h.2⟩⟩

def mentioned (s : ModuleSet) : List (Option TypeName) :=
  (s.modules.filterMap (·.scope)).flatMap fun scope ↦ scope.objects.flatMap (·.2.names)

theorem mentions_iff {name : Option TypeName} : s.Mentions name ↔ name ∈ s.mentioned := by
  simp only [Mentions, mentioned, List.mem_flatMap, List.mem_filterMap]
  constructor
  · rintro ⟨m, hm, scope, hscope, entry, hentry, hname⟩
    exact ⟨scope, ⟨m, hm, hscope⟩, entry, hentry, hname⟩
  · rintro ⟨scope, ⟨m, hm, hscope⟩, entry, hentry, hname⟩
    exact ⟨m, hm, scope, hscope, entry, hentry, hname⟩

def paths (s : ModuleSet) : List String :=
  s.modules.map (·.path) ++ s.mentioned.filterMap fun name ↦ (name.bind (·.module)).map (·.path)

theorem isCanonical_of_paths (h : ∀ path ∈ s.paths, ModulePath.IsCanonical path) :
    s.IsCanonical where
  modules m hm := h m.path (List.mem_append_left _ (List.mem_map_of_mem hm))
  refs name hname ref href := by
    refine h ref.path
      (List.mem_append_right _ (List.mem_filterMap.2 ⟨some name, mentions_iff.1 hname, ?_⟩))
    rw [Option.bind_some, href, Option.map_some]

end ModuleSet

/-- What is collected from a type, where an interface has all that its methods and the types that it
embeds have. -/
structure Ty.Collects {α : Type} (inType : Ty → List α) (inSignature : Signature Ty → List α) :
    Prop where
  method : ∀ {methods embedded m}, m ∈ methods →
      inSignature m.sig ⊆ inType (.interface methods embedded)
  embedded : ∀ {methods embedded t}, t ∈ embedded → inType t ⊆ inType (.interface methods embedded)
  signature : ∀ sig, inType (.signature sig) = inSignature sig

theorem Ty.collects_names : Collects names namesOfSignature where
  method hm := by
    rw [names, namesOfMethods_eq]
    exact fun n hn ↦ List.mem_append_left _ (List.mem_flatMap.2 ⟨_, hm, hn⟩)
  embedded ht := by
    rw [names, namesOfTypes_eq]
    exact fun n hn ↦ List.mem_append_right _ (List.mem_flatMap.2 ⟨_, ht, hn⟩)
  signature _ := rfl

namespace ModuleSet

section Held

variable {s : ModuleSet} {α : Type} {inType : Ty → List α} {inSignature : Signature Ty → List α}
    {P : α → Prop}

/-- All that is collected from the types that the set declares has the property. -/
def Holds (s : ModuleSet) (inType : Ty → List α) (P : α → Prop) : Prop :=
  ∀ m ∈ s.modules, ∀ scope, m.scope = some scope →
    ∀ entry ∈ scope.objects, ∀ decl, entry.2 = .type decl →
    ∀ a ∈ inType decl.type, P a

theorem holds_mentions (s : ModuleSet) : s.Holds Ty.names s.Mentions := by
  intro m hm scope hscope entry hentry decl hd n hn
  exact ⟨m, hm, scope, hscope, entry, hentry, hd ▸ hn⟩

theorem Holds.of_underlying? (hs : s.Holds inType P) {t u : Ty} (h : s.underlying? t = some u)
    (ht : ∀ a ∈ inType t, P a) : ∀ a ∈ inType u, P a := by
  rcases declared_of_underlying? h with rfl | ⟨m, hm, scope, hscope, entry, hentry, decl, hd, rfl⟩
  · exact ht
  · exact hs m hm scope hscope entry hentry decl hd

variable (hc : Ty.Collects inType inSignature) {root : Ty}

include hc

theorem Holds.of_reaches (hs : s.Holds inType P) {t : Ty} (h : Ty.Reaches s root t)
    (hroot : ∀ a ∈ inType root, P a) : ∀ a ∈ inType t, P a := by
  induction h with
  | root => exact hroot
  | embedded _ ht hu ih => exact hs.of_underlying? hu fun a ha ↦ ih a (hc.embedded ht ha)

theorem Holds.of_asks (hs : s.Holds inType P) {m : Method Ty} (h : Ty.Asks s root m)
    (hroot : ∀ a ∈ inType root, P a) : m = errorMethod ∨ ∀ a ∈ inSignature m.sig, P a := by
  cases h with
  | own hreaches hm => exact .inr fun a ha ↦ hs.of_reaches hc hreaches hroot a (hc.method hm ha)
  | error => exact .inl rfl

end Held

end ModuleSet

theorem ImportRegistry.registerType_flatMap (r : ImportRegistry) (types : List Ty) :
    types.foldl registerType r = (types.flatMap Ty.leaves).foldl registerLeaf r :=
  List.foldl_flatMap.symm

namespace Fake

open ModulePath (IsCanonical)

variable {s : ModuleSet} {name : String} {options : FakeOptions} {fake : Fake} {target : Target}

theorem exists_of_find? (h : Target.find? s name = some target) : target.module ∈ s.modules ∧
    ∃ scope, target.module.scope = some scope ∧ ∃ entry ∈ scope.objects, entry.2 =
      .type target.decl := by
  obtain ⟨m, hm, htarget⟩ := List.exists_of_findSome?_eq_some h
  obtain ⟨decl, hd, rfl⟩ := Option.map_eq_some_iff.1 htarget
  obtain ⟨i, -, hi⟩ := List.mem_filterMap.1 hm
  have hmem : m ∈ s.modules := List.mem_of_getElem? hi
  rw [Module.lookupType?_eq_some, Module.lookup?, Option.bind_eq_some_iff] at hd
  obtain ⟨scope, hscope, hd⟩ := hd
  exact ⟨hmem, scope, hscope, _, Scope.mem_of_lookup? hd, rfl⟩

/-- What holds of all that is declared holds of each method of a stand-in but that of the type of
failures. -/
theorem holds_of_methodsFor? {α : Type} {inType : Ty → List α} {inSignature : Signature Ty → List α}
    {P : α → Prop} (hc : Ty.Collects inType inSignature) (hs : s.Holds inType P)
    {methods : List (Method Ty)} {problems : List Diagnostic}
    (h : Target.find? s name = some target)
    (hmethods : methodsFor? s target = some (methods, problems)) :
    ∀ m ∈ methods, m = errorMethod ∨ ∀ a ∈ inSignature m.sig, P a := by
  have htarget : ∀ a ∈ inType target.decl.type, P a := by
    obtain ⟨hmem, scope, hscope, entry, hentry, hd⟩ := exists_of_find? h
    exact hs _ hmem scope hscope entry hentry _ hd
  unfold methodsFor? at hmethods
  split at hmethods
  · rename_i own embedded _ hu
    cases hmethods
    intro m hm
    exact hs.of_asks hc (Ty.mem_expansion_iff.1 (Ty.mem_of_mem_methodSet hm))
      (hs.of_underlying? hu htarget)
  · rename_i sig _ hu
    cases hmethods
    intro m hm
    rw [List.mem_singleton.1 hm, ← hc.signature]
    exact .inr (hs.of_underlying? hu htarget)
  · cases hmethods

theorem mentions_of_methodsFor? {methods : List (Method Ty)} {problems : List Diagnostic}
    (h : Target.find? s name = some target)
    (hmethods : methodsFor? s target = some (methods, problems)) :
    ∀ m ∈ methods, ∀ n ∈ Ty.namesOfSignature m.sig, s.Mentions n := by
  intro m hm
  rcases holds_of_methodsFor? Ty.collects_names s.holds_mentions h hmethods m hm with rfl | hall
  · exact List.forall_mem_nil _
  · exact hall

theorem mentions_of_writtenTypes {methods : List (Method Ty)}
    (h : ∀ m ∈ methods, ∀ n ∈ Ty.namesOfSignature m.sig, s.Mentions n) {t : Ty}
    (ht : t ∈ writtenTypes methods) : ∀ n ∈ t.names, s.Mentions n := by
  obtain ⟨m, hm, ht⟩ := List.mem_flatMap.1 ht
  obtain ⟨v, hv, rfl⟩ := List.mem_map.1 ht
  intro n hn
  apply h m hm
  rw [Ty.namesOfSignature, Ty.namesOfVars_eq, Ty.namesOfVars_eq, ← List.flatMap_append]
  exact List.mem_flatMap.2 ⟨v, hv, hn⟩

theorem exists_mentions_of_leaf {methods : List (Method Ty)}
    (h : ∀ m ∈ methods, ∀ n ∈ Ty.namesOfSignature m.sig, s.Mentions n) {t : Ty}
    (ht : t ∈ (writtenTypes methods).flatMap Ty.leaves) {ref : ModuleRef}
    (href : t.module? = some ref) : ∃ n, s.Mentions (some n) ∧ n.module = some ref := by
  obtain ⟨u, hu, ht⟩ := List.mem_flatMap.1 ht
  unfold Ty.module? at href
  split at href
  · exact ⟨_, mentions_of_writtenTypes h hu _ (Ty.mem_names_of_mem_leaves ht), href⟩
  · cases href

/-- Each type in a stand-in is written with the qualifiers of its own modules, and these are not
mixed up. -/
theorem qualifiers_generate (hs : s.IsCanonical)
    (h : (generate s name options).outcome = .ok fake) :
    ∃ target methods problems, Target.find? s (Text.trim name) = some target ∧
      methodsFor? s target = some (methods, problems) ∧
      List.Forall₂ (FakeMethod.Shows (Ty.IsText
        (fake.imports.Spells (ModulePath.registered options.destination)))) methods fake.methods ∧
      (∀ i ∈ fake.imports.entries, i.path ≠ ModulePath.registered options.destination) ∧
      ∀ i ∈ fake.imports.entries, ∀ j ∈ fake.imports.entries,
        (i.qualifier = j.qualifier → i = j) ∧ (i.path = j.path → i = j) := by
  obtain ⟨target, methods, problems, htarget, hmethods, rfl⟩ := exists_of_generate h
  have hleaves : ∀ t ∈ (writtenTypes methods).flatMap Ty.leaves, ∀ m, t.module? = some m →
      IsCanonical m.path := by
    intro t ht m hm
    obtain ⟨n, hmentions, hn⟩ :=
      exists_mentions_of_leaf (mentions_of_methodsFor? htarget hmethods) ht hm
    exact hs.refs n hmentions m hn
  have hstart :=
    (ImportRegistry.isOrderly_forDestination options.destination).register target.module.name
    (hs.modules _ (exists_of_find? htarget).1)
  generalize ModulePath.registered options.destination = destination at hstart ⊢
  generalize (ImportRegistry.forDestination options.destination).register _ _ = start at hstart ⊢
  have horderly : (ofMethods options target start methods).imports.IsOrderly destination := by
    refine imports_ofMethods (fun r path h ↦ h.markReferenced path) ?_
    rw [ImportRegistry.registerType_flatMap]
    exact hstart.foldl_registerLeaf hleaves
  refine ⟨target, methods, problems, htarget, hmethods, ?_, ?_, fun i hi j hj ↦ ?_⟩
  · rw [methods_ofMethods, List.forall₂_map_right_iff, List.forall₂_same]
    refine fun method hmethod ↦ shows_renderMethod fun v hv t ht ↦ Ty.isText_render fun n hn ↦ ?_
    have hwritten : v.type ∈ writtenTypes methods :=
      List.mem_flatMap.2 ⟨method, hmethod, List.mem_map_of_mem hv⟩
    have hmem : .named (some n) ∈ (writtenTypes methods).flatMap Ty.leaves :=
      List.mem_flatMap.2 ⟨v.type, hwritten, ht ▸ hn⟩
    refine horderly.spells (hleaves _ hmem) fun m hm hne hd ↦ ?_
    refine imports_ofMethods (P := fun r ↦ ∃ i, r.find? m.path = some i) (fun r path ↦ ?_) ?_
    · rintro ⟨i, hi⟩
      exact ImportRegistry.exists_find?_markReferenced hi path
    · rw [ImportRegistry.registerType_flatMap]
      exact hstart.exists_find?_of_mem hleaves hmem hm hne hd
  · exact fun i hi ↦ (horderly.path_ne i hi).2
  · exact ⟨fun h ↦ List.inj_on_of_nodup_map horderly.qualifiers hi hj h,
      fun h ↦ List.inj_on_of_nodup_map horderly.paths hi hj h⟩

section Logs

def logRef (path : String) : ModuleRef := ⟨path, "log"⟩

def levelOf (path : String) : Ty := .named (some ⟨"Level", some (logRef path)⟩)

/-- The levels of two modules of one name come with a setting of the module that declares the
handler. Those of the second one are collected. -/
def handlerSignature : Signature Ty :=
  ⟨[⟨none, levelOf "a/log"⟩, ⟨none, .slice (.pointer (levelOf "b/log"))⟩],
    [⟨none, .named (some ⟨"Setting", some ⟨"app", "app"⟩⟩)⟩, ⟨none, .named (some Ty.errorName)⟩],
    true⟩

def handlers : ModuleSet :=
  ⟨[⟨"app", "app", some ⟨[("Handler", .type ⟨"Handler", .signature handlerSignature⟩)]⟩, []⟩], [0]⟩

theorem isCanonical_handlers : handlers.IsCanonical :=
  ModuleSet.isCanonical_of_paths (by decide +kernel)

def handlerMethods : List FakeMethod :=
  [⟨"Handler", [⟨none, "log.Level", false⟩, ⟨none, "...*log1.Level", true⟩],
    [⟨none, "Setting", false⟩, ⟨none, "error", false⟩]⟩]

theorem qualifiers_generate_handlers :
    ∃ fake, (generate handlers "Handler" ⟨" app", ""⟩).outcome = .ok fake ∧
      fake.methods = handlerMethods ∧
      List.Forall₂ (FakeMethod.Shows (Ty.IsText (fake.imports.Spells "app")))
        [⟨"Handler", handlerSignature⟩] handlerMethods ∧
      (∀ i ∈ fake.imports.entries, i.path ≠ "app") ∧
      ∀ i ∈ fake.imports.entries, ∀ j ∈ fake.imports.entries,
        (i.qualifier = j.qualifier → i = j) ∧ (i.path = j.path → i = j) := by
  have hmade : (generate handlers "Handler" ⟨" app", ""⟩).outcome.toOption.map (·.methods) =
      some handlerMethods := by
    decide +kernel
  have hdestination : ModulePath.registered " app" = "app" := by decide +kernel
  have hfound : (Target.find? handlers (Text.trim "Handler")).bind (methodsFor? handlers) =
      some ([⟨"Handler", handlerSignature⟩], []) := rfl
  obtain ⟨fake, hout, htexts⟩ := exists_of_outcome hmade
  obtain ⟨target, methods, problems, htarget, hmethods, hshown, hpath, hone⟩ :=
    qualifiers_generate isCanonical_handlers hout
  rw [htarget, Option.bind_some, hmethods] at hfound
  cases hfound
  rw [hdestination, htexts] at hshown
  rw [hdestination] at hpath
  exact ⟨fake, hout, htexts, hshown, hpath, hone⟩

end Logs

end Fake

end Understudy
