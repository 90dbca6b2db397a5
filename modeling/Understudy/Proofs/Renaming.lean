import Understudy.Proofs.ExpansionAgreement
import Understudy.Proofs.Generation
import Understudy.Proofs.MethodOrder

namespace Understudy

namespace Ty

variable {s : ModuleSet} {methods : List (Method Ty)} {embedded embedded' : List Ty}

/-- What is embedded in one interface is embedded in another, as far as it asks for methods. -/
structure Covers (s : ModuleSet) (embedded embedded' : List Ty) : Prop where
  interface : ∀ t ∈ embedded, ∀ methods us, s.underlying? t = some (.interface methods us) →
    ∃ t' ∈ embedded', s.underlying? t' = some (.interface methods us)
  error : .named (some errorName) ∈ embedded → .named (some errorName) ∈ embedded'

theorem Covers.asks (h : Covers s embedded embedded') {m : Method Ty}
    (hm : Asks s (.interface methods embedded) m) : Asks s (.interface methods embedded') m := by
  rw [asks_interface_iff] at hm ⊢
  rcases hm with hm | ⟨he, rfl⟩ | ⟨t, ht, methods₁, embedded₁, hu, hm⟩
  · exact .inl hm
  · exact .inr (.inl ⟨h.error he, rfl⟩)
  · obtain ⟨t', ht', hu'⟩ := h.interface t ht _ _ hu
    exact .inr (.inr ⟨t', ht', methods₁, embedded₁, hu', hm⟩)

theorem covers_replace {t t' : Ty} (hu : s.underlying? t = s.underlying? t')
    (ht : t ≠ .named (some errorName)) (before after : List Ty) :
    Covers s (before ++ t :: after) (before ++ t' :: after) := by
  constructor
  · intro u hmem methods us hu'
    rcases List.mem_append.1 hmem with hmem | hmem
    · exact ⟨u, List.mem_append_left _ hmem, hu'⟩
    · rcases List.mem_cons.1 hmem with rfl | hmem
      · exact ⟨t', by simp, hu ▸ hu'⟩
      · exact ⟨u, by simp [hmem], hu'⟩
  · intro hmem
    simp only [List.mem_append, List.mem_cons] at hmem ⊢
    exact hmem.imp_right fun h ↦ .inr (h.resolve_left ht.symm)

theorem covers_remove {t : Ty} (hu : s.underlying? t = none) (ht : t ≠ .named (some errorName))
    (before after : List Ty) : Covers s (before ++ t :: after) (before ++ after) := by
  constructor
  · intro u hmem methods us hu'
    refine ⟨u, ?_, hu'⟩
    simp only [List.mem_append, List.mem_cons] at hmem ⊢
    refine hmem.imp_right fun h ↦ h.resolve_left ?_
    rintro rfl
    rw [hu] at hu'
    cases hu'
  · intro hmem
    simp only [List.mem_append, List.mem_cons] at hmem ⊢
    exact hmem.imp_right fun h ↦ h.resolve_left ht.symm

theorem covers_of_subset (h : embedded ⊆ embedded') : Covers s embedded embedded' :=
  ⟨fun t ht _ _ hu ↦ ⟨t, h ht, hu⟩, fun he ↦ h he⟩

theorem asks_named {name : TypeName}
    (hu : s.underlying? (.named (some name)) = some (.interface methods embedded)) (m : Method Ty) :
    Asks s (.interface [] [.named (some name)]) m ↔ Asks s (.interface methods embedded) m := by
  have hne : errorName ≠ name := by
    rintro rfl
    rw [ModuleSet.underlying?_errorName] at hu
    cases hu
  rw [asks_interface_iff]
  simp [hu, hne]

end Ty

namespace Expansion

/-- Two expansions come to the same methods. Where a name goes with several methods, the same one
comes in first if nothing leads back to any of some names. -/
structure SameMethods (x y : Expansion) (straight : Prop) : Prop where
  mem_iff : ∀ m, m ∈ x.methods ↔ m ∈ y.methods
  names : (Ty.methodSet x.methods).map (·.name) = (Ty.methodSet y.methods).map (·.name)
  methodSet : ((∀ m ∈ x.methods, ∀ m' ∈ x.methods, m.name = m'.name → m = m') ∨ straight) →
    Ty.methodSet x.methods = Ty.methodSet y.methods

theorem SameMethods.of_agrees {x y : Expansion} {names : List TypeName} {straight : Prop}
    (hmem : ∀ m, m ∈ x.methods ↔ m ∈ y.methods) (h : straight → x.Agrees names y) :
    x.SameMethods y straight where
  mem_iff := hmem
  names := Ty.names_methodSet_congr hmem
  methodSet := by
    rintro (hone | hstraight)
    · exact Ty.methodSet_congr (Ty.find?_congr_of_mem_iff hmem hone)
    · exact Ty.methodSet_congr (h hstraight).first

end Expansion

namespace Ty

open Expansion (Agrees left)

variable {s : ModuleSet}

/-- All that an expansion of enough depth has dealt with is settled. -/
theorem settles_embedAll {n : Nat} (methods : List (Method Ty)) (ts : List Ty)
    (hn : (s.embeddedNames ++ embeddedNamesAll ts).length ≤ n) :
    (∀ name ∈ (embedAll s (expand s n) (Expansion.start.add methods) ts).seen,
      (embedAll s (expand s n) (Expansion.start.add methods) ts).Settles s name) ∧
    (embedAll s (expand s n) (Expansion.start.add methods) ts).HasAll ts := by
  have hs := List.subset_append_left s.embeddedNames (embeddedNamesAll ts)
  obtain ⟨hcompletes, hhas⟩ :=
    completes_embedAll (x := Expansion.start.add methods) hs (follows_expand hs n)
    (List.subset_append_right _ _) (Nat.le_trans List.countP_le_length hn)
  exact ⟨fun name h ↦ (hcompletes.settles name h).resolve_left List.not_mem_nil, hhas⟩

theorem embeddedNamesAll_append (ts us : List Ty) :
    embeddedNamesAll (ts ++ us) = embeddedNamesAll ts ++ embeddedNamesAll us := by
  induction ts with
  | nil => rfl
  | cons t rest ih =>
    rw [List.cons_append, embeddedNamesAll, embeddedNamesAll, ih, List.append_assoc]

theorem agrees_embed_synonyms {a b : TypeName} {behind : Option Ty} (h : Synonyms s [a, b] behind)
    (havoids : ∀ u ∈ behind, Avoids s [a, b] u) {n : Nat} {x : Expansion}
    (hx : ∀ name ∈ x.seen, x.Settles s name) :
    (embed s (expand s n) x (.named (some a))).Agrees [a, b]
    (embed s (expand s n) x (.named (some b))) := by
  have ha : a ∈ [a, b] := by simp
  have hb : b ∈ [a, b] := by simp
  have hagain {name : TypeName} (hname : name ∈ [a, b]) (hseen : name ∈ x.seen) (u : Ty)
      (hu : u ∈ behind) : x.Has u :=
    (hx name hseen).has u ((h.underlying name hname).trans hu)
  by_cases hold : a ∈ x.seen ∨ b ∈ x.seen
  · have hhas : ∀ u ∈ behind, x.Has u := hold.elim (hagain ha) (hagain hb)
    exact (agrees_embed_synonym h ha hhas).symm.trans (agrees_embed_synonym h hb hhas)
  · obtain ⟨hfresh, hfresh'⟩ := not_or.1 hold
    have hmark : (x.mark a).Agrees [a, b] (x.mark b) :=
      (Expansion.agrees_mark ha).symm.trans (Expansion.agrees_mark hb)
    rw [embed, embed, if_neg fun hseen ↦ hfresh (List.contains_iff_mem.1 hseen),
      if_neg fun hseen ↦ hfresh' (List.contains_iff_mem.1 hseen)]
    dsimp only
    rw [if_neg (h.ne_errorName a ha), if_neg (h.ne_errorName b hb), h.underlying a ha,
      h.underlying b hb]
    split
    · exact agrees_expand h (.inl (havoids _ rfl)) hmark
    · exact hmark.refuse _ _

/-- Embedding one synonym or the other makes no difference to what comes in first, if their type
does not lead back to them. -/
theorem agrees_expansion_synonyms {a b : TypeName} {behind : Option Ty}
    (h : Synonyms s [a, b] behind) (havoids : ∀ u ∈ behind, Avoids s [a, b] u)
    (methods : List (Method Ty)) (before after : List Ty) :
    (expansion s methods (before ++ .named (some a) :: after)).Agrees [a, b]
      (expansion s methods (before ++ .named (some b) :: after)) := by
  have hlength : (s.embeddedNames ++ embeddedNamesAll (before ++ .named (some a) :: after)).length =
      (s.embeddedNames ++ embeddedNamesAll (before ++ .named (some b) :: after)).length := by
    simp [embeddedNamesAll_append, embeddedNamesAll, embeddedNames]
  rw [expansion, expansion, ← hlength]
  generalize hn :
    (s.embeddedNames ++ embeddedNamesAll (before ++ .named (some a) :: after)).length = n
  rw [expand, expand, embedAll_append, embedAll_append, embedAll, embedAll]
  have hbound : s.embeddedNames.length + (embeddedNamesAll before).length + 1 ≤ n := by
    simp only [← hn, embeddedNamesAll_append, embeddedNamesAll, embeddedNames, List.length_append,
      List.length_cons]
    omega
  have hsettled : ∀ name ∈ (embedAll s (expand s n) (Expansion.start.add methods) before).seen,
      (embedAll s (expand s n) (Expansion.start.add methods) before).Settles s name := by
    refine (settles_embedAll methods before ?_).1
    rw [List.length_append]
    omega
  -- Each of the two is settled once it has been embedded, so their type is there for all that comes
  -- after.
  have hhas {name : TypeName} (hname : name ∈ [a, b]) (u : Ty) (hu : u ∈ behind) :
      (embed s (expand s n) (embedAll s (expand s n) (Expansion.start.add methods) before)
        (.named (some name))).Has u := by
    have hall := settles_embedAll (s := s) (n := n) methods (before ++ [.named (some name)]) (by
      simp only [embeddedNamesAll_append, embeddedNamesAll, embeddedNames, List.length_append,
        List.length_cons, List.length_nil]
      omega)
    rw [embedAll_append, embedAll, embedAll] at hall
    have hseen := Expansion.hasAll_iff.1 hall.2 (.named (some name)) (by simp)
    exact (hall.1 name hseen).has u ((h.underlying name hname).trans hu)
  have hprepared {x y : Expansion} (hboth : ∀ u ∈ behind, x.Has u ∧ y.Has u) :
      Prepared s [a, b] behind (.interface [] after) x y := .inr hboth
  refine agrees_embedAll h (fun _ _ _ _ ↦ agrees_expand h) (hprepared fun u hu ↦ ?_) (fun _ h ↦ h)
    (agrees_embed_synonyms h havoids hsettled)
  exact ⟨hhas (by simp) u hu, hhas (by simp) u hu⟩

theorem agrees_expansion_named {name : TypeName} {methods : List (Method Ty)} {embedded : List Ty}
    (hu : s.underlying? (.named (some name)) = some (.interface methods embedded))
    (havoids : Avoids s [name] (.interface methods embedded)) :
    (expansion s methods embedded).Agrees [name] (expansion s [] [.named (some name)]) := by
  have hne : name ≠ errorName := by
    rintro rfl
    rw [ModuleSet.underlying?_errorName] at hu
    cases hu
  have hsynonyms : Synonyms s [name] (some (.interface methods embedded)) := by
    constructor
    · intro other hother
      rw [List.mem_singleton.1 hother, hu]
    · intro other hother
      rwa [List.mem_singleton.1 hother]
  have hnamed : expansion s [] [.named (some name)] =
      expand s (s.embeddedNames.length + 1) methods embedded
        ((Expansion.start.add []).mark name) := by
    rw [expansion, List.length_append]
    change embed s _ (Expansion.start.add []) (.named (some name)) = _
    rw [embed, if_neg (by simp [Expansion.start, Expansion.add])]
    dsimp only
    rw [if_neg hne, hu]
    rfl
  have hdepth : expansion s methods embedded =
      expand s (s.embeddedNames.length + 1) methods embedded .start := by
    rw [expansion]
    have hleft : left s.embeddedNames .start ≤ s.embeddedNames.length := List.countP_le_length
    refine expand_congr (List.Subset.refl _) (embeddedNames_subset_of_ne hu fun h ↦ by cases h) ?_
      (by omega)
    rw [List.length_append]
    omega
  rw [hnamed, hdepth]
  exact agrees_expand hsynonyms (.inl havoids) (Expansion.agrees_mark (List.mem_singleton_self _))

theorem sameMethods_of_renames {a b : TypeName} (h : Relation.TransGen s.Renames a b)
    (hb : b ≠ errorName) (methods : List (Method Ty)) (before after : List Ty) :
    (expansion s methods (before ++ .named (some a) :: after)).SameMethods
      (expansion s methods (before ++ .named (some b) :: after))
      (∀ u ∈ s.underlying? (.named (some b)), Avoids s [a, b] u) := by
  have hu := ModuleSet.underlying?_of_renames h
  have ha := ModuleSet.ne_errorName_of_renames h
  have hsynonyms : Synonyms s [a, b] (s.underlying? (.named (some b))) := by
    constructor
    · simp [hu]
    · simp [ha, hb]
  refine .of_agrees (fun m ↦ ?_) fun havoids ↦
    agrees_expansion_synonyms hsynonyms havoids methods before after
  rw [mem_expansion_iff, mem_expansion_iff]
  constructor
  · exact (covers_replace hu (by simpa using ha) before after).asks
  · exact (covers_replace hu.symm (by simpa using hb) before after).asks

theorem expansion_of_renames_error {a : TypeName} (h : Relation.TransGen s.Renames a errorName)
    (methods : List (Method Ty)) (before after : List Ty) :
    (∀ m, m ∈ (expansion s methods (before ++ .named (some a) :: after)).methods ↔
      m ∈ (expansion s methods (before ++ after)).methods) ∧
    Expansion.refusal
      (.named (some a)) ∈ (expansion s methods (before ++ .named (some a) :: after)).problems := by
  have hu := (ModuleSet.underlying?_of_renames h).trans ModuleSet.underlying?_errorName
  have ha := ModuleSet.ne_errorName_of_renames h
  constructor
  · intro m
    rw [mem_expansion_iff, mem_expansion_iff]
    constructor
    · exact (covers_remove hu (by simpa using ha) before after).asks
    · refine (covers_of_subset fun t ht ↦ ?_).asks
      simp only [List.mem_append, List.mem_cons] at ht ⊢
      exact ht.imp_right .inr
  · have hseen :=
      Expansion.hasAll_iff.1 (completes_expansion s methods (before ++ .named (some a) :: after)).2
      (.named (some a)) (by simp)
    refine (settles_expansion hseen).refused ha fun methods embedded hu' ↦ ?_
    rw [hu] at hu'
    cases hu'

theorem exists_of_problems_eq_nil {name : TypeName} (hne : name ≠ errorName)
    (h : (expansion s [] [.named (some name)]).problems = []) :
    ∃ methods embedded, s.underlying? (.named (some name)) =
      some (.interface methods embedded) := by
  by_contra hu
  have hseen :=
    Expansion.hasAll_iff.1 (completes_expansion s [] [.named (some name)]).2
      (.named (some name)) (by simp)
  have hrefused :=
    (settles_expansion hseen).refused hne fun methods embedded hu' ↦ hu ⟨methods, embedded, hu'⟩
  rw [h] at hrefused
  exact List.not_mem_nil hrefused

end Ty

namespace Ty

/-- What embedding `a` adds is what embedding `b` adds. Only if that is the type of failures, it is
nothing. -/
structure EmbedsAs (s : ModuleSet) (a b : TypeName) (methods : List (Method Ty))
    (before after : List Ty) : Prop where
  same : b ≠ errorName → (expansion s methods (before ++ .named (some a) :: after)).SameMethods
    (expansion s methods (before ++ .named (some b) :: after))
    (∀ u ∈ s.underlying? (.named (some b)), Avoids s [a, b] u)
  missing : b = errorName →
      errorMethod ∈ (expansion s methods (before ++ .named (some b) :: after)).methods ∧
    ∀ m, m ∈ (expansion s methods (before ++ .named (some a) :: after)).methods ↔
      m ∈ (expansion s methods (before ++ after)).methods
  reported : b = errorName → Expansion.refusal (.named (some a)) ∈
    (expansion s methods (before ++ .named (some a) :: after)).problems

theorem embedsAs_of_renames {s : ModuleSet} {a b : TypeName} (h : Relation.TransGen s.Renames a b)
    (methods : List (Method Ty)) (before after : List Ty) :
    EmbedsAs s a b methods before after where
  same hb := sameMethods_of_renames h hb methods before after
  missing := by
    rintro rfl
    exact ⟨mem_expansion_iff.2 (.error .root (by simp)),
      (expansion_of_renames_error h methods before after).1⟩
  reported := by
    rintro rfl
    exact (expansion_of_renames_error h methods before after).2

end Ty

namespace Fake

open Ty (expansion errorName Avoids)

variable {s : ModuleSet} {name : String} {options : FakeOptions} {target : Target} {b : TypeName}

/-- A target that is declared to be `b` has a stand-in with the methods that embedding `b` adds, if
nothing is reported of that. Only if `b` is the type of failures, it has none. -/
structure StandsInAs (s : ModuleSet) (name : String) (options : FakeOptions) (target : Target)
    (b : TypeName) : Prop where
  made : b ≠ errorName → (expansion s [] [.named (some b)]).problems = [] →
    ∃ (fake : Fake) (x : Expansion), (generate s name options).outcome = .ok fake ∧
    fake.kind = .interface ∧
      fake.methods = (Ty.methodSet x.methods).map (renderMethod fake.imports) ∧
      x.SameMethods (expansion s [] [.named (some b)]) (∀ u ∈ s.underlying? (.named (some b)),
        Avoids s [b] u)
  refused : b = errorName → (generate s name options).outcome =
      .error (.notFakeable target.decl.name)

theorem kind_of_find? (h : Target.find? s name = some target) :
    target.kind = Target.kindOf s target.decl.type := by
  obtain ⟨m, -, hm⟩ := List.exists_of_findSome?_eq_some h
  obtain ⟨decl, -, rfl⟩ := Option.map_eq_some_iff.1 hm
  rfl

theorem standsInAs_of_type_eq (h : Target.find? s (Text.trim name) = some target)
    (htype : target.decl.type = .named (some b)) : StandsInAs s name options target b := by
  have hkind := kind_of_find? h
  rw [Target.kindOf, htype] at hkind
  constructor
  · intro hb hproblems
    obtain ⟨methods, embedded, hu⟩ := Ty.exists_of_problems_eq_nil hb hproblems
    rw [hu] at hkind
    let imports :=
      (ImportRegistry.forDestination options.destination).register target.module.name
        target.module.path
    refine ⟨ofMethods options target imports (Ty.methodSet (expansion s methods embedded).methods),
      expansion s methods embedded, ?_, hkind, methods_ofMethods .., ?_⟩
    · rw [generate, Target.locate]
      simp only [h, methodsFor?, hkind, htype, hu, imports]
    · refine Expansion.SameMethods.of_agrees (fun m ↦ ?_) fun havoids ↦ Ty.agrees_expansion_named hu
        (havoids _ hu)
      rw [Ty.mem_expansion_iff, Ty.mem_expansion_iff, Ty.asks_named hu]
  · rintro rfl
    rw [ModuleSet.underlying?_errorName] at hkind
    rw [generate, Target.locate]
    simp only [h, methodsFor?, hkind]

/-- Definitions through names are transparent, but for those that end at the type of failures. -/
theorem renaming_transparent (s : ModuleSet) :
    (∀ a b, Relation.TransGen s.Renames a b → ∀ methods before after,
      Ty.EmbedsAs s a b methods before after) ∧
    ∀ name options target b, Target.find? s (Text.trim name) = some target →
      target.decl.type = .named (some b) → StandsInAs s name options target b := by
  constructor
  · intro a b h methods before after
    exact Ty.embedsAs_of_renames h methods before after
  · intro name options target b h htype
    exact standsInAs_of_type_eq h htype

section Store

def storeName (name : String) : TypeName := ⟨name, some ⟨"store", "store"⟩⟩

def read : Method Ty := ⟨"Read", ⟨[], [], false⟩⟩

/-- A handle is an alias is a reader, and trouble is a failure is an error. -/
def store : ModuleSet :=
  ⟨[⟨"store", "store", some ⟨[
      ("Reader", .type ⟨"Reader", .interface [read] []⟩),
      ("Alias", .type ⟨"Alias", .named (some (storeName "Reader"))⟩),
      ("Handle", .type ⟨"Handle", .named (some (storeName "Alias"))⟩),
      ("Failure", .type ⟨"Failure", .named (some errorName)⟩),
      ("Trouble", .type ⟨"Trouble", .named (some (storeName "Failure"))⟩)]⟩, []⟩], [0]⟩

theorem renaming_transparent_store :
    Ty.methodSet (expansion store [] [.named (some (storeName "Handle"))]).methods =
      Ty.methodSet (expansion store [] [.named (some (storeName "Reader"))]).methods ∧
    (∃ fake, (generate store "Handle" .default).outcome = .ok fake ∧ fake.kind = .interface ∧
      ∃ f ∈ fake.methods, f.name = "Read") ∧
    errorMethod ∈ (expansion store [] [.named (some errorName)]).methods ∧
    errorMethod ∉ (expansion store [] [.named (some (storeName "Trouble"))]).methods ∧
    (generate store "Failure" .default).outcome = .error (.notFakeable "Failure") := by
  have hhandle : Relation.TransGen store.Renames (storeName "Handle") (storeName "Reader") :=
    .tail (.single ⟨_, rfl, rfl⟩) ⟨_, rfl, rfl⟩
  have htrouble : Relation.TransGen store.Renames (storeName "Trouble") errorName :=
    .tail (.single ⟨_, rfl, rfl⟩) ⟨_, rfl, rfl⟩
  obtain ⟨hembeds, hstands⟩ := renaming_transparent store
  have hsame := (hembeds _ _ hhandle [] [] []).same (by decide)
  have hone : ∀ m ∈ (expansion store [] [.named (some (storeName "Handle"))]).methods,
      m = read := by
    intro m hm
    exact List.mem_singleton.1 hm
  refine ⟨hsame.methodSet (.inl fun m hm m' hm' _ ↦ (hone m hm).trans (hone m' hm').symm),
    ?_, ?_, ?_, ?_⟩
  · obtain ⟨fake, x, hmade, hkind, hmethods, hx⟩ :=
      (hstands "Handle" .default _ (storeName "Alias") rfl rfl).made (by decide) rfl
    refine ⟨fake, hmade, hkind, renderMethod fake.imports read, ?_, rfl⟩
    have hread : "Read" ∈ (Ty.methodSet x.methods).map (·.name) := by
      rw [hx.names]
      exact Ty.exists_mem_methodSet_iff.2 ⟨read, List.mem_singleton_self _, rfl⟩
    obtain ⟨m, hm, -⟩ := List.mem_map.1 hread
    have hx' := (hx.mem_iff m).1 (Ty.mem_of_mem_methodSet hm)
    rw [hmethods, ← List.mem_singleton.1 hx']
    exact List.mem_map_of_mem hm
  · exact ((hembeds _ _ htrouble [] [] []).missing rfl).1
  · intro hm
    exact List.not_mem_nil ((((hembeds _ _ htrouble [] [] []).missing rfl).2 errorMethod).1 hm)
  · exact (hstands "Failure" .default _ errorName rfl rfl).refused rfl

def reads (kind : BasicKind) : Method Ty := ⟨"Read", ⟨[], [⟨none, .basic kind⟩], false⟩⟩

/-- Pages are sheets, which embed books, which embed pages. -/
def circle : ModuleSet :=
  ⟨[⟨"store", "store", some ⟨[
      ("Sheet", .type
        ⟨"Sheet", .interface [] [.named (some (storeName "Book")), .interface [reads .string] []]⟩),
      ("Page", .type ⟨"Page", .named (some (storeName "Sheet"))⟩),
      ("Book", .type
        ⟨"Book", .interface [] [.named (some (storeName "Page")), .interface [reads .int] []]⟩)]⟩,
          []⟩], [0]⟩

-- In a circle with two methods of one name it depends on the name where the circle ends, and so
-- which method is first.
example :
    (expansion circle [] [.named (some (storeName "Page"))]).methods = [reads .int, reads .string] ∧
    (expansion circle [] [.named (some (storeName "Sheet"))]).methods =
      [reads .string, reads .int, reads .string] :=
  ⟨rfl, rfl⟩

end Store

end Fake

end Understudy
