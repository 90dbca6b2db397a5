import Understudy.Proofs.DraftedTypes
import Understudy.Proofs.Embedding

namespace Understudy

def Diagnostic.isMissingCase (d : Diagnostic) : Bool :=
  "missing case for type ".toList.isPrefixOf d.message.toList

namespace Ty

def isGap : Ty → Bool
  | .signature _ | .struct _ => true
  | _ => false

/-- The signatures and structs at the ends of a type, from left to right. -/
def gaps (t : Ty) : List Ty := t.leaves.filter isGap

theorem isMissingCase_missingCase (t : Ty) : t.missingCase.isMissingCase = true := by
  simp [Diagnostic.isMissingCase, missingCase, Diagnostic.warning]

theorem unsupported?_eq (t : Ty) :
    t.unsupported? = if t.isGap then some t.missingCase else none := by
  cases t <;> simp [unsupported?, isGap, missingCase]

theorem registerProblems_eq (t : Ty) : t.registerProblems = t.gaps.map missingCase := by
  rw [registerProblems, gaps]
  induction t.leaves with
  | nil => simp
  | cons leaf rest ih =>
    rw [List.filterMap_cons, List.filter_cons, unsupported?_eq]
    cases leaf.isGap <;> simp [ih]

theorem filter_unrenderable? (t : Ty) :
    t.unrenderable?.filter (·.isMissingCase) = t.unsupported? := by
  cases t with
  | signature | struct => simp [unrenderable?, unsupported?_eq, isGap, isMissingCase_missingCase]
  | named name =>
    cases name with
    | none => simp [unrenderable?, unsupported?, Diagnostic.isMissingCase, Diagnostic.warning]
    | some name => simp [unrenderable?, unsupported?]
  | _ => simp [unrenderable?, unsupported?]

theorem filter_renderProblems (t : Ty) :
    t.renderProblems.filter (·.isMissingCase) = t.gaps.map missingCase := by
  rw [← registerProblems_eq, renderProblems, registerProblems, List.filter_filterMap]
  simp only [filter_unrenderable?]

theorem filter_registerProblems (t : Ty) :
    t.registerProblems.filter (·.isMissingCase) = t.gaps.map missingCase := by
  rw [registerProblems_eq, List.filter_eq_self]
  simp [isMissingCase_missingCase]

end Ty

namespace Fake

variable {s : ModuleSet} {name : String} {options : FakeOptions} {fake : Fake} {target : Target}
  {methods : List (Method Ty)} {problems : List Diagnostic}

theorem filter_notes (target : Target) : target.notes.filter (·.isMissingCase) = [] := by
  rw [Target.notes]
  cases target.kind <;> simp [Diagnostic.isMissingCase, Diagnostic.note, Diagnostic.inFile]

theorem filter_problems (h : methodsFor? s target = some (methods, problems)) :
    problems.filter (·.isMissingCase) = [] := by
  unfold methodsFor? at h
  split at h
  · cases h
    rw [List.filter_eq_nil_iff]
    intro d hd
    obtain ⟨t, rfl⟩ := Ty.problems_expansion s _ _ d hd
    simp [Diagnostic.isMissingCase, Expansion.refusal, Diagnostic.warning]
  · cases h
    simp
  · cases h

theorem filter_registered (types : List Ty) :
    (types.flatMap Ty.registerProblems).filter (·.isMissingCase) =
      (types.flatMap Ty.gaps).map Ty.missingCase := by
  rw [List.filter_flatMap, List.map_flatMap]
  simp only [Ty.filter_registerProblems]

theorem filter_rendered (types : List Ty) :
    (types.flatMap Ty.renderProblems).filter (·.isMissingCase) =
      (types.flatMap Ty.gaps).map Ty.missingCase := by
  rw [List.filter_flatMap, List.map_flatMap]
  simp only [Ty.filter_renderProblems]

/-- The walk and the pen report the same signatures and structs of a type, whatever is imported, and
of the types of a stand-in each of them is reported by both. -/
theorem unsupported_reported_alike :
    (∀ (t : Ty) (r r' : ImportRegistry),
      (Walk.visit ⟨r, []⟩ t).reported.filter (·.isMissingCase) = t.gaps.map Ty.missingCase ∧
      (r'.writeType ⟨[], []⟩ t).2.reported.filter (·.isMissingCase) = t.gaps.map Ty.missingCase) ∧
    ∀ {s : ModuleSet} {name : String} {options : FakeOptions} {fake : Fake},
      (generate s name options).outcome = .ok fake →
      ∃ target methods problems, Target.find? s (Text.trim name) = some target ∧
        methodsFor? s target = some (methods, problems) ∧
        let start :=
          (ImportRegistry.forDestination options.destination).register target.module.name
            target.module.path
        let gaps := (writtenTypes methods).flatMap Ty.gaps
        fake.methods = (written start methods).1 ∧
        (generate s name options).reported =
          target.notes ++ problems ++ (walked start methods).reported ++
            (written start methods).2.reported ∧
        (generate s name options).reported.filter (·.isMissingCase) =
          gaps.map Ty.missingCase ++ gaps.map Ty.missingCase ∧
        ((∀ d ∈ (generate s name options).reported, d.severity ≠ .warning) → gaps = []) := by
  refine ⟨fun t r r' ↦ ⟨?_, ?_⟩, fun {s name options fake} h ↦ ?_⟩
  · rw [Walk.visit_eq, List.nil_append, Ty.filter_registerProblems]
  · have hwritten := r'.writeType_eq [] [] t
    rw [List.eraseDups_nil, List.nil_append] at hwritten
    rw [hwritten, Ty.filter_renderProblems]
  · obtain ⟨target, methods, problems, htarget, hmethods, hnames, -, hreported⟩ := exists_written h
    have htwice : (generate s name options).reported.filter (·.isMissingCase) =
        ((writtenTypes methods).flatMap Ty.gaps).map Ty.missingCase ++
          ((writtenTypes methods).flatMap Ty.gaps).map Ty.missingCase := by
      rw [hreported, walked_eq, written_eq]
      simp only [List.filter_append, filter_notes, filter_problems hmethods, filter_registered,
        filter_rendered, List.nil_append]
    refine ⟨target, methods, problems, htarget, hmethods, hnames, hreported, htwice,
      fun hclean ↦ ?_⟩
    rw [List.eq_nil_iff_forall_not_mem]
    intro gap hgap
    have hmem : gap.missingCase ∈ (generate s name options).reported.filter (·.isMissingCase) := by
      rw [htwice]
      exact List.mem_append_left _ (List.mem_map_of_mem hgap)
    exact hclean _ (List.mem_filter.1 hmem).1 rfl

section Watcher

/-- A channel of empty structs, and functions that are collected. -/
def watchMethod : Method Ty :=
  ⟨"Watch", ⟨[⟨some "done", .chan .recv (.struct [])⟩,
    ⟨some "hooks", .slice (.signature ⟨[], [], false⟩)⟩],
    [⟨none, .named (some Ty.errorName)⟩], true⟩⟩

def watchers : ModuleSet :=
  ⟨[⟨"app", "app", some ⟨[("Watcher", .type ⟨"Watcher", .interface [watchMethod] []⟩)]⟩, []⟩], [0]⟩

theorem unsupported_reported_alike_watchers : ∃ (fake : Fake) (gaps : List Ty),
    (generate watchers "Watcher" .default).outcome = .ok fake ∧
    fake.methods =
      [⟨"Watch", [⟨some "done", "<-chan ", false⟩, ⟨some "hooks", "...", true⟩],
        [⟨none, "error", false⟩]⟩] ∧
    (generate watchers "Watcher" .default).reported.filter (·.isMissingCase) =
      gaps.map Ty.missingCase ++ gaps.map Ty.missingCase ∧
    gaps.map Ty.missingCase =
      [.warning "missing case for type struct" none,
        .warning "missing case for type signature" none] := by
  have hmade : (generate watchers "Watcher" .default).outcome.toOption.map (·.methods) =
      some [⟨"Watch", [⟨some "done", "<-chan ", false⟩, ⟨some "hooks", "...", true⟩],
        [⟨none, "error", false⟩]⟩] := by
    decide +kernel
  have hreported : (generate watchers "Watcher" .default).reported.filter (·.isMissingCase) =
      [.warning "missing case for type struct" none,
        .warning "missing case for type signature" none] ++
        [.warning "missing case for type struct" none,
          .warning "missing case for type signature" none] := by
    decide +kernel
  obtain ⟨fake, hout, hmethods⟩ := exists_of_outcome hmade
  obtain ⟨target, methods, problems, -, -, -, -, htwice, -⟩ := unsupported_reported_alike.2 hout
  refine ⟨fake, (writtenTypes methods).flatMap Ty.gaps, hout, hmethods, htwice, ?_⟩
  have hboth := htwice.symm.trans hreported
  have hlength := congrArg List.length hboth
  simp only [List.length_append, List.length_map, List.length_cons, List.length_nil] at hlength
  refine (List.append_inj hboth ?_).1
  simp only [List.length_map, List.length_cons, List.length_nil]
  omega

end Watcher

end Fake

end Understudy
