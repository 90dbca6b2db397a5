import Understudy.Proofs.Generation
import Understudy.Proofs.ResolvedModule

namespace Understudy

def Ty.missingCase (t : Ty) : Diagnostic := .warning ("missing case for type " ++ t.form) none

structure Walk where
  registry : ImportRegistry
  reported : List Diagnostic

namespace Walk

def report (w : Walk) (d : Diagnostic) : Walk := { w with reported := w.reported ++ [d] }

def visit (w : Walk) : Ty → Walk
  | .basic _ | .interface _ _ => w
  | .pointer elem | .slice elem | .array _ elem | .chan _ elem => w.visit elem
  | .map key elem => (w.visit key).visit elem
  | .named (some ⟨_, some m⟩) =>
    if m.path.isEmpty then w else { w with registry := w.registry.register m.name m.path }
  | .named _ => w
  | .signature sig => w.report (Ty.signature sig).missingCase
  | .struct fields => w.report (Ty.struct fields).missingCase

end Walk

structure Pen where
  reported : List Diagnostic
  /-- The paths of the imports that names were qualified with, each once. -/
  qualified : List String

structure Draft extends Pen where
  text : String

namespace Draft

def put (d : Draft) (text : String) : Draft := { d with text := d.text ++ text }

def report (d : Draft) (problem : Diagnostic) : Draft :=
  { d with reported := d.reported ++ [problem] }

def qualify (d : Draft) (path : String) : Draft :=
  if path ∈ d.qualified then d else { d with qualified := d.qualified ++ [path] }

end Draft

namespace ImportRegistry

def writeName (r : ImportRegistry) (d : Draft) (name : TypeName) : Draft :=
  match name.module with
  | none => d.put name.name
  | some m =>
    if r.isDestination m.path then d.put name.name
    else
      match r.find? m.path with
      | some i => (((d.put i.qualifier).put ".").put name.name).qualify i.path
      | none => d.put name.name

def write (r : ImportRegistry) (d : Draft) : Ty → Draft
  | .slice elem => r.write (d.put "[]") elem
  | .array length elem => r.write (d.put (lengthMark length)) elem
  | .pointer elem => r.write (d.put "*") elem
  | .map key elem => r.write ((r.write (d.put "map[") key).put "]") elem
  | .chan dir elem => r.write (d.put dir.mark) elem
  | .basic kind => d.put kind.name
  | .interface methods embedded => d.put (Ty.interface methods embedded).display
  | .named none =>
    d.report (.warning ("named type has no declaration: " ++ (Ty.named none).display) none)
  | .named (some name) => r.writeName d name
  | .signature sig => d.report (Ty.signature sig).missingCase
  | .struct fields => d.report (Ty.struct fields).missingCase

def writeType (r : ImportRegistry) (p : Pen) (t : Ty) : String × Pen :=
  let d := r.write ⟨p, ""⟩ t
  (d.text, d.toPen)

end ImportRegistry

namespace Fake

/-- Of a slice that collects what is left only the elements are written. -/
def writeVar (r : ImportRegistry) (p : Pen) : Ty → Bool → String × Pen
  | .slice elem, true =>
    let (text, p) := r.writeType p elem
    ("..." ++ text, p)
  | t, _ => r.writeType p t

def writeVars (r : ImportRegistry) (variadic : Bool) (p : Pen) : List (Var Ty) → List Param × Pen
  | [] => ([], p)
  | v :: rest =>
    let collects := variadic && rest.isEmpty
    let (text, p) := writeVar r p v.type collects
    let (params, p) := writeVars r variadic p rest
    (⟨v.name, text, collects⟩ :: params, p)

def writeMethods (r : ImportRegistry) (p : Pen) : List (Method Ty) → List FakeMethod × Pen
  | [] => ([], p)
  | m :: rest =>
    let (params, p) := writeVars r m.sig.variadic p m.sig.params
    let (results, p) := writeVars r false p m.sig.results
    let (methods, p) := writeMethods r p rest
    (⟨m.name, params, results⟩ :: methods, p)

end Fake

section Walking

variable {r : ImportRegistry} {t : Ty}

theorem Ty.filterMap_leaves {α : Type} {f : Ty → Option α} (h : t.leaves = [t]) :
    t.leaves.filterMap f = (f t).toList := by
  rw [h]
  cases hf : f t <;> simp [hf]

theorem ImportRegistry.registerType_leaf (h : t.leaves = [t]) :
    r.registerType t = r.registerLeaf t := by
  rw [registerType, h, List.foldl_cons, List.foldl_nil]

theorem Walk.visit_eq (w : Walk) (t : Ty) :
    w.visit t = ⟨w.registry.registerType t, w.reported ++ t.registerProblems⟩ := by
  cases t with
  | pointer elem | slice elem | array length elem | chan dir elem => exact visit_eq w elem
  | map key elem =>
    rw [visit, visit_eq w key, visit_eq]
    simp [ImportRegistry.registerType, Ty.registerProblems, Ty.leaves]
  | basic | interface | signature | struct =>
    rw [ImportRegistry.registerType_leaf rfl, Ty.registerProblems, Ty.filterMap_leaves rfl]
    simp [visit, report, ImportRegistry.registerLeaf, Ty.module?, Ty.unsupported?, Ty.missingCase]
  | named name =>
    rw [ImportRegistry.registerType_leaf rfl, Ty.registerProblems, Ty.filterMap_leaves rfl]
    rcases name with _ | ⟨_, _ | m⟩
    · simp [visit, ImportRegistry.registerLeaf, Ty.module?, Ty.unsupported?]
    · simp [visit, ImportRegistry.registerLeaf, Ty.module?, Ty.unsupported?]
    · simp only [visit, ImportRegistry.registerLeaf, Ty.module?, Ty.unsupported?,
        Option.toList_none, List.append_nil]
      split <;> rfl
termination_by structural t

theorem Walk.foldl_visit_eq (w : Walk) (types : List Ty) : types.foldl visit w =
    ⟨types.foldl ImportRegistry.registerType w.registry,
      w.reported ++ types.flatMap Ty.registerProblems⟩ := by
  induction types generalizing w with
  | nil => simp
  | cons t rest ih => simp [ih, visit_eq]

end Walking

section Writing

@[simp]
theorem Draft.put_mk (p : Pen) (text more : String) :
    (⟨p, text⟩ : Draft).put more = ⟨p, text ++ more⟩ := rfl

@[simp]
theorem Draft.report_mk (reported : List Diagnostic) (paths : List String) (text : String)
    (d : Diagnostic) :
    (⟨⟨reported, paths⟩, text⟩ : Draft).report d = ⟨⟨reported ++ [d], paths⟩, text⟩ := rfl

@[simp]
theorem Draft.qualify_mk (reported : List Diagnostic) (paths : List String) (text path : String) :
    (⟨⟨reported, paths.eraseDups⟩, text⟩ : Draft).qualify path =
      ⟨⟨reported, (paths ++ [path]).eraseDups⟩, text⟩ := by
  rw [eraseDups_append_singleton, qualify]
  by_cases hpath : path ∈ paths
  · rw [if_pos hpath, if_pos (List.mem_eraseDups.2 hpath)]
  · rw [if_neg hpath, if_neg fun hmem ↦ hpath (List.mem_eraseDups.1 hmem)]

namespace ImportRegistry

theorem writeName_eq (r : ImportRegistry) (reported : List Diagnostic) (paths : List String)
    (text : String) (name : TypeName) : r.writeName ⟨⟨reported, paths.eraseDups⟩, text⟩ name =
      ⟨⟨reported, (paths ++ ((r.qualifierOf? name).map (·.path)).toList).eraseDups⟩,
        text ++ r.spell name⟩ := by
  obtain ⟨name, ref⟩ := name
  cases ref with
  | none => simp [writeName, spell, qualifierOf?]
  | some m =>
    rw [writeName, spell, qualifierOf?]
    dsimp only
    cases r.isDestination m.path with
    | true => simp
    | false =>
      cases r.find? m.path with
      | none => simp
      | some i => simp [String.append_assoc]

theorem write_eq (r : ImportRegistry) (reported : List Diagnostic) (paths : List String)
    (text : String) (t : Ty) : r.write ⟨⟨reported, paths.eraseDups⟩, text⟩ t =
      ⟨⟨reported ++ t.renderProblems, (paths ++ r.qualifiedPaths t).eraseDups⟩,
        text ++ r.render t⟩ := by
  cases t with
  | pointer elem | slice elem | array length elem | chan dir elem =>
    rw [write, Draft.put_mk, write_eq r _ _ _ elem, render, ← String.append_assoc]
    rfl
  | map key elem =>
    rw [write, Draft.put_mk _ text, write_eq r _ _ _ key, Draft.put_mk,
      write_eq r _ _ _ elem, render]
    simp [Ty.renderProblems, qualifiedPaths, Ty.leaves, String.append_assoc]
  | basic | interface | signature | struct =>
    rw [Ty.renderProblems, qualifiedPaths, Ty.filterMap_leaves rfl, Ty.filterMap_leaves rfl]
    simp [write, render, Ty.unrenderable?, Ty.unsupported?, Ty.asNamed?, Ty.missingCase]
  | named name =>
    rw [Ty.renderProblems, qualifiedPaths, Ty.filterMap_leaves rfl, Ty.filterMap_leaves rfl]
    cases name with
    | none => simp [write, render, Ty.unrenderable?, Ty.asNamed?]
    | some name =>
      simp [write, render, writeName_eq, Ty.unrenderable?, Ty.unsupported?, Ty.asNamed?]
termination_by structural t

theorem writeType_eq (r : ImportRegistry) (reported : List Diagnostic) (paths : List String)
    (t : Ty) : r.writeType ⟨reported, paths.eraseDups⟩ t =
      (r.render t, ⟨reported ++ t.renderProblems, (paths ++ r.qualifiedPaths t).eraseDups⟩) := by
  rw [writeType, write_eq, String.empty_append]

end ImportRegistry

end Writing

namespace Fake

section Writing

variable (r : ImportRegistry) (reported : List Diagnostic) (paths : List String)

theorem writeVar_eq (t : Ty) (collects : Bool) : writeVar r ⟨reported, paths.eraseDups⟩ t collects =
    (if collects then variadicText r t else r.render t,
      ⟨reported ++ t.renderProblems, (paths ++ r.qualifiedPaths t).eraseDups⟩) := by
  unfold writeVar
  split
  · rw [r.writeType_eq]
    rfl
  · rename_i hslice
    rw [r.writeType_eq]
    cases collects with
    | false => rfl
    | true =>
      rw [if_pos rfl]
      unfold variadicText
      split
      · exact absurd rfl (hslice _ rfl)
      · rfl

theorem renderVars_cons (variadic : Bool) (v : Var Ty) (rest : List (Var Ty)) :
    renderVars r variadic (v :: rest) =
      ⟨v.name, if variadic && rest.isEmpty then variadicText r v.type else r.render v.type,
        variadic && rest.isEmpty⟩ :: renderVars r variadic rest := by
  cases rest with
  | nil => simp [renderVars]
  | cons w rest => simp [renderVars]

theorem writeVars_eq (variadic : Bool) (vars : List (Var Ty)) :
    writeVars r variadic ⟨reported, paths.eraseDups⟩ vars = (renderVars r variadic vars,
      ⟨reported ++ vars.flatMap (·.type.renderProblems),
        (paths ++ vars.flatMap (r.qualifiedPaths ·.type)).eraseDups⟩) := by
  induction vars generalizing reported paths with
  | nil => simp [writeVars, renderVars]
  | cons v rest ih => simp [writeVars, writeVar_eq, renderVars_cons, ih]

theorem writtenTypes_cons (m : Method Ty) (rest : List (Method Ty)) : writtenTypes (m :: rest) =
    m.sig.params.map (·.type) ++ m.sig.results.map (·.type) ++ writtenTypes rest := by
  simp [writtenTypes]

theorem writeMethods_eq (methods : List (Method Ty)) :
    writeMethods r ⟨reported, paths.eraseDups⟩ methods = (methods.map (renderMethod r),
      ⟨reported ++ (writtenTypes methods).flatMap Ty.renderProblems,
        (paths ++ (writtenTypes methods).flatMap r.qualifiedPaths).eraseDups⟩) := by
  induction methods generalizing reported paths with
  | nil => simp [writeMethods, writtenTypes]
  | cons m rest ih =>
    simp [writeMethods, writeVars_eq, writtenTypes_cons, ih, renderMethod, List.flatMap_map]

end Writing

def walked (registry : ImportRegistry) (methods : List (Method Ty)) : Walk :=
  (writtenTypes methods).foldl Walk.visit ⟨registry, []⟩

/-- The methods as a pen writes them with the imports that the walk over them leads to. -/
def written (registry : ImportRegistry) (methods : List (Method Ty)) : List FakeMethod × Pen :=
  writeMethods (walked registry methods).registry ⟨[], []⟩ methods

theorem walked_eq (registry : ImportRegistry) (methods : List (Method Ty)) :
    walked registry methods =
    ⟨(writtenTypes methods).foldl ImportRegistry.registerType registry,
      (writtenTypes methods).flatMap Ty.registerProblems⟩ := by
  rw [walked, Walk.foldl_visit_eq, List.nil_append]

theorem written_eq (registry : ImportRegistry) (methods : List (Method Ty)) :
    let final := (writtenTypes methods).foldl ImportRegistry.registerType registry
    written registry methods = (methods.map (renderMethod final),
      ⟨(writtenTypes methods).flatMap Ty.renderProblems,
        final.allQualifiedPaths (writtenTypes methods)⟩) := by
  intro final
  have hmethods := writeMethods_eq final [] [] methods
  rw [List.eraseDups_nil, List.nil_append, List.nil_append] at hmethods
  rw [written, walked_eq, hmethods, ImportRegistry.allQualifiedPaths]

/-- What comes of the walk and the pen is what a stand-in has, and all that is reported on the way
to it. Its imports are those of the walk, where those that the pen qualified with are marked, and
that of the target. -/
theorem exists_written {s : ModuleSet} {name : String} {options : FakeOptions} {fake : Fake}
    (h : (generate s name options).outcome = .ok fake) :
    ∃ target methods problems, Target.find? s (Text.trim name) = some target ∧
      methodsFor? s target = some (methods, problems) ∧
      let path := target.module.path
      let start :=
        (ImportRegistry.forDestination options.destination).register target.module.name path
      let used := (written start methods).2.qualified.foldl ImportRegistry.markReferenced
        (walked start methods).registry
      fake.methods = (written start methods).1 ∧
      fake.imports = (if used.isDestination path then used else used.markReferenced path) ∧
      (generate s name options).reported =
        target.notes ++ problems ++ (walked start methods).reported ++
          (written start methods).2.reported := by
  obtain ⟨target, methods, problems, htarget, hmethods, rfl⟩ := exists_of_generate h
  refine ⟨target, methods, problems, htarget, hmethods, ?_, ?_, ?_⟩
  · rw [written_eq, ofMethods]
  · simp only [written_eq, walked_eq, ofMethods, ImportRegistry.isDestination_foldl_markReferenced]
  · rw [written_eq, walked_eq, generate, Target.locate]
    simp only [htarget, hmethods]

end Fake

end Understudy
