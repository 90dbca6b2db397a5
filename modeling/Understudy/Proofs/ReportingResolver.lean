import Understudy.Proofs.ResolvedModule
import Understudy.Proofs.WrittenNames

namespace Understudy

abbrev Reporting := StateM (List Diagnostic)

namespace NameContext

variable (ctx : NameContext)

def resolveName (qualifier : Option String) (name : String) (span : Span) : Reporting (Option Ty) :=
  match ctx.namedType qualifier name with
  | .ok t => return some t
  | .error e => do
    modify (· ++ [(Diagnostic.error e.message (some span)).inFile ctx.fileId])
    return none

mutual

/-- Both parts of a map are resolved before either result is looked at. -/
def resolveType : TypeExpr → Reporting (Option Ty)
  | .name qualifier name span => ctx.resolveName qualifier name span
  | .pointer elem _ => return (← resolveType elem).map .pointer
  | .slice elem _ => return (← resolveType elem).map .slice
  | .array length elem _ => return (← resolveType elem).map (.array length)
  | .map key elem _ => do
    let key ← resolveType key
    let elem ← resolveType elem
    return key.bind fun k ↦ elem.map fun t ↦ .map k t
  | .chan dir elem _ => return (← resolveType elem).map (.chan dir)
  | .func sig _ => return (← resolveSignature sig).map .signature
  | .interface elements _ => resolveElements elements [] [] true
  | .struct fields _ => return ((← resolveFields fields).mapM id).map .struct
termination_by structural t => t

def resolveSignature : SignatureExpr TypeExpr → Reporting (Option (Signature Ty))
  | ⟨params, results, _⟩ => do
    let inputs ← resolveParams params [] true
    let outputs ← resolveParams results [] true
    return inputs.bind fun i ↦ outputs.map fun o ↦ ⟨i, o, params.getLast?.any (·.variadic)⟩
termination_by structural sig => sig

/-- Goes on behind a parameter without a result; `ok` says that there was none. -/
def resolveParams :
    List (ParamExpr TypeExpr) → List (Var Ty) → Bool → Reporting (Option (List (Var Ty)))
  | [], vars, ok => return if ok then some vars else none
  | ⟨name, type, variadic, _⟩ :: rest, vars, ok => do
    let found ← resolveType type
    found.elim (resolveParams rest vars false) fun t ↦
      resolveParams rest (vars ++ [⟨name, if variadic then .slice t else t⟩]) ok
termination_by structural ps => ps

def resolveElements :
    List (ElementExpr TypeExpr) → List (Method Ty) → List Ty → Bool → Reporting (Option Ty)
  | [], methods, embedded, ok => return if ok then some (.interface methods embedded) else none
  | .method name sig _ :: rest, methods, embedded, ok => do
    let found ← resolveSignature sig
    found.elim (resolveElements rest methods embedded false) fun s ↦
      resolveElements rest (methods ++ [⟨name, s⟩]) embedded ok
  | .embedded type :: rest, methods, embedded, ok => do
    let found ← resolveType type
    found.elim (resolveElements rest methods embedded false) fun t ↦
      resolveElements rest methods (embedded ++ [t]) ok
termination_by structural es => es

/-- All fields are resolved before any result is looked at. -/
def resolveFields : List (FieldExpr TypeExpr) → Reporting (List (Option (Var Ty)))
  | [] => return []
  | ⟨name, type, _⟩ :: rest => do
    let field := (← resolveType type).map fun t ↦ ⟨name, t⟩
    return field :: (← resolveFields rest)
termination_by structural fs => fs

end

def resolveDecl : Decl → Reporting (Option Object)
  | .type name type _ => return (← ctx.resolveType type).map fun t ↦ .type ⟨name, t⟩
  | .func name sig _ => return (← ctx.resolveSignature sig).map fun s ↦ .func ⟨name, s⟩

end NameContext

namespace Checked

variable {α β γ : Type}

/-- A value with all that is wrong put behind other reports. -/
def report (c : Checked α) : Reporting (Option α) := fun ds ↦ (c.toOption, ds ++ c.problems)

theorem report_map (f : α → β) (c : Checked α) :
    (do return (← c.report).map f : Reporting (Option β)) = report (c.map f) := by
  funext ds
  rw [report, toOption_map, problems_map]
  rfl

theorem report_both (f : α → β → γ) (a : Checked α) (b : Checked β) :
    (do
      let x ← a.report
      let y ← b.report
      return x.bind fun x ↦ y.map (f x) : Reporting (Option γ)) = (both f a b).report := by
  funext ds
  rw [report, toOption_both, problems_both, ← List.append_assoc]
  rfl

/-- What a loop that has gathered `done` does with the rest. -/
def reportAfter (c : Checked α) (done : α → β) (ok : Bool) : Reporting (Option β) :=
  fun ds ↦ (if ok then c.toOption.map done else none, ds ++ c.problems)

theorem reportAfter_true (c : Checked α) (done : α → β) :
    c.reportAfter done true = report (c.map done) := by
  funext ds
  rw [report, toOption_map, problems_map]
  rfl

theorem reportAfter_nil (c : Checked (List α)) : c.reportAfter ([] ++ ·) true = c.report := by
  cases c <;> rfl

theorem reportAfter_ok (a : α) (done : α → β) (ok : Bool) :
    reportAfter (.ok a) done ok = return if ok then some (done a) else none := by
  funext ds
  rw [reportAfter, problems, List.append_nil]
  rfl

theorem reportAfter_both {f : α → β → β} (a : Checked α) (b : Checked β)
  (done : β → γ) (ok : Bool) :
    (do
      let found ← a.report
      found.elim (b.reportAfter done false) fun x ↦ b.reportAfter (fun y ↦ done (f x y)) ok :
      Reporting (Option γ)) =
      (both f a b).reportAfter done ok := by
  funext ds
  rw [reportAfter, toOption_both, problems_both, ← List.append_assoc]
  cases a <;> cases b <;> cases ok <;> rfl

end Checked

namespace NameContext

variable (ctx : NameContext)

theorem resolveName_eq (q : Option String) (name : String) (span : Span) :
    ctx.resolveName q name span = (ctx.typeOf (.name q name span)).report := by
  funext ds
  rw [resolveName, typeOf]
  cases ctx.namedType q name with
  | ok t =>
    rw [Checked.report, Checked.problems, List.append_nil]
    rfl
  | error e => rfl

mutual

theorem resolveType_eq (e : TypeExpr) : ctx.resolveType e = (ctx.typeOf e).report := by
  cases e with
  | name q name s =>
    rw [resolveType]
    exact ctx.resolveName_eq q name s
  | pointer elem s | slice elem s | array length elem s | chan dir elem s =>
    rw [resolveType, typeOf, resolveType_eq elem]
    exact Checked.report_map _ _
  | map key elem s =>
    rw [resolveType, typeOf, resolveType_eq key, resolveType_eq elem]
    exact Checked.report_both _ _ _
  | func sig s =>
    rw [resolveType, typeOf, resolveSignature_eq sig]
    exact Checked.report_map _ _
  | interface elements s =>
    rw [resolveType, typeOf, resolveElements_eq elements]
    exact Checked.reportAfter_true _ _
  | struct fields s =>
    obtain ⟨found, hfound, hall⟩ := exists_resolveFields fields
    funext ds
    rw [resolveType, typeOf, hfound, Checked.report, Checked.toOption_map,
      Checked.problems_map, ← hall]
    rfl
termination_by structural e

theorem resolveSignature_eq (sig : SignatureExpr TypeExpr) :
    ctx.resolveSignature sig = (ctx.signatureOf sig).report := by
  obtain ⟨params, results, span⟩ := sig
  rw [resolveSignature, signatureOf, resolveParams_eq params, resolveParams_eq results]
  simp only [Checked.reportAfter_nil]
  exact Checked.report_both _ _ _
termination_by structural sig

theorem resolveParams_eq (params : List (ParamExpr TypeExpr)) (vars : List (Var Ty)) (ok : Bool) :
    ctx.resolveParams params vars ok = (ctx.paramsOf params).reportAfter (vars ++ ·) ok := by
  cases params with
  | nil =>
    rw [resolveParams, paramsOf, Checked.reportAfter_ok, List.append_nil]
  | cons p rest =>
    obtain ⟨name, type, variadic, span⟩ := p
    rw [resolveParams, paramsOf, resolveType_eq type, ← Checked.reportAfter_both]
    simp only [resolveParams_eq rest, List.append_assoc, List.singleton_append]
termination_by structural params

theorem resolveElements_eq (elements : List (ElementExpr TypeExpr)) (methods : List (Method Ty))
    (embedded : List Ty) (ok : Bool) : ctx.resolveElements elements methods embedded ok =
      (ctx.elementsOf elements).reportAfter
      (fun (ms, ts) ↦ .interface (methods ++ ms) (embedded ++ ts)) ok := by
  cases elements with
  | nil =>
    rw [resolveElements, elementsOf, Checked.reportAfter_ok]
    dsimp only
    rw [List.append_nil, List.append_nil]
  | cons e rest =>
    cases e with
    | method name sig span =>
      rw [resolveElements, elementsOf, resolveSignature_eq sig, ← Checked.reportAfter_both]
      simp only [resolveElements_eq rest, List.append_assoc, List.singleton_append]
    | embedded type =>
      rw [resolveElements, elementsOf, resolveType_eq type, ← Checked.reportAfter_both]
      simp only [resolveElements_eq rest, List.append_assoc, List.singleton_append]
termination_by structural elements

theorem exists_resolveFields (fields : List (FieldExpr TypeExpr)) :
    ∃ found : List (Option (Var Ty)),
      ctx.resolveFields fields = (fun ds ↦ (found, ds ++ (ctx.fieldsOf fields).problems)) ∧
      found.mapM id = (ctx.fieldsOf fields).toOption := by
  cases fields with
  | nil =>
    rw [resolveFields, fieldsOf]
    refine ⟨[], ?_, rfl⟩
    funext ds
    rw [Checked.problems, List.append_nil]
    rfl
  | cons f rest =>
    obtain ⟨name, type, span⟩ := f
    obtain ⟨found, hfound, hall⟩ := exists_resolveFields rest
    rw [resolveFields, fieldsOf, resolveType_eq type, hfound, Checked.problems_both,
      Checked.toOption_both, ← hall]
    refine ⟨(ctx.typeOf type).toOption.map (⟨name, ·⟩) :: found, ?_, ?_⟩
    · funext ds
      rw [← List.append_assoc]
      rfl
    · rw [List.mapM_cons]
      cases (ctx.typeOf type).toOption with
      | none => rfl
      | some t => cases found.mapM id <;> rfl
termination_by structural fields

end

theorem resolveDecl_eq (d : Decl) : ctx.resolveDecl d = (ctx.objectOf d).report := by
  cases d with
  | type name type span =>
    rw [resolveDecl, objectOf, resolveType_eq]
    exact Checked.report_map _ _
  | func name sig span =>
    rw [resolveDecl, objectOf, resolveSignature_eq]
    exact Checked.report_map _ _

/-- What resolving a declaration comes to: an object or none, and the reports that it adds. -/
structure Settles (ctx : NameContext) (d : Decl) (object : Option Object)
    (reports : List Diagnostic) : Prop where
  run : ∀ earlier, ctx.resolveDecl d earlier = (object, earlier ++ reports)
  /-- There is one report for each name that denotes no type, in the order of the text, and no
  other. -/
  complains : ∀ ds, ctx.Complains d.uses ds ↔ ds = reports
  isSome_iff : object.isSome ↔ ∀ u ∈ d.uses, ∃ t, ctx.Denotes u t
  eq_nil_iff : reports = [] ↔ object.isSome
  name : ∀ o ∈ object, o.name = d.name

theorem settles_objectOf (d : Decl) :
    ctx.Settles d (ctx.objectOf d).toOption (ctx.objectOf d).problems := by
  have hcomplains := ctx.complains_objectOf d
  have hsome := (ctx.reports_objectOf d).isSome_toOption_iff
  constructor
  case run =>
    intro earlier
    rw [resolveDecl_eq]
    rfl
  case complains => exact fun ds ↦ ⟨fun h ↦ h.unique hcomplains, fun h ↦ h ▸ hcomplains⟩
  case isSome_iff => rw [hsome, hcomplains.eq_nil_iff]
  case eq_nil_iff => exact hsome.symm
  case name =>
    intro o ho
    cases hobject : ctx.objectOf d with
    | error ds =>
      rw [hobject] at ho
      cases ho
    | ok x =>
      rw [hobject] at ho
      cases ho
      exact name_objectOf hobject

end NameContext

namespace Resolve

variable {path : String} {files : List ParsedFile} {deps : ModuleSet} {f : ParsedFile} {d : Decl}

theorem problems_infix_diagnostics (hf : f ∈ files) (hd : d ∈ f.file.decls) :
    ((context path files deps f).objectOf d).problems <:+:
      (resolveModule path files deps).diagnostics := by
  have hdecl : ((context path files deps f).objectOf d).problems <:+:
      (f.file.decls.map (context path files deps f).objectOf).flatMap Checked.problems :=
    List.infix_of_mem_flatten (List.mem_map_of_mem (List.mem_map_of_mem hd))
  have hfile : (ImportSpec.bindAll deps f.id [] f.file.imports).2 ++
        (f.file.decls.map (context path files deps f).objectOf).flatMap Checked.problems <:+:
      files.flatMap fun f ↦ (ImportSpec.bindAll deps f.id [] f.file.imports).2 ++
        (f.file.decls.map (context path files deps f).objectOf).flatMap Checked.problems :=
    List.infix_of_mem_flatten (List.mem_map_of_mem hf)
  rw [diagnostics_resolveModule]
  exact List.infix_append_of_infix_right ((List.infix_append_of_infix_right hdecl).trans hfile)

theorem isSome_lookup?_of_objectOf {o : Object} (hf : f ∈ files) (hd : d ∈ f.file.decls)
    (ho : (context path files deps f).objectOf d = .ok o) :
    ((resolveModule path files deps).module.lookup? d.name).isSome := by
  have hfound : ((objects path files deps).find? (·.name = d.name)).isSome := by
    rw [List.find?_isSome]
    exact ⟨o, mem_objects.2 ⟨f, hf, d, hd, ho⟩, decide_eq_true (NameContext.name_objectOf ho)⟩
  rw [module_resolveModule, Module.lookup?, Option.bind_some, lookup?_addObjects, Option.isSome_or,
    hfound, Bool.or_true]

end Resolve

/-- Resolving a declaration reports each name in it that denotes no type and yields an object if
there is none. In a module, either the reports come out among those on the module, or something
stands in the scope under the name. -/
theorem settles_resolveDecl (ctx : NameContext) (d : Decl) :
    ∃ object reports, ctx.Settles d object reports ∧
      ∀ path files deps, ∀ f ∈ files, d ∈ f.file.decls → Resolve.context path files deps f = ctx →
        reports <:+: (resolveModule path files deps).diagnostics ∧
        (object.isSome → ((resolveModule path files deps).module.lookup? d.name).isSome) := by
  refine ⟨_, _, ctx.settles_objectOf d, ?_⟩
  rintro path files deps f hf hd rfl
  refine ⟨Resolve.problems_infix_diagnostics hf hd, fun hsome ↦ ?_⟩
  obtain ⟨o, ho⟩ := Option.isSome_iff_exists.1 hsome
  cases hobject : (Resolve.context path files deps f).objectOf d with
  | ok x => exact Resolve.isSome_lookup?_of_objectOf hf hd hobject
  | error ds =>
    rw [hobject] at ho
    cases ho

section Ledger

/-- Of the names `Missing`, `time.Clock`, `Total` and `Sum` in it, only `Total` denotes a type. -/
def totalDecl : Decl :=
  .type "Total"
    (.map (.name none "Missing" ⟨10, 17⟩)
      (.func ⟨[⟨some "at", .name (some "time") "Clock" ⟨26, 36⟩, false,
    ⟨23, 36⟩⟩, ⟨none, .name none "Total" ⟨38, 43⟩, true, ⟨38, 43⟩⟩],
      [⟨none, .name none "Sum" ⟨45, 48⟩, false, ⟨45, 48⟩⟩],
    ⟨22, 48⟩⟩ ⟨18, 48⟩) ⟨6, 48⟩) ⟨0, 48⟩

def sumDecl : Decl := .func "Sum" ⟨[], [], ⟨57, 59⟩⟩ ⟨49, 59⟩

def ledger : ParsedFile := ⟨"ledger/ledger.api", "ledger", [], [totalDecl, sumDecl]⟩

theorem settles_resolveDecl_ledger :
    ∃ object reports, (Resolve.context "ledger" [ledger] .empty ledger).Settles totalDecl
      object reports ∧
      object.isSome = false ∧ reports <:+: (resolveModule "ledger" [ledger] .empty).diagnostics ∧
      reports.map (fun r ↦ (r.message, r.span)) =
        [("undefined: Missing", some ⟨10, 17⟩), ("undefined: time", some ⟨26, 36⟩),
          ("`Sum` is not a type", some ⟨45, 48⟩)] := by
  obtain ⟨object, reports, hsettles, hmodule⟩ :=
    settles_resolveDecl (Resolve.context "ledger" [ledger] .empty ledger) totalDecl
  have hrun := hsettles.run []
  rw [List.nil_append] at hrun
  obtain ⟨hsub, -⟩ :=
    hmodule "ledger" [ledger] .empty ledger (List.mem_singleton_self _) (List.mem_cons_self ..) rfl
  refine ⟨object, reports, hsettles, ?_, hsub, ?_⟩
  · rw [show object = _ from (congrArg Prod.fst hrun).symm]
    decide +kernel
  · rw [show reports = _ from (congrArg Prod.snd hrun).symm]
    decide +kernel

end Ledger

end Understudy
