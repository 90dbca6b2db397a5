import Understudy.Proofs.ResolvedNames

namespace Understudy

/-- A name at the place where it stands. -/
structure NameUse where
  qualifier : Option String
  name : String
  span : Span

mutual

def TypeExpr.uses : TypeExpr → List NameUse
  | .name qualifier name s => [⟨qualifier, name, s⟩]
  | .pointer elem _ | .slice elem _ | .array _ elem _ | .chan _ elem _ => elem.uses
  | .map key elem _ => key.uses ++ elem.uses
  | .func sig _ => sig.uses
  | .interface elements _ => ElementExpr.allUses elements
  | .struct fields _ => FieldExpr.allUses fields
termination_by structural t => t

def SignatureExpr.uses : SignatureExpr TypeExpr → List NameUse
  | ⟨params, results, _⟩ => ParamExpr.allUses params ++ ParamExpr.allUses results
termination_by structural sig => sig

def ParamExpr.allUses : List (ParamExpr TypeExpr) → List NameUse
  | [] => []
  | ⟨_, type, _, _⟩ :: rest => type.uses ++ ParamExpr.allUses rest
termination_by structural ps => ps

def ElementExpr.allUses : List (ElementExpr TypeExpr) → List NameUse
  | [] => []
  | .method _ sig _ :: rest => sig.uses ++ ElementExpr.allUses rest
  | .embedded type :: rest => type.uses ++ ElementExpr.allUses rest
termination_by structural es => es

def FieldExpr.allUses : List (FieldExpr TypeExpr) → List NameUse
  | [] => []
  | ⟨_, type, _⟩ :: rest => type.uses ++ FieldExpr.allUses rest
termination_by structural fs => fs

end

def Decl.uses : Decl → List NameUse
  | .type _ e _ => e.uses
  | .func _ sig _ => sig.uses

namespace NameContext

/-- The type that a name stands for where it stands. -/
inductive Denotes (ctx : NameContext) : NameUse → Ty → Prop
  | declared {name : String} {type : TypeExpr} {s span : Span}
      (h : ctx.decl? name = some (.type name type span)) :
      Denotes ctx ⟨none, name, s⟩ (.named (some ⟨name, some ctx.self⟩))
  | basic {kind : BasicKind} {s : Span} (h : ctx.decl? kind.name = none) :
      Denotes ctx ⟨none, kind.name, s⟩ (.basic kind)
  | error {s : Span} (h : ctx.decl? "error" = none) :
      Denotes ctx ⟨none, "error", s⟩ (.named (some Ty.errorName))
  | any {s : Span} (h : ctx.decl? "any" = none) : Denotes ctx ⟨none, "any", s⟩ (.interface [] [])
  | imported {q name : String} {s : Span} {ref : ModuleRef} {decl : TypeDecl}
      (hq : ctx.imports.lookup q = some ref)
      (h : (ctx.deps.get? ref.path).bind (·.lookup? name) = some (.type decl)) :
      Denotes ctx ⟨some q, name, s⟩ (.named (some ⟨name, some ref⟩))

/-- Why a name stands for no type where it stands. -/
inductive Misuses (ctx : NameContext) : NameUse → NameError → Prop
  | unknown {name : String} {s : Span} (hdecl : ctx.decl? name = none)
      (hbasic : BasicKind.ofName? name = none) (herror : name ≠ "error") (hany : name ≠ "any") :
      Misuses ctx ⟨none, name, s⟩ (.undefined name)
  | function {name : String} {sig : SignatureExpr TypeExpr} {s span : Span}
    (h : ctx.decl? name = some (.func name sig span)) : Misuses ctx ⟨none, name, s⟩ (.notAType name)
  | unbound {q name : String} {s : Span} (h : ctx.imports.lookup q = none) :
    Misuses ctx ⟨some q, name, s⟩ (.undefined q)
  | absent {q name : String} {s : Span} {ref : ModuleRef} (hq : ctx.imports.lookup q = some ref)
    (h : (ctx.deps.get? ref.path).bind (·.lookup? name) = none) :
    Misuses ctx ⟨some q, name, s⟩ (.undefined (q ++ "." ++ name))
  | importedFunction {q name : String} {s : Span} {ref : ModuleRef} {decl : FuncDecl}
    (hq : ctx.imports.lookup q = some ref)
    (h : (ctx.deps.get? ref.path).bind (·.lookup? name) = some (.func decl)) :
    Misuses ctx ⟨some q, name, s⟩ (.notAType (q ++ "." ++ name))

variable {ctx : NameContext}

theorem localType_of_none {name : String} (h : ctx.decl? name = none) : ctx.localType name =
    match BasicKind.ofName? name with
    | some kind => .ok (.basic kind)
    | none =>
      if name = "error" then .ok (.named (some Ty.errorName))
      else if name = "any" then .ok (.interface [] [])
      else .error (.undefined name) := by
  cases hbasic : BasicKind.ofName? name <;> simp only [localType, h, hbasic]

theorem Denotes.namedType_eq {u : NameUse} {t : Ty} (h : ctx.Denotes u t) :
    ctx.namedType u.qualifier u.name = .ok t := by
  cases h with
  | declared h => rw [namedType, localType, h]
  | basic h => rw [namedType, localType_of_none h, BasicKind.ofName?_name]
  | error h =>
    have hbasic : BasicKind.ofName? "error" = none := by decide +kernel
    rw [namedType, localType_of_none h, hbasic]
    rfl
  | any h =>
    have hbasic : BasicKind.ofName? "any" = none := by decide +kernel
    rw [namedType, localType_of_none h, hbasic]
    rfl
  | imported hq h =>
    rw [namedType, importedType, hq]
    dsimp only
    rw [h]

theorem Misuses.namedType_eq {u : NameUse} {e : NameError} (h : ctx.Misuses u e) :
    ctx.namedType u.qualifier u.name = .error e := by
  cases h with
  | unknown hdecl hbasic herror hany =>
    rw [namedType, localType_of_none hdecl, hbasic, if_neg herror, if_neg hany]
  | function h => rw [namedType, localType, h]
  | unbound h => rw [namedType, importedType, h]
  | absent hq h | importedFunction hq h =>
    rw [namedType, importedType, hq]
    dsimp only
    rw [h]

/-- No name is left over: what does not denote a type is misused. -/
theorem denotes_or_misuses (ctx : NameContext) (u : NameUse) :
    (∃ t, ctx.Denotes u t) ∨ ∃ e, ctx.Misuses u e := by
  obtain ⟨q, name, s⟩ := u
  cases q with
  | none =>
    cases hdecl : ctx.decl? name with
    | some d =>
      obtain rfl : d.name = name := (decl?_eq_some hdecl).2
      cases d with
      | type => exact .inl ⟨_, .declared hdecl⟩
      | func => exact .inr ⟨_, .function hdecl⟩
    | none =>
      cases hbasic : BasicKind.ofName? name with
      | some kind =>
        obtain rfl : kind.name = name := by simpa using List.find?_some hbasic
        exact .inl ⟨_, .basic hdecl⟩
      | none =>
        by_cases herror : name = "error"
        · subst herror
          exact .inl ⟨_, .error hdecl⟩
        · by_cases hany : name = "any"
          · subst hany
            exact .inl ⟨_, .any hdecl⟩
          · exact .inr ⟨_, .unknown hdecl hbasic herror hany⟩
  | some q =>
    cases hq : ctx.imports.lookup q with
    | none => exact .inr ⟨_, .unbound hq⟩
    | some ref =>
      cases hobject : (ctx.deps.get? ref.path).bind (·.lookup? name) with
      | none => exact .inr ⟨_, .absent hq hobject⟩
      | some o =>
        cases o with
        | type decl => exact .inl ⟨_, .imported hq hobject⟩
        | func decl => exact .inr ⟨_, .importedFunction hq hobject⟩

theorem Misuses.not_denotes {u : NameUse} {e : NameError} (h : ctx.Misuses u e) (t : Ty) :
    ¬ ctx.Denotes u t := by
  intro ht
  have hsame := ht.namedType_eq.symm.trans h.namedType_eq
  cases hsame

/-- What is said of names one after the other: nothing of a name that denotes a type, and why of any
other. -/
inductive Complains (ctx : NameContext) : List NameUse → List Diagnostic → Prop
  | nil : Complains ctx [] []
  | meant {u : NameUse} {us : List NameUse} {ds : List Diagnostic} {t : Ty} (h : ctx.Denotes u t)
    (later : Complains ctx us ds) : Complains ctx (u :: us) ds
  | amiss {u : NameUse} {us : List NameUse} {ds : List Diagnostic} {e : NameError}
      (hnone : ∀ t, ¬ ctx.Denotes u t) (h : ctx.Misuses u e) (later : Complains ctx us ds) :
      Complains ctx (u :: us) ((Diagnostic.error e.message (some u.span)).inFile ctx.fileId :: ds)

theorem Complains.append {us vs : List NameUse} {ds es : List Diagnostic} (hu : ctx.Complains us ds)
    (hv : ctx.Complains vs es) : ctx.Complains (us ++ vs) (ds ++ es) := by
  induction hu with
  | nil => exact hv
  | meant h _ ih => exact .meant h ih
  | amiss hnone h _ ih => exact .amiss hnone h ih

theorem Complains.unique {us : List NameUse} {ds es : List Diagnostic} (h : ctx.Complains us ds)
    (h' : ctx.Complains us es) : ds = es := by
  induction h generalizing es with
  | nil =>
    cases h'
    rfl
  | meant h _ ih =>
    cases h' with
    | meant _ later => exact ih later
    | amiss hnone => exact absurd h (hnone _)
  | amiss hnone h _ ih =>
    cases h' with
    | meant ht => exact absurd ht (hnone _)
    | amiss _ he later =>
      cases h.namedType_eq.symm.trans he.namedType_eq
      rw [ih later]

theorem Complains.eq_nil_iff {us : List NameUse} {ds : List Diagnostic} (h : ctx.Complains us ds) :
    ds = [] ↔ ∀ u ∈ us, ∃ t, ctx.Denotes u t := by
  induction h with
  | nil => exact ⟨fun _ ↦ List.forall_mem_nil _, fun _ ↦ rfl⟩
  | meant h _ ih => rw [ih, List.forall_mem_cons, and_iff_right ⟨_, h⟩]
  | @amiss u us ds e hnone h _ ih =>
    refine ⟨fun hnil ↦ absurd hnil (List.cons_ne_nil _ _), fun hall ↦ ?_⟩
    obtain ⟨t, ht⟩ := hall u (List.mem_cons_self ..)
    exact absurd ht (hnone t)

end NameContext

namespace Checked

variable {α β γ : Type}

theorem problems_map (f : α → β) (c : Checked α) : problems (c.map f) = c.problems := by
  cases c <;> rfl

theorem problems_both (f : α → β → γ) (a : Checked α) (b : Checked β) :
    (both f a b).problems = a.problems ++ b.problems := by
  cases a <;> cases b <;> simp [both, problems]

theorem toOption_map (f : α → β) (c : Checked α) :
    Except.toOption (c.map f) = c.toOption.map f := by
  cases c <;> rfl

theorem toOption_both (f : α → β → γ) (a : Checked α) (b : Checked β) :
    (both f a b).toOption = a.toOption.bind fun x ↦ b.toOption.map (f x) := by
  cases a <;> cases b <;> rfl

theorem Reports.isSome_toOption_iff {c : Checked α} (h : c.Reports) :
    c.toOption.isSome ↔ c.problems = [] := by
  cases c with
  | ok a => exact ⟨fun _ ↦ rfl, fun _ ↦ rfl⟩
  | error ds =>
    refine ⟨fun hsome ↦ ?_, fun hnil ↦ absurd hnil (h ds rfl).1⟩
    cases hsome

end Checked

namespace NameContext

variable (ctx : NameContext)

mutual

theorem complains_typeOf (e : TypeExpr) : ctx.Complains e.uses (ctx.typeOf e).problems := by
  cases e with
  | name q name s =>
    rw [TypeExpr.uses, typeOf]
    rcases ctx.denotes_or_misuses ⟨q, name, s⟩ with ⟨t, ht⟩ | ⟨e, he⟩
    · rw [show ctx.namedType q name = .ok t from ht.namedType_eq]
      exact .meant ht .nil
    · rw [show ctx.namedType q name = .error e from he.namedType_eq]
      exact .amiss he.not_denotes he .nil
  | pointer elem s | slice elem s | array length elem s | chan dir elem s =>
    rw [TypeExpr.uses, typeOf, Checked.problems_map]
    exact complains_typeOf elem
  | map key elem s =>
    rw [TypeExpr.uses, typeOf, Checked.problems_both]
    exact (complains_typeOf key).append (complains_typeOf elem)
  | func sig s =>
    rw [TypeExpr.uses, typeOf, Checked.problems_map]
    exact complains_signatureOf sig
  | interface elements s =>
    rw [TypeExpr.uses, typeOf, Checked.problems_map]
    exact complains_elementsOf elements
  | struct fields s =>
    rw [TypeExpr.uses, typeOf, Checked.problems_map]
    exact complains_fieldsOf fields
termination_by structural e

theorem complains_signatureOf (sig : SignatureExpr TypeExpr) :
    ctx.Complains sig.uses (ctx.signatureOf sig).problems := by
  obtain ⟨params, results, span⟩ := sig
  rw [SignatureExpr.uses, signatureOf, Checked.problems_both]
  exact (complains_paramsOf params).append (complains_paramsOf results)
termination_by structural sig

theorem complains_paramsOf (params : List (ParamExpr TypeExpr)) :
    ctx.Complains (ParamExpr.allUses params) (ctx.paramsOf params).problems := by
  cases params with
  | nil =>
    rw [ParamExpr.allUses, paramsOf]
    exact .nil
  | cons p rest =>
    obtain ⟨name, type, variadic, span⟩ := p
    rw [ParamExpr.allUses, paramsOf, Checked.problems_both]
    exact (complains_typeOf type).append (complains_paramsOf rest)
termination_by structural params

theorem complains_elementsOf (elements : List (ElementExpr TypeExpr)) :
    ctx.Complains (ElementExpr.allUses elements) (ctx.elementsOf elements).problems := by
  cases elements with
  | nil =>
    rw [ElementExpr.allUses, elementsOf]
    exact .nil
  | cons e rest =>
    cases e with
    | method name sig span =>
      rw [ElementExpr.allUses, elementsOf, Checked.problems_both]
      exact (complains_signatureOf sig).append (complains_elementsOf rest)
    | embedded type =>
      rw [ElementExpr.allUses, elementsOf, Checked.problems_both]
      exact (complains_typeOf type).append (complains_elementsOf rest)
termination_by structural elements

theorem complains_fieldsOf (fields : List (FieldExpr TypeExpr)) :
    ctx.Complains (FieldExpr.allUses fields) (ctx.fieldsOf fields).problems := by
  cases fields with
  | nil =>
    rw [FieldExpr.allUses, fieldsOf]
    exact .nil
  | cons f rest =>
    obtain ⟨name, type, span⟩ := f
    rw [FieldExpr.allUses, fieldsOf, Checked.problems_both]
    exact (complains_typeOf type).append (complains_fieldsOf rest)
termination_by structural fields

end

theorem complains_objectOf (d : Decl) : ctx.Complains d.uses (ctx.objectOf d).problems := by
  cases d with
  | type name type span =>
    rw [Decl.uses, objectOf, Checked.problems_map]
    exact ctx.complains_typeOf type
  | func name sig span =>
    rw [Decl.uses, objectOf, Checked.problems_map]
    exact ctx.complains_signatureOf sig

end NameContext

end Understudy
