import Understudy.Proofs.TypeSpans

namespace Understudy

def Span.nowhere : Span := ⟨0, 0⟩

mutual

/-- A type that covers no text, and nothing in it does. -/
def TypeExpr.unplaced : TypeExpr → TypeExpr
  | .name qualifier name _ => .name qualifier name .nowhere
  | .pointer elem _ => .pointer elem.unplaced .nowhere
  | .slice elem _ => .slice elem.unplaced .nowhere
  | .array length elem _ => .array length elem.unplaced .nowhere
  | .map key elem _ => .map key.unplaced elem.unplaced .nowhere
  | .chan dir elem _ => .chan dir elem.unplaced .nowhere
  | .func sig _ => .func sig.unplaced .nowhere
  | .interface elements _ => .interface (ElementExpr.allUnplaced elements) .nowhere
  | .struct fields _ => .struct (FieldExpr.allUnplaced fields) .nowhere
termination_by structural t => t

def SignatureExpr.unplaced : SignatureExpr TypeExpr → SignatureExpr TypeExpr
  | ⟨params, results, _⟩ => ⟨ParamExpr.allUnplaced params, ParamExpr.allUnplaced results, .nowhere⟩
termination_by structural sig => sig

def ParamExpr.allUnplaced : List (ParamExpr TypeExpr) → List (ParamExpr TypeExpr)
  | [] => []
  | ⟨name, type, variadic, _⟩ :: rest =>
    ⟨name, type.unplaced, variadic, .nowhere⟩ :: ParamExpr.allUnplaced rest
termination_by structural ps => ps

def ElementExpr.allUnplaced : List (ElementExpr TypeExpr) → List (ElementExpr TypeExpr)
  | [] => []
  | .method name sig _ :: rest => .method name sig.unplaced .nowhere :: ElementExpr.allUnplaced rest
  | .embedded type :: rest => .embedded type.unplaced :: ElementExpr.allUnplaced rest
termination_by structural es => es

def FieldExpr.allUnplaced : List (FieldExpr TypeExpr) → List (FieldExpr TypeExpr)
  | [] => []
  | ⟨name, type, _⟩ :: rest => ⟨name, type.unplaced, .nowhere⟩ :: FieldExpr.allUnplaced rest
termination_by structural fs => fs

end

def ParamExpr.unplaced (p : ParamExpr TypeExpr) : ParamExpr TypeExpr :=
  ⟨p.name, p.type.unplaced, p.variadic, .nowhere⟩

def ElementExpr.unplaced : ElementExpr TypeExpr → ElementExpr TypeExpr
  | .method name sig _ => .method name sig.unplaced .nowhere
  | .embedded type => .embedded type.unplaced

def FieldExpr.unplaced (f : FieldExpr TypeExpr) : FieldExpr TypeExpr :=
  ⟨f.name, f.type.unplaced, .nowhere⟩

def ImportSpec.unplaced (i : ImportSpec) : ImportSpec := ⟨i.qualifier, i.path, .nowhere⟩

def Decl.unplaced : Decl → Decl
  | .type name expr _ => .type name expr.unplaced .nowhere
  | .func name sig _ => .func name sig.unplaced .nowhere

def SourceFile.unplaced (f : SourceFile) : SourceFile :=
  ⟨f.package, f.imports.map ImportSpec.unplaced, f.decls.map Decl.unplaced⟩

theorem ParamExpr.allUnplaced_eq (ps : List (ParamExpr TypeExpr)) :
    allUnplaced ps = ps.map unplaced := by
  induction ps with
  | nil => rfl
  | cons p rest ih => rw [allUnplaced, List.map_cons, ih, unplaced]

theorem ElementExpr.allUnplaced_eq (es : List (ElementExpr TypeExpr)) :
    allUnplaced es = es.map unplaced := by
  induction es with
  | nil => rfl
  | cons e rest ih => cases e <;> rw [allUnplaced, List.map_cons, ih, unplaced]

theorem FieldExpr.allUnplaced_eq (fs : List (FieldExpr TypeExpr)) :
    allUnplaced fs = fs.map unplaced := by
  induction fs with
  | nil => rfl
  | cons f rest ih => rw [allUnplaced, List.map_cons, ih, unplaced]

theorem SignatureExpr.unplaced_mk (params results : List (ParamExpr TypeExpr)) (s : Span) :
    unplaced ⟨params, results, s⟩ = ⟨params.map ParamExpr.unplaced, results.map ParamExpr.unplaced,
      .nowhere⟩ := by
  rw [unplaced, ParamExpr.allUnplaced_eq, ParamExpr.allUnplaced_eq]

namespace Reader

variable {pending : List (String × Span)} {xs ps : List (ParamExpr TypeExpr)}

theorem exists_of_unplaced_eq_name {e : TypeExpr} {name : String} {s : Span}
    (h : e.unplaced = .name none name s) : ∃ s', e = .name none name s' := by
  cases e <;> simp_all [TypeExpr.unplaced]

theorem shareTypes_unplaced :
    (shareTypes (pending.map fun w ↦ (w.1, .nowhere)) (xs.map ParamExpr.unplaced)).toOption =
      (shareTypes pending xs).toOption.map (·.map ParamExpr.unplaced) := by
  fun_induction shareTypes pending xs with
  | case1 => rfl
  | case2 => rfl
  | case3 pending entry rest name hname hlast =>
    rw [List.map_cons, shareTypes]
    simp [ParamExpr.unplaced, hname, hlast, Except.toOption]
  | case4 pending entry rest name hname hlast d hd ih =>
    rw [hd] at ih
    rw [List.map_cons, shareTypes]
    simp only [ParamExpr.unplaced, hname, List.isEmpty_map]
    rw [if_neg hlast]
    cases h : shareTypes [] (rest.map ParamExpr.unplaced) with
    | ok => simp [h, Except.toOption] at ih
    | error => rfl
  | case5 pending entry rest name hname hlast later hlater ih =>
    rw [hlater] at ih
    rw [List.map_cons, shareTypes]
    simp only [ParamExpr.unplaced, hname, List.isEmpty_map]
    rw [if_neg hlast]
    cases h : shareTypes [] (rest.map ParamExpr.unplaced) with
    | error => simp [h, Except.toOption] at ih
    | ok later' =>
      simp only [List.map_nil, h, Except.toOption, Option.map_some, Option.some.injEq] at ih
      simp [Except.toOption, ih, ParamExpr.unplaced, hname, Function.comp_def]
  | case6 pending entry rest hname name span hvariadic htype ih =>
    rw [List.map_cons, shareTypes]
    simpa [ParamExpr.unplaced, hname, htype, hvariadic, TypeExpr.unplaced] using ih
  | case7 pending entry rest hname hbare =>
    rw [List.map_cons, shareTypes]
    simp only [ParamExpr.unplaced, hname]
    split
    · rename_i name s htype hvariadic
      obtain ⟨s', hs'⟩ := exists_of_unplaced_eq_name htype
      exact absurd hvariadic (hbare name s' hs')
    · rfl

theorem groupParams_unplaced :
    (groupParams (xs.map ParamExpr.unplaced)).toOption = (groupParams xs).toOption.map
    (·.map ParamExpr.unplaced) := by
  have hall : (xs.map ParamExpr.unplaced).all (·.name.isNone) = xs.all (·.name.isNone) := by
    rw [List.all_map]
    rfl
  have hfind : (xs.map ParamExpr.unplaced).dropLast.find? (·.variadic) =
      (xs.dropLast.find? (·.variadic)).map ParamExpr.unplaced := by
    rw [← List.map_dropLast, List.find?_map]
    rfl
  rw [groupParams, groupParams, hall, hfind]
  cases xs.dropLast.find? (·.variadic) with
  | some entry => rfl
  | none =>
    simp only [Option.map_none]
    split
    · rfl
    · exact @shareTypes_unplaced [] xs

theorem exists_of_groupParams_unplaced (h : groupParams (xs.map ParamExpr.unplaced) = .ok ps) :
    ∃ qs, groupParams xs = .ok qs ∧ qs.map ParamExpr.unplaced = ps := by
  have hboth := @groupParams_unplaced xs
  rw [h] at hboth
  cases hgroup : groupParams xs with
  | error d => simp [hgroup, Except.toOption] at hboth
  | ok qs => exact ⟨qs, rfl, by simpa [hgroup, Except.toOption, eq_comm] using hboth⟩

end Reader

end Understudy
