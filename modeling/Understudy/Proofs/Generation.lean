import Mathlib.Data.List.Forall2
import Understudy.Fake

namespace Understudy

namespace ImportRegistry

variable {r r' : ImportRegistry}

theorem isDestination_markReferenced (r : ImportRegistry) (path other : String) :
    (r.markReferenced path).isDestination other = r.isDestination other := rfl

theorem isDestination_foldl_markReferenced (r : ImportRegistry) (paths : List String)
    (other : String) :
    (paths.foldl markReferenced r).isDestination other = r.isDestination other := by
  induction paths generalizing r with
  | nil => rfl
  | cons path rest ih => exact ih (r.markReferenced path)

theorem entry?_markReferenced (r : ImportRegistry) (path other : String) :
    entry? (r.markReferenced path) other = (r.entry? other).map fun i ↦
      if i.path = ModulePath.registered path then { i with referenced := true } else i := by
  rw [markReferenced, entry?, entry?, List.find?_map]
  congr 2
  funext i
  dsimp only [Function.comp]
  split <;> rfl

theorem find?_markReferenced (r : ImportRegistry) (path other : String) :
    ((r.markReferenced path).find? other).map (·.qualifier) =
      (r.find? other).map (·.qualifier) := by
  rw [find?, find?, entry?_markReferenced, Option.map_map]
  congr 1
  funext i
  dsimp only [Function.comp]
  split <;> rfl

theorem exists_find?_markReferenced {other : String} {i : Import} (h : r.find? other = some i)
    (path : String) : ∃ j, (r.markReferenced path).find? other = some j := by
  rw [find?] at h ⊢
  rw [entry?_markReferenced, h]
  exact ⟨_, rfl⟩

theorem spell_eq (r : ImportRegistry) (name : TypeName) :
    r.spell name = match name.module with
      | none => name.name
      | some m =>
        if r.isDestination m.path then name.name
        else (((r.find? m.path).map (·.qualifier)).map (· ++ "." ++ name.name)).getD name.name := by
  rw [spell, qualifierOf?]
  cases name.module with
  | none => rfl
  | some m =>
    dsimp only
    cases hd : r.isDestination m.path with
    | true => rfl
    | false =>
      simp only [Bool.false_eq_true, if_false]
      cases r.find? m.path <;> rfl

theorem spell_markReferenced (r : ImportRegistry) (path : String) :
    (r.markReferenced path).spell = r.spell := by
  funext name
  rw [spell_eq, spell_eq]
  simp only [isDestination_markReferenced, find?_markReferenced]

theorem render_congr (h : r.spell = r'.spell) (t : Ty) : r.render t = r'.render t := by
  cases t with
  | pointer elem | slice elem | array length elem | chan dir elem =>
    rw [render, render, render_congr h elem]
  | map key elem => rw [render, render, render_congr h key, render_congr h elem]
  | named name =>
    cases name with
    | none => rfl
    | some name => rw [render, render, h]
  | _ => rfl
termination_by structural t

end ImportRegistry

/-- How a parameter is written, where a type may be written with some texts. -/
inductive Param.Shows (isText : Ty → String → Prop) (v : Var Ty) : Param → Prop
  | single {text : String} (h : isText v.type text) : Shows isText v ⟨v.name, text, false⟩
  | collecting {elem : Ty} {text : String} (hv : v.type = .slice elem) (h : isText elem text) :
    Shows isText v ⟨v.name, "..." ++ text, true⟩
  | variadic {text : String} (hv : ∀ elem, v.type ≠ .slice elem) (h : isText v.type text) :
    Shows isText v ⟨v.name, text, true⟩

/-- Each parameter is written in its place, and the last one alone may be variadic. -/
structure Param.ShowsAll (isText : Ty → String → Prop) (variadic : Bool) (vars : List (Var Ty))
    (params : List Param) : Prop where
  each : List.Forall₂ (Shows isText) vars params
  others : ∀ p ∈ params.dropLast, p.variadic = false
  last : ∀ p ∈ params.getLast?, p.variadic = variadic

structure FakeMethod.Shows (isText : Ty → String → Prop) (m : Method Ty) (f : FakeMethod) :
    Prop where
  name : f.name = m.name
  params : Param.ShowsAll isText m.sig.variadic m.sig.params f.params
  results : Param.ShowsAll isText false m.sig.results f.results

namespace Fake

open ImportRegistry

variable {r r' : ImportRegistry}

theorem renderVars_concat (r : ImportRegistry) (variadic : Bool) (init : List (Var Ty))
    (v : Var Ty) :
    renderVars r variadic (init ++ [v]) = init.map (fun w ↦ ⟨w.name, r.render w.type, false⟩) ++
      [⟨v.name, if variadic then variadicText r v.type else r.render v.type, variadic⟩] := by
  induction init with
  | nil => rfl
  | cons w rest ih =>
    cases rest with
    | nil => rfl
    | cons x rest =>
      change _ :: renderVars r variadic (x :: rest ++ [v]) = _
      rw [ih]
      rfl

theorem renderVars_false (r : ImportRegistry) (vars : List (Var Ty)) :
    renderVars r false vars = vars.map fun v ↦ ⟨v.name, r.render v.type, false⟩ := by
  rcases List.eq_nil_or_concat vars with rfl | ⟨init, v, rfl⟩
  · rfl
  · rw [List.concat_eq_append, renderVars_concat, List.map_append]
    rfl

section Shown

variable {isText : Ty → String → Prop}

theorem shows_variadicText {v : Var Ty}
    (h : ∀ t, t.leaves = v.type.leaves → isText t (r.render t)) :
    Param.Shows isText v ⟨v.name, variadicText r v.type, true⟩ := by
  by_cases hv : ∃ elem, v.type = .slice elem
  · obtain ⟨elem, hv⟩ := hv
    have htext : variadicText r v.type = "..." ++ r.render elem := by rw [hv, variadicText]
    rw [htext]
    exact .collecting hv (h elem (by rw [hv, Ty.leaves]))
  · have hne : ∀ elem, v.type ≠ .slice elem := fun elem he ↦ hv ⟨elem, he⟩
    have htext : variadicText r v.type = r.render v.type := by
      unfold variadicText
      split
      · exact absurd ‹_› (hne _)
      · rfl
    rw [htext]
    exact .variadic hne (h v.type rfl)

theorem showsAll_renderVars {vars : List (Var Ty)} (variadic : Bool)
    (h : ∀ v ∈ vars, ∀ t, t.leaves = v.type.leaves → isText t (r.render t)) :
    Param.ShowsAll isText variadic vars (renderVars r variadic vars) := by
  rcases List.eq_nil_or_concat vars with rfl | ⟨init, v, rfl⟩
  · exact ⟨.nil, nofun, nofun⟩
  · rw [List.concat_eq_append] at h ⊢
    rw [renderVars_concat]
    refine ⟨?_, ?_, ?_⟩
    · refine List.rel_append ?_ (.cons ?_ .nil)
      · rw [List.forall₂_map_right_iff, List.forall₂_same]
        exact fun w hw ↦ .single (h w (List.mem_append_left _ hw) w.type rfl)
      · cases variadic with
        | false => exact .single (h v (by simp) v.type rfl)
        | true => exact shows_variadicText (h v (by simp))
    · rw [List.dropLast_concat]
      simp
    · rw [List.getLast?_concat]
      simp

/-- A method has the name of the one that it is written for, all of its parameters and results, and
texts of their types, if the imports give such texts to what they consist of. -/
theorem shows_renderMethod {m : Method Ty}
    (h : ∀ v ∈ m.sig.params ++ m.sig.results, ∀ t, t.leaves = v.type.leaves →
      isText t (r.render t)) : FakeMethod.Shows isText m (renderMethod r m) where
  name := rfl
  params := showsAll_renderVars _ fun v hv ↦ h v (List.mem_append_left _ hv)
  results := showsAll_renderVars _ fun v hv ↦ h v (List.mem_append_right _ hv)

end Shown

theorem renderVars_congr (h : r.spell = r'.spell) (variadic : Bool) (vars : List (Var Ty)) :
    renderVars r variadic vars = renderVars r' variadic vars := by
  have hrender : r.render = r'.render := funext (render_congr h)
  induction vars with
  | nil => rfl
  | cons v rest ih =>
    cases rest with
    | nil =>
      have hvariadic : variadicText r v.type = variadicText r' v.type := by
        unfold variadicText
        split <;> rw [hrender]
      rw [renderVars, renderVars, hvariadic, hrender]
    | cons w rest =>
      change ⟨v.name, r.render v.type, false⟩ :: renderVars r variadic (w :: rest) =
        ⟨v.name, r'.render v.type, false⟩ :: renderVars r' variadic (w :: rest)
      rw [ih, hrender]

theorem renderMethod_congr (h : r.spell = r'.spell) (m : Method Ty) :
    renderMethod r m = renderMethod r' m := by
  rw [renderMethod, renderMethod, renderVars_congr h, renderVars_congr h]

/-- What holds once all modules are registered, and is not changed by marking imports, holds of the
final imports. -/
theorem imports_ofMethods {P : ImportRegistry → Prop}
    (hmark : ∀ r path, P r → P (r.markReferenced path)) {options : FakeOptions} {target : Target}
    {registry : ImportRegistry} {methods : List (Method Ty)}
    (h : P ((writtenTypes methods).foldl registerType registry)) :
    P (ofMethods options target registry methods).imports := by
  have hfoldl : ∀ (paths : List String) (r : ImportRegistry), P r →
      P (paths.foldl markReferenced r) := by
    intro paths
    induction paths with
    | nil => exact fun r hr ↦ hr
    | cons path rest ih => exact fun r hr ↦ ih _ (hmark r path hr)
  rw [ofMethods]
  dsimp only
  split
  · exact hfoldl _ _ h
  · exact hmark _ _ (hfoldl _ _ h)

theorem methods_ofMethods (options : FakeOptions) (target : Target) (registry : ImportRegistry)
    (methods : List (Method Ty)) : (ofMethods options target registry methods).methods =
      methods.map (renderMethod (ofMethods options target registry methods).imports) := by
  have hspell : (ofMethods options target registry methods).imports.spell =
      ((writtenTypes methods).foldl registerType registry).spell :=
    imports_ofMethods (P := fun r ↦ r.spell = _)
      (fun r path h ↦ (r.spell_markReferenced path).trans h) rfl
  exact List.map_congr_left fun m _ ↦ renderMethod_congr hspell.symm m

variable {s : ModuleSet} {name : String} {options : FakeOptions} {fake : Fake}

theorem exists_of_outcome {α : Type} {g : Generation} {f : Fake → α} {a : α}
    (h : g.outcome.toOption.map f = some a) : ∃ fake, g.outcome = .ok fake ∧ f fake = a := by
  cases hout : g.outcome with
  | error e =>
    rw [hout] at h
    cases h
  | ok fake =>
    rw [hout] at h
    exact ⟨fake, rfl, Option.some.inj h⟩

theorem exists_of_generate (h : (generate s name options).outcome = .ok fake) :
    ∃ target methods problems, Target.find? s (Text.trim name) = some target ∧
      methodsFor? s target = some (methods, problems) ∧
      fake = ofMethods options target
        ((forDestination options.destination).register target.module.name target.module.path)
        methods := by
  rw [generate, Target.locate] at h
  cases htarget : Target.find? s (Text.trim name) with
  | none =>
    rw [htarget] at h
    cases h
  | some target =>
    rw [htarget] at h
    dsimp only at h
    split at h
    · cases h
    · rename_i methods problems hmethods
      cases h
      exact ⟨target, methods, problems, rfl, hmethods, rfl⟩

theorem methodsFor?_interface {target : Target} {methods : List (Method Ty)}
    {problems : List Diagnostic} (h : methodsFor? s target = some (methods, problems))
    (hkind : target.kind = .interface) :
    ∃ own embedded, s.underlying? target.decl.type = some (.interface own embedded) ∧
      methods = Ty.methodSet (Ty.expansion s own embedded).methods ∧
      problems = (Ty.expansion s own embedded).problems := by
  rw [methodsFor?, hkind] at h
  split at h
  · cases h
    exact ⟨_, _, ‹_›, rfl, rfl⟩
  · rename_i heq _
    cases heq
  · cases h

end Fake

end Understudy
