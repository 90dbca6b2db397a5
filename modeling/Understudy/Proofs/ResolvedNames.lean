import Understudy.Resolve

namespace Understudy

namespace Ty

mutual

def names : Ty → List (Option TypeName)
  | .basic _ => []
  | .pointer elem | .slice elem | .array _ elem | .chan _ elem => names elem
  | .map key elem => names key ++ names elem
  | .named name => [name]
  | .interface methods embedded => namesOfMethods methods ++ namesOfTypes embedded
  | .signature sig => namesOfSignature sig
  | .struct fields => namesOfVars fields
termination_by structural t => t

def namesOfSignature : Signature Ty → List (Option TypeName)
  | ⟨params, results, _⟩ => namesOfVars params ++ namesOfVars results
termination_by structural sig => sig

def namesOfVars : List (Var Ty) → List (Option TypeName)
  | [] => []
  | ⟨_, type⟩ :: rest => names type ++ namesOfVars rest
termination_by structural vars => vars

def namesOfMethods : List (Method Ty) → List (Option TypeName)
  | [] => []
  | ⟨_, sig⟩ :: rest => namesOfSignature sig ++ namesOfMethods rest
termination_by structural methods => methods

def namesOfTypes : List Ty → List (Option TypeName)
  | [] => []
  | t :: rest => names t ++ namesOfTypes rest
termination_by structural ts => ts

end

end Ty

def Object.names : Object → List (Option TypeName)
  | .type decl => decl.type.names
  | .func decl => Ty.namesOfSignature decl.sig

namespace Checked

variable {α β γ : Type}

theorem map_eq_ok {f : α → β} {a : Checked α} {b : β} (h : a.map f = .ok b) :
    ∃ x, a = .ok x ∧ f x = b := by
  cases a with
  | error e => cases h
  | ok x =>
    cases h
    exact ⟨x, rfl, rfl⟩

theorem both_eq_ok {f : α → β → γ} {a : Checked α} {b : Checked β} {c : γ}
    (h : both f a b = .ok c) : ∃ x y, a = .ok x ∧ b = .ok y ∧ f x y = c := by
  cases a <;> cases b <;> cases h
  exact ⟨_, _, rfl, rfl, rfl⟩

end Checked

namespace NameContext

section Names

variable {ctx : NameContext} {P : Option TypeName → Prop}

/-- What a name in the source means has only names with property `P` in it. -/
def Gives (ctx : NameContext) (P : Option TypeName → Prop) : Prop :=
  ∀ {q name t}, ctx.namedType q name = .ok t → ∀ n ∈ t.names, P n

mutual

theorem names_typeOf (hP : ctx.Gives P) {e : TypeExpr} {t : Ty} (h : ctx.typeOf e = .ok t) :
    ∀ n ∈ t.names, P n := by
  cases e with
  | name q name s =>
    rw [typeOf] at h
    split at h
    · cases h
      exact hP ‹_›
    · cases h
  | pointer elem s | slice elem s | array length elem s | chan dir elem s =>
    rw [typeOf] at h
    obtain ⟨u, hu, rfl⟩ := Checked.map_eq_ok h
    rw [Ty.names]
    exact names_typeOf hP hu
  | map key elem s =>
    rw [typeOf] at h
    obtain ⟨k, u, hk, hu, rfl⟩ := Checked.both_eq_ok h
    rw [Ty.names]
    exact List.forall_mem_append.2 ⟨names_typeOf hP hk, names_typeOf hP hu⟩
  | func sig s =>
    rw [typeOf] at h
    obtain ⟨u, hu, rfl⟩ := Checked.map_eq_ok h
    rw [Ty.names]
    exact names_signatureOf hP hu
  | interface elements s =>
    rw [typeOf] at h
    obtain ⟨⟨methods, embedded⟩, hu, rfl⟩ := Checked.map_eq_ok h
    rw [Ty.names]
    exact List.forall_mem_append.2 (names_elementsOf hP hu)
  | struct fields s =>
    rw [typeOf] at h
    obtain ⟨u, hu, rfl⟩ := Checked.map_eq_ok h
    rw [Ty.names]
    exact names_fieldsOf hP hu
termination_by structural e

theorem names_signatureOf (hP : ctx.Gives P) {sig : SignatureExpr TypeExpr} {s : Signature Ty}
    (h : ctx.signatureOf sig = .ok s) :
    ∀ n ∈ Ty.namesOfSignature s, P n := by
  obtain ⟨params, results, span⟩ := sig
  rw [signatureOf] at h
  obtain ⟨ps, rs, hps, hrs, rfl⟩ := Checked.both_eq_ok h
  rw [Ty.namesOfSignature]
  exact List.forall_mem_append.2 ⟨names_paramsOf hP hps, names_paramsOf hP hrs⟩
termination_by structural sig

theorem names_paramsOf (hP : ctx.Gives P) {params : List (ParamExpr TypeExpr)}
    {vars : List (Var Ty)} (h : ctx.paramsOf params = .ok vars) :
    ∀ n ∈ Ty.namesOfVars vars, P n := by
  cases params with
  | nil =>
    rw [paramsOf] at h
    cases h
    exact List.forall_mem_nil _
  | cons p rest =>
    obtain ⟨name, type, variadic, span⟩ := p
    rw [paramsOf] at h
    obtain ⟨t, vars, ht, hvars, rfl⟩ := Checked.both_eq_ok h
    rw [Ty.namesOfVars]
    have hnames : (if variadic then Ty.slice t else t).names = t.names := by cases variadic <;> rfl
    rw [hnames]
    exact List.forall_mem_append.2 ⟨names_typeOf hP ht, names_paramsOf hP hvars⟩
termination_by structural params

theorem names_elementsOf (hP : ctx.Gives P) {elements : List (ElementExpr TypeExpr)}
    {methods : List (Method Ty)} {embedded : List Ty}
    (h : ctx.elementsOf elements = .ok (methods, embedded)) :
    (∀ n ∈ Ty.namesOfMethods methods, P n) ∧ ∀ n ∈ Ty.namesOfTypes embedded, P n := by
  cases elements with
  | nil =>
    rw [elementsOf] at h
    cases h
    exact ⟨List.forall_mem_nil _, List.forall_mem_nil _⟩
  | cons e rest =>
    cases e with
    | method name sig span =>
      rw [elementsOf] at h
      obtain ⟨s, ⟨ms, es⟩, hs, hrest, hm⟩ := Checked.both_eq_ok h
      cases hm
      have hlater := names_elementsOf hP hrest
      rw [Ty.namesOfMethods]
      exact ⟨List.forall_mem_append.2 ⟨names_signatureOf hP hs, hlater.1⟩, hlater.2⟩
    | embedded type =>
      rw [elementsOf] at h
      obtain ⟨t, ⟨ms, es⟩, ht, hrest, hm⟩ := Checked.both_eq_ok h
      cases hm
      have hlater := names_elementsOf hP hrest
      rw [Ty.namesOfTypes]
      exact ⟨hlater.1, List.forall_mem_append.2 ⟨names_typeOf hP ht, hlater.2⟩⟩
termination_by structural elements

theorem names_fieldsOf (hP : ctx.Gives P) {fields : List (FieldExpr TypeExpr)}
    {vars : List (Var Ty)} (h : ctx.fieldsOf fields = .ok vars) :
    ∀ n ∈ Ty.namesOfVars vars, P n := by
  cases fields with
  | nil =>
    rw [fieldsOf] at h
    cases h
    exact List.forall_mem_nil _
  | cons f rest =>
    obtain ⟨name, type, span⟩ := f
    rw [fieldsOf] at h
    obtain ⟨t, vars, ht, hvars, rfl⟩ := Checked.both_eq_ok h
    rw [Ty.namesOfVars]
    exact List.forall_mem_append.2 ⟨names_typeOf hP ht, names_fieldsOf hP hvars⟩
termination_by structural fields

end

end Names

end NameContext

namespace Checked

variable {α β γ : Type}

/-- Whatever is wrong is reported, and all that is reported is names without a meaning. -/
def Reports (c : Checked α) : Prop :=
  ∀ ds, c = .error ds → ds ≠ [] ∧ ∀ d ∈ ds, ∃ e : NameError, d.message = e.message

theorem Reports.map {a : Checked α} (ha : a.Reports) (f : α → β) : Reports (a.map f) := by
  intro ds h
  cases a with
  | error e =>
    cases h
    exact ha _ rfl
  | ok x => cases h

theorem Reports.both {a : Checked α} {b : Checked β} (ha : a.Reports) (hb : b.Reports)
    (f : α → β → γ) : (Checked.both f a b).Reports := by
  intro ds h
  cases a with
  | ok x =>
    cases b with
    | ok y => cases h
    | error e =>
      cases h
      exact hb _ rfl
  | error d =>
    cases b with
    | ok y =>
      cases h
      exact ha _ rfl
    | error e =>
      cases h
      obtain ⟨hne, hnames⟩ := ha _ rfl
      exact ⟨List.append_ne_nil_of_left_ne_nil hne _,
        List.forall_mem_append.2 ⟨hnames, (hb _ rfl).2⟩⟩

theorem reports_ok (a : α) : Checked.Reports (.ok a) := by
  intro ds h
  cases h

end Checked

namespace NameContext

variable (ctx : NameContext)

mutual

theorem reports_typeOf (e : TypeExpr) : (ctx.typeOf e).Reports := by
  cases e with
  | name q name s =>
    rw [typeOf]
    split
    · exact Checked.reports_ok _
    · rename_i e _
      intro ds h
      cases h
      exact ⟨List.cons_ne_nil _ _, List.forall_mem_singleton.2 ⟨e, rfl⟩⟩
  | pointer elem s | slice elem s | array length elem s | chan dir elem s =>
    rw [typeOf]
    exact (reports_typeOf elem).map _
  | map key elem s =>
    rw [typeOf]
    exact (reports_typeOf key).both (reports_typeOf elem) _
  | func sig s =>
    rw [typeOf]
    exact (reports_signatureOf sig).map _
  | interface elements s =>
    rw [typeOf]
    exact (reports_elementsOf elements).map _
  | struct fields s =>
    rw [typeOf]
    exact (reports_fieldsOf fields).map _
termination_by structural e

theorem reports_signatureOf (sig : SignatureExpr TypeExpr) : (ctx.signatureOf sig).Reports := by
  obtain ⟨params, results, span⟩ := sig
  rw [signatureOf]
  exact (reports_paramsOf params).both (reports_paramsOf results) _
termination_by structural sig

theorem reports_paramsOf (params : List (ParamExpr TypeExpr)) : (ctx.paramsOf params).Reports := by
  cases params with
  | nil =>
    rw [paramsOf]
    exact Checked.reports_ok _
  | cons p rest =>
    obtain ⟨name, type, variadic, span⟩ := p
    rw [paramsOf]
    exact (reports_typeOf type).both (reports_paramsOf rest) _
termination_by structural params

theorem reports_elementsOf (elements : List (ElementExpr TypeExpr)) :
    (ctx.elementsOf elements).Reports := by
  cases elements with
  | nil =>
    rw [elementsOf]
    exact Checked.reports_ok _
  | cons e rest =>
    cases e with
    | method name sig span =>
      rw [elementsOf]
      exact (reports_signatureOf sig).both (reports_elementsOf rest) _
    | embedded type =>
      rw [elementsOf]
      exact (reports_typeOf type).both (reports_elementsOf rest) _
termination_by structural elements

theorem reports_fieldsOf (fields : List (FieldExpr TypeExpr)) : (ctx.fieldsOf fields).Reports := by
  cases fields with
  | nil =>
    rw [fieldsOf]
    exact Checked.reports_ok _
  | cons f rest =>
    obtain ⟨name, type, span⟩ := f
    rw [fieldsOf]
    exact (reports_typeOf type).both (reports_fieldsOf rest) _
termination_by structural fields

end

theorem reports_objectOf (d : Decl) : (ctx.objectOf d).Reports := by
  cases d with
  | type name type span => exact (reports_typeOf ctx type).map _
  | func name sig span => exact (reports_signatureOf ctx sig).map _

variable {ctx}

theorem name_objectOf {d : Decl} {o : Object} (h : ctx.objectOf d = .ok o) : o.name = d.name := by
  cases d with
  | type name type span =>
    obtain ⟨t, -, rfl⟩ := Checked.map_eq_ok h
    rfl
  | func name sig span =>
    obtain ⟨s, -, rfl⟩ := Checked.map_eq_ok h
    rfl

theorem names_objectOf {P : Option TypeName → Prop} (hP : ctx.Gives P) {d : Decl} {o : Object}
    (h : ctx.objectOf d = .ok o) : ∀ n ∈ o.names, P n := by
  cases d with
  | type name type span =>
    obtain ⟨t, ht, rfl⟩ := Checked.map_eq_ok h
    exact names_typeOf hP ht
  | func name sig span =>
    obtain ⟨s, hs, rfl⟩ := Checked.map_eq_ok h
    exact names_signatureOf hP hs

/-- What the names that a context gives a meaning stand for. -/
inductive Source (ctx : NameContext) : Option TypeName → Prop
  | error : Source ctx (some Ty.errorName)
  | own {name : String} {t : TypeExpr} {s : Span} (h : ctx.decl? name = some (.type name t s)) :
    Source ctx (some ⟨name, some ctx.self⟩)
  | imported {q name : String} {ref : ModuleRef} {decl : TypeDecl}
      (hq : ctx.imports.lookup q = some ref)
      (hd : (ctx.deps.get? ref.path).bind (·.lookup? name) = some (.type decl)) :
      Source ctx (some ⟨name, some ref⟩)

theorem decl?_eq_some {name : String} {d : Decl} (h : ctx.decl? name = some d) :
    d ∈ ctx.decls ∧ d.name = name := by
  refine ⟨List.mem_reverse.1 (List.mem_of_find?_eq_some h), ?_⟩
  simpa using List.find?_some h

theorem gives_source (ctx : NameContext) : ctx.Gives ctx.Source := by
  intro q name t h
  cases q with
  | none =>
    rw [namedType, localType] at h
    split at h
    · rename_i n e s hd
      obtain rfl : n = name := (decl?_eq_some hd).2
      cases h
      exact fun n hn ↦ List.mem_singleton.1 hn ▸ .own hd
    · cases h
    · split at h
      · cases h
        exact List.forall_mem_nil _
      · split at h
        · cases h
          exact fun n hn ↦ List.mem_singleton.1 hn ▸ .error
        · split at h
          · cases h
            exact List.forall_mem_nil _
          · cases h
  | some q =>
    rw [namedType, importedType] at h
    split at h
    · cases h
    · split at h
      · cases h
        exact fun n hn ↦ List.mem_singleton.1 hn ▸ .imported ‹_› ‹_›
      · cases h
      · cases h

end NameContext

end Understudy
