import Mathlib.Data.List.Forall2
import Understudy.Proofs.ReadDeclarations
import Understudy.Proofs.ResolvedNames

namespace Understudy

namespace Ty

mutual

def signatures : Ty → List (Signature Ty)
  | .basic _ | .named _ => []
  | .pointer elem | .slice elem | .array _ elem | .chan _ elem => signatures elem
  | .map key elem => signatures key ++ signatures elem
  | .interface methods embedded => signaturesOfMethods methods ++ signaturesOfTypes embedded
  | .signature sig => signaturesIn sig
  | .struct fields => signaturesOfVars fields
termination_by structural t => t

def signaturesIn : Signature Ty → List (Signature Ty)
  | ⟨params, results, variadic⟩ =>
    ⟨params, results, variadic⟩ :: (signaturesOfVars params ++ signaturesOfVars results)
termination_by structural sig => sig

def signaturesOfVars : List (Var Ty) → List (Signature Ty)
  | [] => []
  | ⟨_, type⟩ :: rest => signatures type ++ signaturesOfVars rest
termination_by structural vars => vars

def signaturesOfMethods : List (Method Ty) → List (Signature Ty)
  | [] => []
  | ⟨_, sig⟩ :: rest => signaturesIn sig ++ signaturesOfMethods rest
termination_by structural methods => methods

def signaturesOfTypes : List Ty → List (Signature Ty)
  | [] => []
  | t :: rest => signatures t ++ signaturesOfTypes rest
termination_by structural ts => ts

end

theorem signaturesOfTypes_eq (ts : List Ty) : signaturesOfTypes ts = ts.flatMap signatures := by
  induction ts with
  | nil => rfl
  | cons t rest ih => rw [signaturesOfTypes, List.flatMap_cons, ih]

theorem signaturesOfMethods_eq (methods : List (Method Ty)) :
    signaturesOfMethods methods = methods.flatMap fun m ↦ signaturesIn m.sig := by
  induction methods with
  | nil => rfl
  | cons m rest ih => rw [signaturesOfMethods, List.flatMap_cons, ih]

theorem mem_signaturesIn (sig : Signature Ty) : sig ∈ signaturesIn sig := by
  rw [signaturesIn]
  exact List.mem_cons_self ..

end Ty

def Object.signatures : Object → List (Signature Ty)
  | .type decl => decl.type.signatures
  | .func decl => Ty.signaturesIn decl.sig

namespace NameContext

variable {ctx : NameContext}

def Resolves (ctx : NameContext) (written : SignatureExpr TypeExpr) (sig : Signature Ty) : Prop :=
  ctx.signatureOf written = .ok sig

theorem signatures_namedType {q : Option String} {name : String} {t : Ty}
    (h : ctx.namedType q name = .ok t) : t.signatures = [] := by
  cases q with
  | none =>
    rw [namedType, localType] at h
    split at h
    · cases h
      rfl
    · cases h
    · split at h
      · cases h
        rfl
      · split at h
        · cases h
          rfl
        · split at h
          · cases h
            rfl
          · cases h
  | some q =>
    rw [namedType, importedType] at h
    split at h
    · cases h
    · split at h
      · cases h
        rfl
      · cases h
      · cases h

mutual

theorem resolves_typeOf {e : TypeExpr} {t : Ty} (h : ctx.typeOf e = .ok t) :
    List.Forall₂ ctx.Resolves e.signatures t.signatures := by
  cases e with
  | name q name s =>
    rw [typeOf] at h
    split at h
    · cases h
      rw [signatures_namedType ‹_›, TypeExpr.signatures]
      exact .nil
    · cases h
  | pointer elem s | slice elem s | array length elem s | chan dir elem s =>
    rw [typeOf] at h
    obtain ⟨u, hu, rfl⟩ := Checked.map_eq_ok h
    rw [TypeExpr.signatures, Ty.signatures]
    exact resolves_typeOf hu
  | map key elem s =>
    rw [typeOf] at h
    obtain ⟨k, u, hk, hu, rfl⟩ := Checked.both_eq_ok h
    rw [TypeExpr.signatures, Ty.signatures]
    exact List.rel_append (resolves_typeOf hk) (resolves_typeOf hu)
  | func sig s =>
    rw [typeOf] at h
    obtain ⟨u, hu, rfl⟩ := Checked.map_eq_ok h
    rw [TypeExpr.signatures, Ty.signatures]
    exact resolves_signatureOf hu
  | interface elements s =>
    rw [typeOf] at h
    obtain ⟨⟨methods, embedded⟩, hu, rfl⟩ := Checked.map_eq_ok h
    rw [TypeExpr.signatures, Ty.signatures]
    exact List.rel_append (resolves_elementsOf hu).1 (resolves_elementsOf hu).2
  | struct fields s =>
    rw [typeOf] at h
    obtain ⟨u, hu, rfl⟩ := Checked.map_eq_ok h
    rw [TypeExpr.signatures, Ty.signatures]
    exact resolves_fieldsOf hu
termination_by structural e

theorem resolves_signatureOf {sig : SignatureExpr TypeExpr} {s : Signature Ty}
    (h : ctx.signatureOf sig = .ok s) :
    List.Forall₂ ctx.Resolves sig.signatures (Ty.signaturesIn s) := by
  obtain ⟨params, results, span⟩ := sig
  have hself : ctx.Resolves ⟨params, results, span⟩ s := h
  rw [signatureOf] at h
  obtain ⟨ps, rs, hps, hrs, rfl⟩ := Checked.both_eq_ok h
  rw [SignatureExpr.signatures, Ty.signaturesIn]
  exact .cons hself (List.rel_append (resolves_paramsOf hps) (resolves_paramsOf hrs))
termination_by structural sig

theorem resolves_paramsOf {params : List (ParamExpr TypeExpr)} {vars : List (Var Ty)}
    (h : ctx.paramsOf params = .ok vars) :
    List.Forall₂ ctx.Resolves (ParamExpr.allSignatures params) (Ty.signaturesOfVars vars) := by
  cases params with
  | nil =>
    rw [paramsOf] at h
    cases h
    exact .nil
  | cons p rest =>
    obtain ⟨name, type, variadic, span⟩ := p
    rw [paramsOf] at h
    obtain ⟨t, vars, ht, hvars, rfl⟩ := Checked.both_eq_ok h
    have hsame : (if variadic then Ty.slice t else t).signatures = t.signatures := by
      cases variadic <;> rfl
    rw [ParamExpr.allSignatures, Ty.signaturesOfVars, hsame]
    exact List.rel_append (resolves_typeOf ht) (resolves_paramsOf hvars)
termination_by structural params

theorem resolves_elementsOf {elements : List (ElementExpr TypeExpr)} {methods : List (Method Ty)}
    {embedded : List Ty} (h : ctx.elementsOf elements = .ok (methods, embedded)) :
    List.Forall₂ ctx.Resolves (ElementExpr.methodSignatures elements)
      (Ty.signaturesOfMethods methods) ∧
      List.Forall₂ ctx.Resolves (ElementExpr.embeddedSignatures elements)
        (Ty.signaturesOfTypes embedded) := by
  cases elements with
  | nil =>
    rw [elementsOf] at h
    cases h
    exact ⟨.nil, .nil⟩
  | cons e rest =>
    cases e with
    | method name sig span =>
      rw [elementsOf] at h
      obtain ⟨s, ⟨ms, es⟩, hs, hrest, hm⟩ := Checked.both_eq_ok h
      cases hm
      have hlater := resolves_elementsOf hrest
      rw [ElementExpr.methodSignatures, ElementExpr.embeddedSignatures, Ty.signaturesOfMethods]
      exact ⟨List.rel_append (resolves_signatureOf hs) hlater.1, hlater.2⟩
    | embedded type =>
      rw [elementsOf] at h
      obtain ⟨t, ⟨ms, es⟩, ht, hrest, hm⟩ := Checked.both_eq_ok h
      cases hm
      have hlater := resolves_elementsOf hrest
      rw [ElementExpr.methodSignatures, ElementExpr.embeddedSignatures, Ty.signaturesOfTypes]
      exact ⟨hlater.1, List.rel_append (resolves_typeOf ht) hlater.2⟩
termination_by structural elements

theorem resolves_fieldsOf {fields : List (FieldExpr TypeExpr)} {vars : List (Var Ty)}
    (h : ctx.fieldsOf fields = .ok vars) :
    List.Forall₂ ctx.Resolves (FieldExpr.allSignatures fields) (Ty.signaturesOfVars vars) := by
  cases fields with
  | nil =>
    rw [fieldsOf] at h
    cases h
    exact .nil
  | cons f rest =>
    obtain ⟨name, type, span⟩ := f
    rw [fieldsOf] at h
    obtain ⟨t, vars, ht, hvars, rfl⟩ := Checked.both_eq_ok h
    rw [FieldExpr.allSignatures, Ty.signaturesOfVars]
    exact List.rel_append (resolves_typeOf ht) (resolves_fieldsOf hvars)
termination_by structural fields

end

theorem resolves_objectOf {d : Decl} {o : Object} (h : ctx.objectOf d = .ok o) :
    List.Forall₂ ctx.Resolves d.signatures o.signatures := by
  cases d with
  | type name e span =>
    obtain ⟨t, ht, rfl⟩ := Checked.map_eq_ok h
    exact resolves_typeOf ht
  | func name sig span =>
    obtain ⟨s, hs, rfl⟩ := Checked.map_eq_ok h
    exact resolves_signatureOf hs

theorem getLast?_paramsOf {params : List (ParamExpr TypeExpr)} {vars : List (Var Ty)}
    {p : ParamExpr TypeExpr} (h : ctx.paramsOf params = .ok vars) (hp : params.getLast? = some p) :
    ∃ t, ctx.typeOf p.type = .ok t ∧
      vars.getLast? = some ⟨p.name, if p.variadic then .slice t else t⟩ := by
  induction params generalizing vars with
  | nil => cases hp
  | cons q rest ih =>
    rw [paramsOf] at h
    obtain ⟨t, later, ht, hlater, rfl⟩ := Checked.both_eq_ok h
    cases rest with
    | nil =>
      rw [paramsOf] at hlater
      cases hlater
      cases hp
      exact ⟨t, ht, rfl⟩
    | cons r rest =>
      rw [List.getLast?_cons_cons] at hp
      obtain ⟨u, hu, hlast⟩ := ih hlater hp
      exact ⟨u, hu, by rw [List.getLast?_cons, hlast, Option.getD_some]⟩

theorem signatureOf_eq_ok {written : SignatureExpr TypeExpr} {sig : Signature Ty}
    (h : ctx.Resolves written sig) :
    ctx.paramsOf written.params = .ok sig.params ∧
    sig.variadic = written.params.getLast?.any (·.variadic) := by
  obtain ⟨params, results, span⟩ := written
  rw [Resolves, signatureOf] at h
  obtain ⟨ps, rs, hps, hrs, rfl⟩ := Checked.both_eq_ok h
  exact ⟨hps, rfl⟩

open Reader in
/-- A signature with the text that it is made from: a parameter list among the tokens. It is
variadic exactly if the last entry of that list has an ellipsis, and then its last parameter has the
slice of the type written in that entry. -/
structure Transcribes (ctx : NameContext) (tokens : List Token) (written : SignatureExpr TypeExpr)
    (sig : Signature Ty) : Prop where
  resolves : ctx.signatureOf written = .ok sig
  list : ∃ p c c' stop entries xs, IsTypeReader p ∧ (Cursor.ofTokens tokens).Steps c ∧
    signature p c = .done written stop ∧ ListRead p c entries xs c' ∧
    (sig.variadic = true ↔ ∃ e ∈ entries.getLast?, e.ellipsis ≠ none) ∧
    ∀ e ∈ entries.getLast?, e.ellipsis ≠ none → ∃ type t, p.ReadFrom e.type type ∧
    ctx.typeOf type = .ok t ∧
      sig.params.getLast?.map (·.type) = some (.slice t)

theorem transcribes_of_stands {tokens : List Token} {written : SignatureExpr TypeExpr}
    {sig : Signature Ty} (h : ctx.Resolves written sig)
    (hstands : Reader.Stands written (.ofTokens tokens)) : ctx.Transcribes tokens written sig := by
  obtain ⟨p, hp, c, stop, hsteps, hread⟩ := hstands
  obtain ⟨c', hparams, -, -⟩ := Reader.signature_eq_done hread
  obtain ⟨xs, hxs, hgroup⟩ := Reader.params_eq_done hparams
  obtain ⟨entries, hlist⟩ := Reader.exists_listRead hp.movesOn hxs
  obtain ⟨hvars, hvariadic⟩ := signatureOf_eq_ok h
  have hlast := (Reader.keeps_groupParams hgroup).last
  refine ⟨h, p, c, c', stop, entries, xs, hp, hsteps, hread, hlist, ?_⟩
  rcases Reader.forall₂_getLast? hlist.means with ⟨hentries, hnone⟩ | ⟨e, x, hentries, hx, hmeans⟩
  · rw [hvariadic, hlast, hnone, hentries]
    simp
  · have hend : written.params.getLast? = some x := hlast.trans hx
    have hellipsis : x.variadic = true ↔ e.ellipsis ≠ none := by
      rw [hmeans.variadic, Option.isSome_iff_ne_none]
    rw [hvariadic, hend, hentries]
    refine ⟨by simpa using hellipsis, ?_⟩
    rintro _ ⟨⟩ he
    obtain ⟨t, ht, hvar⟩ := getLast?_paramsOf hvars hend
    refine ⟨x.type, t, hmeans.type, ht, ?_⟩
    rw [hvar, Option.map_some, hellipsis.2 he]
    rfl

end NameContext

end Understudy
