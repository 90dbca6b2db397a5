import Understudy.Proofs.DisplayedLists

namespace Understudy

open Piece Reader

namespace Ty

def isName : Ty → Bool
  | .basic _ | .named _ => true
  | _ => false

def isPointer : Ty → Bool
  | .pointer _ => true
  | _ => false

def isSlice : Ty → Bool
  | .slice _ => true
  | _ => false

def isRecvChan : Ty → Bool
  | .chan .recv _ => true
  | _ => false

theorem leads_of_isName {t : Ty} (h : t.isName = true) : t.leads = .ident := by
  cases t <;> first | rfl | cases h

theorem leads_of_isPointer {t : Ty} (h : t.isPointer = true) : t.leads = .star := by
  cases t <;> first | rfl | cases h

theorem exists_of_isSlice {t : Ty} (h : t.isSlice = true) : ∃ elem, t = .slice elem := by
  cases t <;> first | exact ⟨_, rfl⟩ | cases h

end Ty

/-- Signatures that stay what they are when they are written down. -/
structure Signature.IsTextual (sig : Signature Ty) : Prop where
  params : EvenlyNamed sig.params
  results : EvenlyNamed sig.results
  names : ∀ v ∈ sig.params ++ sig.results, ∀ name ∈ v.name, Token.isIdentifier name = true
  variadic : sig.variadic = true → sig.params.getLast?.any (·.type.isSlice) = true

/-- Types over certain names that their text shows in full. Interfaces embed names, a field without
a name is one or points to something, and a channel open at both ends does not directly carry one
that only receives. -/
inductive Ty.IsTextual (names : TypeName → Prop) : Ty → Prop
  | basic (kind : BasicKind) : IsTextual names (.basic kind)
  | pointer {elem : Ty} (h : IsTextual names elem) : IsTextual names (.pointer elem)
  | slice {elem : Ty} (h : IsTextual names elem) : IsTextual names (.slice elem)
  | array (length : UInt64) {elem : Ty} (h : IsTextual names elem) :
      IsTextual names (.array length elem)
  | map {key elem : Ty} (hk : IsTextual names key) (h : IsTextual names elem) :
      IsTextual names (.map key elem)
  | chan {dir : ChanDir} {elem : Ty} (hdir : dir = .both → elem.isRecvChan = false)
      (h : IsTextual names elem) : IsTextual names (.chan dir elem)
  | named {name : TypeName} (h : names name) : IsTextual names (.named (some name))
  | signature {sig : Signature Ty} (hsig : sig.IsTextual)
      (hp : ∀ v ∈ sig.params, IsTextual names v.type)
      (hr : ∀ v ∈ sig.results, IsTextual names v.type) : IsTextual names (.signature sig)
  | interface {methods : List (Method Ty)} {embedded : List Ty}
      (hembedded : ∀ t ∈ embedded, t.isName = true) (he : ∀ t ∈ embedded, IsTextual names t)
      (hmethods : ∀ m ∈ methods, Token.isIdentifier m.name = true ∧ m.sig.IsTextual)
      (hp : ∀ m ∈ methods, ∀ v ∈ m.sig.params, IsTextual names v.type)
      (hr : ∀ m ∈ methods, ∀ v ∈ m.sig.results, IsTextual names v.type) :
      IsTextual names (.interface methods embedded)
  | struct {fields : List (Var Ty)}
      (hnames : ∀ v ∈ fields, ∀ name ∈ v.name, Token.isIdentifier name = true)
      (hbare : ∀ v ∈ fields, v.name = none → v.type.isName = true ∨ v.type.isPointer = true)
      (h : ∀ v ∈ fields, IsTextual names v.type) : IsTextual names (.struct fields)

/-- Names that a context gives their own meaning when their module's path stands in front of
them. -/
structure NameContext.Knows (ctx : NameContext) (names : TypeName → Prop) : Prop where
  basic : ∀ kind : BasicKind, ctx.decl? kind.name = none
  spelled : ∀ name, names name → Ty.Spellable (·.module.map (·.path)) name
  means : ∀ name, names name → ctx.namedType (name.module.map (·.path)) name.name =
      .ok (.named (some name))

section Words

variable {ctx : NameContext} {names : TypeName → Prop}

theorem NameContext.Knows.hasWords_named (hctx : ctx.Knows names) {name : TypeName}
    (h : names name) : ∃ ws, HasWords ctx (.named (some name)) ws := by
  obtain ⟨hname, hpath⟩ := hctx.spelled name h
  have hmeans := hctx.means name h
  obtain ⟨name, _ | module⟩ := name
  · exact ⟨_, hasWords_local hname hmeans⟩
  · exact ⟨_, hasWords_qualified hname (hpath module.path rfl) hmeans⟩

/-- The words of a type, and of what it collects if it is the last parameter of a variadic
signature. -/
def Displays (ctx : NameContext) (t : Ty) : Prop :=
  (∃ ws, HasWords ctx t ws) ∧ ∀ elem, t = .slice elem → ∃ ws, HasWords ctx elem ws

theorem Signature.IsTextual.hasParts {sig : Signature Ty} (h : sig.IsTextual)
    (hp : ∀ v ∈ sig.params, Displays ctx v.type) (hr : ∀ v ∈ sig.results, Displays ctx v.type) :
    HasParts ctx sig where
  inputs :=
    { name v hv := h.names v (List.mem_append_left _ hv)
      type v hv := (hp v hv).1
      collected hvariadic := by
        have hlast := h.variadic hvariadic
        obtain ⟨v, hv, hslice⟩ := (Option.any_eq_true _ _).1 hlast
        obtain ⟨elem, helem⟩ := Ty.exists_of_isSlice hslice
        exact ⟨v, hv, elem, helem, (hp v (List.mem_of_getLast? hv)).2 elem helem⟩ }
  outputs :=
    { name v hv := h.names v (List.mem_append_right _ hv)
      type v hv := (hr v hv).1
      collected := nofun }
  inputNames := h.params
  outputNames := h.results

theorem Ty.IsTextual.displays (hctx : ctx.Knows names) {t : Ty} (h : t.IsTextual names) :
    Displays ctx t := by
  induction h with
  | basic kind => exact ⟨⟨_, hasWords_basic (hctx.basic kind)⟩, nofun⟩
  | pointer _ ih =>
    obtain ⟨ws, hws⟩ := ih.1
    exact ⟨⟨_, hws.pointer⟩, nofun⟩
  | slice _ ih =>
    obtain ⟨ws, hws⟩ := ih.1
    refine ⟨⟨_, hws.slice⟩, ?_⟩
    rintro _ ⟨⟩
    exact ⟨ws, hws⟩
  | array length _ ih =>
    obtain ⟨ws, hws⟩ := ih.1
    exact ⟨⟨_, hws.array length⟩, nofun⟩
  | map _ _ ihk ih =>
    obtain ⟨ks, hks⟩ := ihk.1
    obtain ⟨ws, hws⟩ := ih.1
    exact ⟨⟨_, hks.map hws⟩, nofun⟩
  | @chan dir elem hdir _ ih =>
    obtain ⟨ws, hws⟩ := ih.1
    refine ⟨?_, nofun⟩
    cases dir with
    | both =>
      refine ⟨_, hws.chanBoth ?_⟩
      rintro e rfl
      cases hdir rfl
    | send => exact ⟨_, hws.chanSend⟩
    | recv => exact ⟨_, hws.chanRecv⟩
  | named h => exact ⟨hctx.hasWords_named h, nofun⟩
  | signature hsig _ _ ihp ihr =>
    obtain ⟨ws, hws⟩ := (hsig.hasParts ihp ihr).exists_words
    exact ⟨⟨_, hws.type⟩, nofun⟩
  | interface hembedded _ hmethods _ _ ihe ihp ihr =>
    refine ⟨exists_interfaceWords (fun t ht ↦ ⟨?_, (ihe t ht).1⟩) fun m hm ↦
      ⟨(hmethods m hm).1, ?_⟩, nofun⟩
    · exact Ty.leads_of_isName (hembedded t ht)
    · exact ((hmethods m hm).2.hasParts (ihp m hm) (ihr m hm)).exists_words
  | struct hnames hbare _ ih =>
    refine ⟨exists_structWords fun v hv ↦ ⟨hnames v hv, fun hnone ↦ ?_, (ih v hv).1⟩, nofun⟩
    exact (hbare v hv hnone).imp Ty.leads_of_isName Ty.leads_of_isPointer

end Words

end Understudy
