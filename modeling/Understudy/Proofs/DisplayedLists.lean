import Mathlib.Data.List.Forall2
import Understudy.Proofs.DisplayedWords

namespace Understudy

open Piece Reader

variable {ctx : NameContext}

section Entries

def namePrefix : Option String → String
  | some name => name ++ " "
  | none => ""

/-- An entry of a parameter list: what it collects is `t` if it is variadic. -/
def entryText (name : Option String) (variadic : Bool) (t : Ty) : String :=
  namePrefix name ++ ((if variadic then "..." else "") ++ t.display)

def entryWords (name : Option String) (variadic : Bool) (ws : List Word) : List Word :=
  name.toList.map (TokenKind.ident, ·) ++ ((if variadic then [(.ellipsis, "...")] else []) ++ ws)

variable {name : Option String} {variadic : Bool} {t : Ty} {ws : List Word}

theorem HasWords.cuts_entry (h : HasWords ctx t ws)
    (hname : ∀ n ∈ name, Token.isIdentifier n = true) (variadic : Bool) :
    Cuts (entryText name variadic t) (entryWords name variadic ws) := by
  have htype : Cuts ((if variadic then "..." else "") ++ t.display)
      ((if variadic then [(.ellipsis, "...")] else []) ++ ws) := by
    cases variadic with
    | true => exact sealed_ellipsis.append_cuts h.cuts
    | false => simpa using h.cuts
  cases name with
  | none => simpa [entryText, entryWords, namePrefix] using htype
  | some n =>
    have hprefix : Sealed (n ++ " ") [(.ident, n)] :=
      (cuts_identifier (hname n rfl)).append_sealed sealed_space ⟨' ', [], rfl, rfl⟩
    exact hprefix.append_cuts htype

theorem HasWords.entry_first (h : HasWords ctx t ws) (name : Option String) (variadic : Bool) :
    ∃ x rest, entryWords name variadic ws = x :: rest ∧
    (startsType x.1 = true ∨ x.1 = .ellipsis) := by
  obtain ⟨w, rest, rfl, hw⟩ := h.exists_cons
  cases name with
  | some n => exact ⟨(.ident, n), _, rfl, .inl rfl⟩
  | none =>
    cases variadic with
    | true => exact ⟨(.ellipsis, "..."), _, rfl, .inr rfl⟩
    | false => exact ⟨w, rest, rfl, .inl (hw ▸ t.startsType_leads)⟩

/-- What an entry that was read says about a parameter of type `t`, or one that collects values of
type `t`. -/
structure EntryMeans (ctx : NameContext) (name : Option String) (variadic : Bool) (t : Ty)
    (e : ParamExpr TypeExpr) : Prop where
  name : e.name = name
  variadic : e.variadic = variadic
  type : ctx.typeOf e.type = .ok t

def endsEntry : TokenKind → Bool
  | .comma | .rparen => true
  | _ => false

/-- The first word of an entry without a name: it could stand behind a name, and if it could be a
name itself, the word behind it shows that it is none. -/
theorem HasWords.entry_opens (h : HasWords ctx t ws) (variadic : Bool) {w : Word}
    (after : List Word) (hw : endsEntry w.1 = true) :
    ∃ x rest, (if variadic then [(TokenKind.ellipsis, "...")] else []) ++ ws ++
      w :: after = x :: rest ∧
      endsBareType x.1 = false ∧ (x.1 = .ident → ∃ y ∈ rest.head?, endsBareType y.1 = true) := by
  cases variadic with
  | true => exact ⟨(.ellipsis, "..."), ws ++ w :: after, rfl, rfl, nofun⟩
  | false =>
    obtain ⟨text, rest, rfl, hdot⟩ := h.opens
    refine ⟨(t.leads, text), rest ++ w :: after, rfl, ?_, fun hident ↦ ?_⟩
    · have hleads := t.startsType_leads
      cases hk : t.leads <;> first | rfl | (rw [hk] at hleads; cases hleads)
    · cases rest with
      | nil =>
        refine ⟨w, rfl, ?_⟩
        obtain ⟨kind, text⟩ := w
        cases kind <;> first | rfl | cases hw
      | cons y rest => exact ⟨y, rfl, by simp [hdot hident y rfl, endsBareType]⟩

theorem HasWords.yields_entry (h : HasWords ctx t ws) (name : Option String) (variadic : Bool)
    {n : Nat} (hn : ws.length ≤ n) {w : Word} (hw : endsEntry w.1 = true) (after : List Word) :
    Yields (paramEntry (typeWithin n)) (entryWords name variadic ws ++ w :: after) (w :: after)
      (EntryMeans ctx name variadic t) := by
  have hends : Ends (w :: after) := by
    refine ends_cons ?_ _
    obtain ⟨kind, text⟩ := w
    cases kind <;> first | rfl | cases hw
  have htype := h.reads n _ hn hends
  have htail : ∀ start, Yields (entryTail (typeWithin n) start name)
      ((if variadic then [(.ellipsis, "...")] else []) ++ ws ++ w :: after) (w :: after)
      (EntryMeans ctx name variadic t) := by
    intro start
    cases variadic with
    | true => exact yields_entryTail_variadic (htype.mono fun e he s ↦ ⟨rfl, rfl, he⟩)
    | false =>
      refine yields_entryTail ?_ (htype.mono fun e he s ↦ ⟨rfl, rfl, he⟩)
      obtain ⟨x, rest, rfl, hx⟩ := h.exists_cons
      rintro _ ⟨⟩
      exact hx ▸ Ty.leads_ne rfl
  obtain ⟨x, rest, hx, hnamed, hbare⟩ := h.entry_opens variadic after hw
  rw [hx] at htail
  cases name with
  | none =>
    have hwords : entryWords none variadic ws ++ w :: after = x :: rest := by
      simpa [entryWords] using hx
    rw [hwords]
    exact yields_paramEntry_bare hbare htail
  | some n =>
    have hwords : entryWords (some n) variadic ws ++ w :: after = (.ident, n) :: x :: rest := by
      simpa [entryWords] using hx
    rw [hwords]
    exact yields_paramEntry_named hnamed htail

/-- The words of an entry, which is read in front of a comma and of the closing parenthesis. -/
structure EntryWords (text : String) (P : ParamExpr TypeExpr → Prop) (ws : List Word) : Prop where
  cuts : Cuts text ws
  opens : ∃ w rest, ws = w :: rest ∧ opensEntry w.1 = true
  reads : ∀ n w after, ws.length ≤ n → endsEntry w.1 = true →
    Yields (paramEntry (typeWithin n)) (ws ++ w :: after) (w :: after) P

theorem HasWords.entry (h : HasWords ctx t ws) (hname : ∀ n ∈ name, Token.isIdentifier n = true)
    (variadic : Bool) :
    EntryWords (entryText name variadic t) (EntryMeans ctx name variadic t)
      (entryWords name variadic ws) where
  cuts := h.cuts_entry hname variadic
  opens := by
    obtain ⟨⟨kind, text⟩, rest, hx, hstart⟩ := h.entry_first name variadic
    refine ⟨(kind, text), rest, hx, ?_⟩
    cases kind <;> simp_all [opensEntry, startsType]
  reads n w after hn hw := by
    refine h.yields_entry name variadic ?_ hw after
    simp only [entryWords, List.length_append] at hn
    omega

def inputTexts (variadic : Bool) (vs : List (Var Ty)) : List String :=
  if variadic then Ty.displayVariadic vs else Ty.displayVars vs

theorem displayVars_cons (v : Var Ty) (vs : List (Var Ty)) :
    Ty.displayVars (v :: vs) = entryText v.name false v.type :: Ty.displayVars vs := by
  obtain ⟨_ | n, t⟩ := v <;> simp [Ty.displayVars, entryText, namePrefix]

theorem inputTexts_cons {v : Var Ty} {vs : List (Var Ty)}
    (ht : v.type = if variadic && vs.isEmpty then .slice t else t) :
    inputTexts variadic (v :: vs) =
      entryText v.name (variadic && vs.isEmpty) t :: inputTexts variadic vs := by
  obtain ⟨name, type⟩ := v
  subst ht
  cases variadic with
  | false => simpa [inputTexts] using displayVars_cons ⟨name, t⟩ vs
  | true =>
    cases vs with
    | nil => cases name <;> simp [inputTexts, Ty.displayVariadic, entryText, namePrefix]
    | cons v' vs => cases name <;> simp [inputTexts, Ty.displayVariadic, entryText, namePrefix]

inductive EntriesMean (ctx : NameContext) (variadic : Bool) :
    List (ParamExpr TypeExpr) → List (Var Ty) → Prop
  | nil : EntriesMean ctx variadic [] []
  | cons {e : ParamExpr TypeExpr} {es : List (ParamExpr TypeExpr)} {v : Var Ty} {vs : List (Var Ty)}
      {t : Ty} (ht : v.type = if variadic && vs.isEmpty then .slice t else t)
      (he : EntryMeans ctx v.name (variadic && vs.isEmpty) t e)
      (h : EntriesMean ctx variadic es vs) : EntriesMean ctx variadic (e :: es) (v :: vs)

/-- Each parameter can be written down, also what the last one collects. -/
structure HasInputs (ctx : NameContext) (variadic : Bool) (vs : List (Var Ty)) : Prop where
  name : ∀ v ∈ vs, ∀ n ∈ v.name, Token.isIdentifier n = true
  type : ∀ v ∈ vs, ∃ ws, HasWords ctx v.type ws
  collected : variadic = true → ∃ v ∈ vs.getLast?, ∃ elem, v.type = .slice elem ∧
      ∃ ws, HasWords ctx elem ws

theorem HasInputs.head {v : Var Ty} {vs : List (Var Ty)} (h : HasInputs ctx variadic (v :: vs)) :
    ∃ t ws, (v.type = if variadic && vs.isEmpty then .slice t else t) ∧ HasWords ctx t ws := by
  cases hlast : variadic && vs.isEmpty with
  | false =>
    obtain ⟨ws, hws⟩ := h.type v (List.mem_cons_self ..)
    exact ⟨v.type, ws, rfl, hws⟩
  | true =>
    obtain ⟨hvariadic, hempty⟩ := Bool.and_eq_true_iff.1 hlast
    obtain rfl := List.isEmpty_iff.1 hempty
    obtain ⟨_, ⟨⟩, elem, hslice, ws, hws⟩ := h.collected hvariadic
    exact ⟨elem, ws, hslice, hws⟩

theorem HasInputs.tail {v v' : Var Ty} {vs : List (Var Ty)}
    (h : HasInputs ctx variadic (v :: v' :: vs)) : HasInputs ctx variadic (v' :: vs) where
  name u hu := h.name u (List.mem_cons_of_mem _ hu)
  type u hu := h.type u (List.mem_cons_of_mem _ hu)
  collected hvariadic := by simpa [List.getLast?_cons_cons] using h.collected hvariadic

theorem sealed_commaSpace : Sealed ", " [(.comma, ",")] := sealed_comma.append sealed_space

theorem exists_inputWords {vs : List (Var Ty)} (h : HasInputs ctx variadic vs) :
    ∃ ws, Cuts (", ".intercalate (inputTexts variadic vs)) ws ∧ ∀ n m after, ws.length ≤ n →
    ws.length < m →
      Yields (paramEntries (typeWithin n) m) (ws ++ (.rparen, ")") :: after)
        ((.rparen, ")") :: after) (EntriesMean ctx variadic · vs) := by
  induction vs with
  | nil =>
    refine ⟨[], by cases variadic <;> exact cuts_empty, fun n m after _ hm ↦ ?_⟩
    obtain ⟨m, rfl⟩ : ∃ k, m = k + 1 := ⟨m - 1, by omega⟩
    exact yields_paramEntries_nil.mono fun es hes ↦ hes ▸ .nil
  | cons v vs ih =>
    obtain ⟨t, us, ht, hus⟩ := h.head
    have hentry := hus.entry (h.name v (List.mem_cons_self ..)) (variadic && vs.isEmpty)
    obtain ⟨x, rest, hx, hopens⟩ := hentry.opens
    rw [hx] at hentry
    rw [inputTexts_cons ht]
    cases vs with
    | nil =>
      have hnil : inputTexts variadic [] = [] := by cases variadic <;> rfl
      refine ⟨x :: rest, by simpa [hnil] using hentry.cuts, fun n m after hn hm ↦ ?_⟩
      obtain ⟨m, rfl⟩ : ∃ k, m = k + 1 := ⟨m - 1, by omega⟩
      refine (yields_paramEntries_last hopens (hentry.reads n (.rparen, ")") after hn rfl)).mono ?_
      rintro _ ⟨e, he, rfl⟩
      exact .cons ht he .nil
    | cons v' vs =>
      obtain ⟨ws, hws, hreads⟩ := ih h.tail
      have htext : inputTexts variadic (v' :: vs) ≠ [] := by
        obtain ⟨t', -, ht', -⟩ := h.tail.head
        simp [inputTexts_cons ht']
      refine ⟨x :: rest ++ ((.comma, ",") :: ws), ?_, fun n m after hn hm ↦ ?_⟩
      · rw [String.intercalate_cons_of_ne_nil htext]
        have hfront := hentry.cuts.append_sealed sealed_commaSpace ⟨',', [' '], rfl, rfl⟩
        simpa using hfront.append_cuts hws
      · obtain ⟨m, rfl⟩ : ∃ k, m = k + 1 := ⟨m - 1, by omega⟩
        simp only [List.length_append, List.length_cons] at hn hm
        have hshort : (x :: rest).length ≤ n := by
          rw [List.length_cons]
          omega
        have hfirst := hentry.reads n (.comma, ",") (ws ++ (.rparen, ")") :: after) hshort rfl
        have hlater := hreads n m after (by omega) (by omega)
        rw [List.append_assoc]
        exact yields_paramEntries_cons hopens hfirst hlater fun e es he hes ↦ .cons ht he hes

def EvenlyNamed (vs : List (Var Ty)) : Prop := (∀ v ∈ vs, v.name = none) ∨ ∀ v ∈ vs, v.name ≠ none

section Meaning

variable {es : List (ParamExpr TypeExpr)} {vs : List (Var Ty)}

theorem EntriesMean.map_name (h : EntriesMean ctx variadic es vs) :
    es.map (·.name) = vs.map (·.name) := by
  induction h with
  | nil => rfl
  | cons _ he _ ih => rw [List.map_cons, List.map_cons, he.name, ih]

theorem EntriesMean.map_variadic (h : EntriesMean ctx variadic es vs) :
    (∀ e ∈ es.dropLast, e.variadic = false) ∧ es.getLast?.any (·.variadic) =
      (variadic && !vs.isEmpty) := by
  induction h with
  | nil => simp
  | @cons e es v vs t ht he h ih =>
    cases h with
    | nil => simpa using he.variadic
    | cons ht' he' h' =>
      refine ⟨?_, by simpa using ih.2⟩
      rw [List.dropLast_cons_of_ne_nil (by simp)]
      simpa [he.variadic] using ih.1

theorem EntriesMean.find?_variadic (h : EntriesMean ctx false es vs) :
    es.find? (·.variadic) = none := by
  induction h with
  | nil => rfl
  | cons _ he _ ih => rw [List.find?_cons_of_neg (by simp [he.variadic]), ih]

theorem EntriesMean.paramsOf_eq (h : EntriesMean ctx variadic es vs) :
    ctx.paramsOf es = .ok vs := by
  induction h with
  | nil => rfl
  | @cons e es v vs t ht he h ih =>
    obtain ⟨name, type, variadic', span⟩ := e
    obtain ⟨name', type'⟩ := v
    obtain ⟨rfl, rfl, htype⟩ := he
    simp only at ht htype
    subst ht
    simp [NameContext.paramsOf, htype, ih, Checked.both]

theorem shareTypes_named (h : ∀ e ∈ es, e.name ≠ none) : shareTypes [] es = .ok es := by
  induction es with
  | nil => rfl
  | cons e es ih =>
    obtain ⟨hname, hrest⟩ := List.forall_mem_cons.1 h
    obtain ⟨n, hn⟩ := Option.ne_none_iff_exists'.1 hname
    simp [shareTypes, hn, ih hrest]

theorem EntriesMean.groupParams_eq (h : EntriesMean ctx variadic es vs)
    (hnames : EvenlyNamed vs) : groupParams es = .ok es := by
  have hfind : es.dropLast.find? (·.variadic) = none := by
    simpa using h.map_variadic.1
  have hmem : ∀ e ∈ es, ∃ v ∈ vs, v.name = e.name := by
    intro e he
    have hname : e.name ∈ vs.map (·.name) := h.map_name ▸ List.mem_map_of_mem he
    simpa using hname
  rw [groupParams, hfind]
  dsimp only
  split
  · rfl
  · rename_i hsome
    refine shareTypes_named fun e he ↦ ?_
    obtain ⟨v, hv, hname⟩ := hmem e he
    obtain hnone | hall := hnames
    · refine absurd (List.all_eq_true.2 fun e he ↦ ?_) hsome
      obtain ⟨v, hv, hname⟩ := hmem e he
      simp [← hname, hnone v hv]
    · exact hname ▸ hall v hv

end Meaning

end Entries

section Signatures

variable {variadic : Bool} {vs : List (Var Ty)}

theorem exists_paramWords (h : HasInputs ctx variadic vs) (hnames : EvenlyNamed vs) :
    ∃ ws, Sealed ("(" ++ ", ".intercalate (inputTexts variadic vs) ++ ")") ((.lparen, "(") :: ws) ∧
      Completes ws ∧ ∀ n after, ws.length ≤ n →
        Yields (params (typeWithin n)) ((.lparen, "(") :: ws ++ after) after
          (EntriesMean ctx variadic · vs) := by
  obtain ⟨ws, hws, hreads⟩ := exists_inputWords h
  refine ⟨ws ++ [(.rparen, ")")], ?_, completes_append_singleton ws rfl, fun n after hn ↦ ?_⟩
  · exact (sealed_lparen.append_cuts hws).append_sealed sealed_rparen ⟨')', [], rfl, rfl⟩
  · have hentries :=
      hreads n ((ws ++ (.rparen, ")") :: after).length + 1) after (by simp at hn; omega)
      (by rw [List.length_append]; omega)
    simp only [List.cons_append, List.append_assoc, List.nil_append]
    exact yields_params
      (yields_bounded (hentries.mono fun es hes ↦ ⟨es, hes.groupParams_eq hnames, hes⟩))

def resultText : List (Var Ty) → String
  | [] => ""
  | [⟨none, t⟩] => " " ++ t.display
  | vs => " (" ++ ", ".intercalate (Ty.displayVars vs) ++ ")"

theorem displaySignature_eq (ps rs : List (Var Ty)) (variadic : Bool) :
    Ty.displaySignature ⟨ps, rs, variadic⟩ =
    "(" ++ ", ".intercalate (inputTexts variadic ps) ++ ")" ++ resultText rs := by
  cases variadic <;> rcases rs with _ | ⟨⟨_ | n, t⟩, _ | ⟨r, rs⟩⟩ <;> rfl

theorem exists_resultWords (h : HasInputs ctx false vs) (hnames : EvenlyNamed vs) :
    ∃ ws, Cuts (resultText vs) ws ∧ (ws = [] ∨ Completes ws) ∧
    ∀ n after, ws.length ≤ n → Ends after →
      Yields (results (typeWithin n)) (ws ++ after) after (EntriesMean ctx false · vs) := by
  have hlisted : ∃ ws, Cuts (" (" ++ ", ".intercalate (Ty.displayVars vs) ++ ")") ws ∧
      (ws = [] ∨ Completes ws) ∧
      ∀ n after, ws.length ≤ n → Ends after →
        Yields (results (typeWithin n)) (ws ++ after) after (EntriesMean ctx false · vs) := by
    obtain ⟨ws, hsealed, hcompletes, hreads⟩ := exists_paramWords h hnames
    refine ⟨(.lparen, "(") :: ws, ?_, .inr (hcompletes.append_left [(.lparen, "(")]),
      fun n after hn hafter ↦ ?_⟩
    · have htext := (sealed_space.append hsealed).cuts
      simpa [← String.append_assoc, inputTexts] using htext
    · refine yields_cursor_bind fun c hc ↦ yields_if_pos ?_ (hreads n after (by simp at hn; omega))
      simp [Cursor.isAt_eq hc]
  unfold resultText
  split
  · refine ⟨[], cuts_empty, .inl rfl, fun n after _ hafter ↦ ?_⟩
    obtain ⟨w, rest, rfl, hw⟩ := hafter
    refine yields_cursor_bind fun c hc ↦ yields_if_neg ?_ (yields_if_neg ?_ (yields_pure .nil))
    · obtain ⟨kind, text⟩ := w
      rw [Cursor.isAt_eq hc]
      cases kind <;> first | rfl | cases hw
    · rw [Cursor.any_head?_tokens hc]
      obtain ⟨kind, text⟩ := w
      cases kind <;> first | rfl | cases hw
  · rename_i t
    obtain ⟨ws, hws⟩ := h.type ⟨none, t⟩ (List.mem_singleton.2 rfl)
    refine ⟨ws, sealed_space.append_cuts hws.cuts, .inr hws.completes, fun n after hn hafter ↦ ?_⟩
    have hread := hws.reads n after hn hafter
    obtain ⟨w, rest, rfl, hw⟩ := hws.exists_cons
    refine yields_cursor_bind fun c hc ↦ yields_if_neg ?_
      (yields_if_pos ?_ (hread.bind fun e he ↦ yields_pure ?_))
    · simpa [Cursor.isAt_eq hc, hw] using t.leads_ne rfl
    · rw [Cursor.any_head?_tokens hc, hw]
      exact t.startsType_leads
    · exact .cons rfl ⟨rfl, rfl, he⟩ .nil
  · exact hlisted

/-- The words of the text of a signature, behind the word or name that announces it. -/
structure HasSignatureWords (ctx : NameContext) (sig : Signature Ty) (ws : List Word) : Prop where
  cuts : Cuts (Ty.displaySignature sig) ws
  opens : ∃ rest, ws = (.lparen, "(") :: rest
  completes : Completes ws
  reads : ∀ n after, ws.length ≤ n → Ends after →
    Yields (signature (typeWithin n)) (ws ++ after) after (ctx.signatureOf · = .ok sig)

structure HasParts (ctx : NameContext) (sig : Signature Ty) : Prop where
  inputs : HasInputs ctx sig.variadic sig.params
  outputs : HasInputs ctx false sig.results
  inputNames : EvenlyNamed sig.params
  outputNames : EvenlyNamed sig.results

theorem signatureOf_eq {sig : Signature Ty} {ins outs : List (ParamExpr TypeExpr)}
    (hin : EntriesMean ctx sig.variadic ins sig.params)
    (hout : EntriesMean ctx false outs sig.results) (hlast : sig.variadic = true → sig.params ≠ [])
    (s : Span) : ctx.signatureOf ⟨ins, outs, s⟩ = .ok sig := by
  obtain ⟨ps, rs, variadic⟩ := sig
  have hvariadic : (variadic && !ps.isEmpty) = variadic := by
    cases variadic with
    | false => rfl
    | true => simpa using hlast rfl
  simp [NameContext.signatureOf, hin.paramsOf_eq, hout.paramsOf_eq, hin.map_variadic.2,
    hvariadic, Checked.both]

theorem HasParts.exists_words {sig : Signature Ty} (h : HasParts ctx sig) :
    ∃ ws, HasSignatureWords ctx sig ws := by
  obtain ⟨ins, hsealed, hcompletes, hins⟩ := exists_paramWords h.inputs h.inputNames
  obtain ⟨outs, houtCuts, houtCompletes, houts⟩ := exists_resultWords h.outputs h.outputNames
  have hlast : sig.variadic = true → sig.params ≠ [] := by
    intro hvariadic hnil
    obtain ⟨v, hv, -⟩ := h.inputs.collected hvariadic
    simp [hnil] at hv
  refine ⟨(.lparen, "(") :: ins ++ outs, ?_, ⟨ins ++ outs, rfl⟩, ?_, fun n after hn hafter ↦ ?_⟩
  · obtain ⟨ps, rs, variadic⟩ := sig
    rw [displaySignature_eq]
    exact hsealed.append_cuts houtCuts
  · obtain rfl | hout := houtCompletes
    · simpa using hcompletes.append_left [(.lparen, "(")]
    · exact hout.append_left _
  · simp only [List.length_append, List.length_cons] at hn
    rw [List.append_assoc]
    refine yields_cursor_bind fun c _ ↦ (hins n _ (by omega)).bind fun inputs hin ↦ ?_
    refine (houts n after (by omega) hafter).bind fun outputs hout ↦ ?_
    rw [hout.find?_variadic]
    exact yields_cursor_bind fun c' _ ↦ yields_range_bind fun s ↦
      yields_pure (signatureOf_eq hin hout hlast s)

end Signatures

section Bodies

variable {α : Type} {ι : Type} {item : Nat → Reader (List α)} {text : ι → String}
    {P : ι → List α → Prop}

/-- The words of an item of a body, which is read in front of a semicolon and of the closing
brace. -/
structure ItemWords (item : Nat → Reader (List α)) (text : String) (P : List α → Prop)
    (ws : List Word) : Prop where
  cuts : Cuts text ws
  opens : ∃ w rest, ws = w :: rest ∧ opensItem w.1 = true
  reads : ∀ n w after, ws.length ≤ n → w.1 = .semicolon ∨ w.1 = .rbrace →
    Yields (item n) (ws ++ w :: after) (w :: after) P

theorem sealed_semicolonSpace : Sealed "; " [(.semicolon, ";")] :=
  sealed_semicolon.append sealed_space

theorem exists_bodyWords (what : String) {items : List ι} (h : ∀ i ∈ items, ∃ ws,
  ItemWords item (text i) (P i) ws) :
    ∃ ws, Cuts ("; ".intercalate (items.map text)) ws ∧ ∀ n m after, ws.length ≤ n → ws.length < m →
      Yields (bodyItems what (item n) m) (ws ++ (.rbrace, "\x7d") :: after)
        ((.rbrace, "\x7d") :: after) fun all ↦
        ∃ parts, List.Forall₂ P items parts ∧ all = parts.flatten := by
  induction items with
  | nil =>
    refine ⟨[], cuts_empty, fun n m after _ hm ↦ ?_⟩
    obtain ⟨m, rfl⟩ : ∃ k, m = k + 1 := ⟨m - 1, by omega⟩
    exact yields_bodyItems_nil.mono fun all hall ↦ ⟨[], .nil, hall⟩
  | cons i items ih =>
    obtain ⟨us, hus⟩ := h i (List.mem_cons_self ..)
    obtain ⟨x, rest, rfl, hopens⟩ := hus.opens
    cases items with
    | nil =>
      refine ⟨x :: rest, by simpa using hus.cuts, fun n m after hn hm ↦ ?_⟩
      obtain ⟨m, rfl⟩ : ∃ k, m = k + 2 := ⟨m - 2, by simp at hm; omega⟩
      refine (yields_bodyItems_last hopens (hus.reads n _ after hn (.inr rfl))).mono
        fun all hall ↦ ?_
      exact ⟨[all], .cons hall .nil, by simp⟩
    | cons i' items =>
      obtain ⟨ws, hws, hreads⟩ := ih fun j hj ↦ h j (List.mem_cons_of_mem _ hj)
      refine ⟨x :: rest ++ ((.semicolon, ";") :: ws), ?_, fun n m after hn hm ↦ ?_⟩
      · have hfront := hus.cuts.append_sealed sealed_semicolonSpace ⟨';', [' '], rfl, rfl⟩
        simpa using hfront.append_cuts hws
      · obtain ⟨m, rfl⟩ : ∃ k, m = k + 1 := ⟨m - 1, by omega⟩
        simp only [List.length_append, List.length_cons] at hn hm
        have hfirst :=
          hus.reads n (.semicolon, ";") (ws ++ (.rbrace, "\x7d") :: after)
            (by simp; omega) (.inl rfl)
        rw [List.append_assoc]
        refine yields_bodyItems_cons hopens hfirst (hreads n m after (by omega) (by omega)) ?_
        rintro first later hi ⟨parts, hparts, rfl⟩
        exact ⟨first :: parts, .cons hi hparts, by simp⟩

theorem exists_bracedWords {t : Ty} {word : String} (what : String) {items : List ι}
    (h : ∀ i ∈ items, ∃ ws, ItemWords item (text i) (P i) ws)
    (hfront : Sealed (word ++ "\x7b") [(t.leads, word), (.lbrace, "\x7b")]) (hne : t.leads ≠ .ident)
    (hdisplay : t.display = word ++ "\x7b" ++ "; ".intercalate (items.map text) ++ "\x7d")
    (hreads : ∀ n ws after,
      Yields (bounded (bodyItems what (item n))) ws ((.rbrace, "\x7d") :: after)
        (fun all ↦ ∃ parts, List.Forall₂ P items parts ∧ all = parts.flatten) →
        Yields (typeOver (typeWithin n)) ((t.leads, word) :: (.lbrace, "\x7b") :: ws) after
          (ctx.typeOf · = .ok t)) : ∃ ws, HasWords ctx t ws := by
  obtain ⟨ws, hws, hbody⟩ := exists_bodyWords what h
  refine ⟨(t.leads, word) :: (.lbrace, "\x7b") :: (ws ++ [(.rbrace, "\x7d")]), ?_, ?_, ?_,
    fun n after hn _ ↦ ?_⟩
  · rw [hdisplay]
    exact ((hfront.append_cuts hws).append_sealed sealed_rbrace ⟨'\x7d', [], rfl, rfl⟩).cuts
  · exact ⟨word, _, rfl, fun hident ↦ absurd hident hne⟩
  · exact completes_append_singleton ((t.leads, word) :: (.lbrace, "\x7b") :: ws) rfl
  · obtain ⟨n, rfl⟩ : ∃ m, n = m + 1 := ⟨n - 1, by simp at hn; omega⟩
    simp only [List.length_append, List.length_cons] at hn
    simp only [List.cons_append, List.append_assoc, List.nil_append]
    refine hreads n _ after (yields_bounded (hbody n _ after (by omega) ?_))
    rw [List.length_append]
    omega

section Structs

def FieldMeans (ctx : NameContext) (v : Var Ty) (fields : List (FieldExpr TypeExpr)) : Prop :=
  ∃ e s, fields = [⟨v.name, e, s⟩] ∧ ctx.typeOf e = .ok v.type

structure HasField (ctx : NameContext) (v : Var Ty) : Prop where
  name : ∀ n ∈ v.name, Token.isIdentifier n = true
  embedded : v.name = none → v.type.leads = .ident ∨ v.type.leads = .star
  type : ∃ ws, HasWords ctx v.type ws

theorem HasField.exists_words {v : Var Ty} (h : HasField ctx v) :
    ∃ ws, ItemWords (fun n ↦ fieldGroup (typeWithin n)) (entryText v.name false v.type)
      (FieldMeans ctx v) ws := by
  obtain ⟨ws, hws⟩ := h.type
  obtain ⟨x, rest, hx, hstart⟩ := hws.entry_first v.name false
  refine ⟨entryWords v.name false ws, hws.cuts_entry h.name false, ⟨x, rest, hx, ?_⟩,
    fun n w after hn hw ↦ ?_⟩
  · obtain ⟨kind, text⟩ := x
    cases kind <;> simp_all [opensItem, startsType]
  have hlen : ws.length ≤ n := by
    simp [entryWords] at hn
    omega
  have hread :=
    hws.reads n (w :: after) hlen (ends_cons (by rcases hw with hw | hw <;> rw [hw] <;> rfl) _)
  have hstr : ∀ y ∈ (w :: after).head?, y.1 ≠ .str := by
    rintro _ ⟨⟩
    rcases hw with hw | hw <;> simp [hw]
  obtain ⟨text, tail, rfl, hdot⟩ := hws.opens
  obtain ⟨name, t⟩ := v
  cases name with
  | none =>
    refine yields_fieldGroup_bare ?_ hstr (hread.mono fun e he s ↦ ⟨e, s, rfl, he⟩)
    obtain hident | hstar := h.embedded rfl
    · refine .inr ⟨hident, ?_⟩
      cases tail with
      | nil => exact ⟨w, rfl, by rcases hw with hw | hw <;> rw [hw] <;> rfl⟩
      | cons y tail => exact ⟨y, rfl, by simp [hdot hident y rfl, endsBareField]⟩
    · exact .inl hstar
  | some n =>
    refine yields_fieldGroup_named ?_ (t.leads_ne rfl) hstr
      (hread.mono fun e he s ↦ ⟨e, s, rfl, he⟩)
    have hleads := t.startsType_leads
    cases hk : t.leads <;> first | rfl | (rw [hk] at hleads; cases hleads)

theorem fieldsOf_eq {fields : List (Var Ty)} {parts : List (List (FieldExpr TypeExpr))}
    (h : List.Forall₂ (FieldMeans ctx) fields parts) : ctx.fieldsOf parts.flatten = .ok fields := by
  induction h with
  | nil => rfl
  | @cons v part fields parts hv h ih =>
    obtain ⟨e, s, rfl, he⟩ := hv
    simp [NameContext.fieldsOf, he, ih, Checked.both]

theorem map_entryText (vs : List (Var Ty)) :
    vs.map (fun v ↦ entryText v.name false v.type) = Ty.displayVars vs := by
  induction vs with
  | nil => rfl
  | cons v vs ih => rw [List.map_cons, ih, displayVars_cons]

theorem exists_structWords {fields : List (Var Ty)} (h : ∀ v ∈ fields, HasField ctx v) :
    ∃ ws, HasWords ctx (.struct fields) ws := by
  have hfront : Sealed "struct\x7b" [(.structWord, "struct"), (.lbrace, "\x7b")] :=
    (cuts_word "struct" (by decide)).append_sealed sealed_lbrace ⟨'\x7b', [], rfl, rfl⟩
  have hdisplay : Ty.display (.struct fields) =
      "struct\x7b" ++ "; ".intercalate (fields.map fun v ↦ entryText v.name false v.type) ++
        "\x7d" := by
    rw [map_entryText, Ty.display]
  refine exists_bracedWords "struct field" (fun v hv ↦ (h v hv).exists_words) hfront nofun hdisplay
    fun n ws after hbody ↦ yields_struct (yields_structType (hbody.mono fun all hall s ↦ ?_))
  obtain ⟨parts, hparts, rfl⟩ := hall
  simp [NameContext.typeOf, fieldsOf_eq hparts, Except.map]

end Structs

section Interfaces

def memberText : Ty ⊕ Method Ty → String
  | .inl t => t.display
  | .inr m => m.name ++ Ty.displaySignature m.sig

def members (methods : List (Method Ty)) (embedded : List Ty) : List (Ty ⊕ Method Ty) :=
  embedded.map .inl ++ methods.map .inr

theorem map_memberText (methods : List (Method Ty)) (embedded : List Ty) :
    (members methods embedded).map memberText =
      Ty.displayAll embedded ++ Ty.displayMethods methods := by
  have hembedded : embedded.map (fun t ↦ memberText (.inl t)) = Ty.displayAll embedded := by
    induction embedded with
    | nil => rfl
    | cons t rest ih => rw [List.map_cons, ih, Ty.displayAll, memberText]
  have hmethods : methods.map (fun m ↦ memberText (.inr m)) = Ty.displayMethods methods := by
    induction methods with
    | nil => rfl
    | cons m rest ih => rw [List.map_cons, ih, Ty.displayMethods, memberText]
  rw [members, List.map_append, List.map_map, List.map_map, ← hembedded, ← hmethods]
  rfl

def MemberMeans (ctx : NameContext) : Ty ⊕ Method Ty → List (ElementExpr TypeExpr) → Prop
  | .inl t, elements => ∃ e, elements = [.embedded e] ∧ ctx.typeOf e = .ok t
  | .inr m, elements => ∃ sig s, elements = [.method m.name sig s] ∧ ctx.signatureOf sig = .ok m.sig

theorem methodsOf_eq {methods : List (Method Ty)} {parts : List (List (ElementExpr TypeExpr))}
    (h : List.Forall₂ (MemberMeans ctx) (methods.map .inr) parts) :
    ctx.elementsOf parts.flatten = .ok (methods, []) := by
  induction methods generalizing parts with
  | nil =>
    cases h
    rfl
  | cons m methods ih =>
    cases h with
    | cons hm h =>
      obtain ⟨sig, s, rfl, hsig⟩ := hm
      simp [NameContext.elementsOf, hsig, ih h, Checked.both]

theorem elementsOf_eq {methods : List (Method Ty)} {embedded : List Ty}
    {parts : List (List (ElementExpr TypeExpr))}
    (h : List.Forall₂ (MemberMeans ctx) (members methods embedded) parts) :
    ctx.elementsOf parts.flatten = .ok (methods, embedded) := by
  induction embedded generalizing parts with
  | nil => exact methodsOf_eq h
  | cons t embedded ih =>
    cases h with
    | cons ht h =>
      obtain ⟨e, rfl, he⟩ := ht
      simp [NameContext.elementsOf, he, ih h, Checked.both]

theorem HasWords.member {t : Ty} {ws : List Word} (h : HasWords ctx t ws)
    (hname : t.leads = .ident) :
    ItemWords (fun n ↦ (fun e ↦ [e]) <$> element (typeWithin n)) (memberText (.inl t))
      (MemberMeans ctx (.inl t)) ws where
  cuts := h.cuts
  opens := by
    obtain ⟨w, rest, rfl, hw⟩ := h.exists_cons
    exact ⟨w, rest, rfl, by simp [hw, hname, opensItem]⟩
  reads n w after hn hw := by
    have hread :=
      h.reads n (w :: after) hn (ends_cons (by rcases hw with hw | hw <;> rw [hw] <;> rfl) _)
    obtain ⟨text, rest, rfl, hdot⟩ := h.opens
    obtain ⟨n, rfl⟩ : ∃ m, n = m + 1 := ⟨n - 1, by simp at hn; omega⟩
    rw [hname] at hread hdot ⊢
    refine .map (yields_element_embedded ?_
      ((yields_ident_iff.1 hread).mono fun e he ↦ ⟨e, rfl, he⟩))
    cases rest with
    | nil =>
      rintro _ ⟨⟩
      rcases hw with hw | hw <;> simp [hw]
    | cons x rest =>
      rintro _ ⟨⟩
      simp [hdot rfl x rfl]

theorem parts_displaySignature (sig : Signature Ty) : Parts (Ty.displaySignature sig) := by
  obtain ⟨ps, rs, variadic⟩ := sig
  have hparen : Parts "(" := ⟨'(', [], rfl, rfl⟩
  rw [displaySignature_eq]
  exact ((hparen.append _).append _).append _

theorem HasSignatureWords.type {sig : Signature Ty} {ws : List Word}
    (h : HasSignatureWords ctx sig ws) :
    HasWords ctx (.signature sig) ((.funcWord, "func") :: ws) where
  cuts := (cuts_word "func" (by decide)).append h.cuts (parts_displaySignature sig)
  opens := ⟨"func", ws, rfl, nofun⟩
  completes := h.completes.append_left [(.funcWord, "func")]
  reads n after hn hafter := by
    obtain ⟨n, rfl⟩ : ∃ m, n = m + 1 := ⟨n - 1, by simp at hn; omega⟩
    refine yields_func ((h.reads n after (by simpa using hn) hafter).mono fun sig' hsig s ↦ ?_)
    simp [NameContext.typeOf, hsig, Except.map]

theorem HasSignatureWords.member {m : Method Ty} {ws : List Word}
    (h : HasSignatureWords ctx m.sig ws) (hname : Token.isIdentifier m.name = true) :
    ItemWords (fun n ↦ (fun e ↦ [e]) <$> element (typeWithin n)) (memberText (.inr m))
      (MemberMeans ctx (.inr m)) ((.ident, m.name) :: ws) where
  cuts := (cuts_identifier hname).append h.cuts (parts_displaySignature m.sig)
  opens := ⟨_, _, rfl, rfl⟩
  reads n w after hn hw := by
    obtain ⟨rest, rfl⟩ := h.opens
    have hends : Ends (w :: after) := ends_cons (by rcases hw with hw | hw <;> rw [hw] <;> rfl) _
    have hread := h.reads n (w :: after) (by simp at hn ⊢; omega) hends
    exact .map (yields_element_method (hread.mono fun sig' hsig s ↦ ⟨sig', s, rfl, hsig⟩))

theorem exists_interfaceWords {methods : List (Method Ty)} {embedded : List Ty}
    (he : ∀ t ∈ embedded, t.leads = .ident ∧ ∃ ws, HasWords ctx t ws)
    (hm : ∀ m ∈ methods, Token.isIdentifier m.name = true ∧ ∃ ws, HasSignatureWords ctx m.sig ws) :
    ∃ ws, HasWords ctx (.interface methods embedded) ws := by
  have hmembers : ∀ i ∈ members methods embedded, ∃ ws,
      ItemWords (fun n ↦ (fun e ↦ [e]) <$> element (typeWithin n)) (memberText i)
        (MemberMeans ctx i) ws := by
    intro i hi
    obtain hi | hi := List.mem_append.1 hi
    · obtain ⟨t, ht, rfl⟩ := List.mem_map.1 hi
      obtain ⟨hname, ws, hws⟩ := he t ht
      exact ⟨ws, hws.member hname⟩
    · obtain ⟨m, hm', rfl⟩ := List.mem_map.1 hi
      obtain ⟨hname, ws, hws⟩ := hm m hm'
      exact ⟨_, hws.member hname⟩
  have hfront : Sealed "interface\x7b" [(.interfaceWord, "interface"), (.lbrace, "\x7b")] :=
    (cuts_word "interface" (by decide)).append_sealed sealed_lbrace ⟨'\x7b', [], rfl, rfl⟩
  have hdisplay : Ty.display (.interface methods embedded) =
      "interface\x7b" ++ "; ".intercalate ((members methods embedded).map memberText) ++
        "\x7d" := by
    rw [map_memberText, Ty.display]
  refine exists_bracedWords "interface element" hmembers hfront nofun hdisplay
    fun n ws after hbody ↦ yields_interface (yields_interfaceType (hbody.mono fun all hall s ↦ ?_))
  obtain ⟨parts, hparts, rfl⟩ := hall
  simp [NameContext.typeOf, elementsOf_eq hparts, Except.map]

end Interfaces

end Bodies

end Understudy
