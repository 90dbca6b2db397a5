import Understudy.Resolve
import Understudy.Proofs.WordReading

namespace Understudy

/-- What can stand behind a type in a file. -/
def endsType : TokenKind → Bool
  | .rparen | .rbracket | .rbrace | .comma | .semicolon => true
  | _ => false

def Ends (after : List Word) : Prop := ∃ w rest, after = w :: rest ∧ endsType w.1 = true

theorem ends_cons {w : Word} (h : endsType w.1 = true) (rest : List Word) : Ends (w :: rest) :=
  ⟨w, rest, rfl, h⟩

theorem Ends.ne {after : List Word} {kind : TokenKind} (h : Ends after)
    (hk : endsType kind = false) : ∀ w ∈ after.head?, w.1 ≠ kind := by
  obtain ⟨w, rest, rfl, hw⟩ := h
  rintro _ ⟨⟩ rfl
  simp [hw] at hk

open Piece Reader

/-- `ws` are the words of the text of `t`, and what is read from them means `t`. -/
structure HasWords (ctx : NameContext) (t : Ty) (ws : List Word) : Prop where
  cuts : Cuts t.display ws
  opens : ∃ text rest, ws = (t.leads, text) :: rest ∧
      (t.leads = .ident → ∀ w ∈ rest.head?, w.1 = .dot)
  completes : Completes ws
  reads : ∀ n after, ws.length ≤ n → Ends after →
      Yields (typeWithin n) (ws ++ after) after (ctx.typeOf · = .ok t)

section Types

variable {ctx : NameContext} {t elem : Ty} {ws : List Word}

theorem HasWords.exists_cons (h : HasWords ctx t ws) :
    ∃ w rest, ws = w :: rest ∧ w.1 = t.leads := by
  obtain ⟨text, rest, rfl, -⟩ := h.opens
  exact ⟨_, _, rfl, rfl⟩

theorem hasWords_basic {kind : BasicKind} (h : ctx.decl? kind.name = none) :
    HasWords ctx (.basic kind) [(.ident, kind.name)] where
  cuts := cuts_identifier kind.isIdentifier_name
  opens := ⟨kind.name, [], rfl, fun _ ↦ nofun⟩
  completes := ⟨[], _, rfl, rfl⟩
  reads n after hn hafter := by
    obtain ⟨n, rfl⟩ : ∃ m, n = m + 1 := ⟨n - 1, by simp at hn; omega⟩
    refine yields_ident_iff.2 (yields_typeName (hafter.ne rfl) fun s ↦ ?_)
    simp [NameContext.typeOf, NameContext.namedType, NameContext.localType, h,
      BasicKind.ofName?_name]

theorem hasWords_local {name : String} (hname : Token.isIdentifier name = true)
    (h : ctx.namedType none name = .ok (.named (some ⟨name, none⟩))) :
    HasWords ctx (.named (some ⟨name, none⟩)) [(.ident, name)] where
  cuts := cuts_identifier hname
  opens := ⟨name, [], rfl, fun _ ↦ nofun⟩
  completes := ⟨[], _, rfl, rfl⟩
  reads n after hn hafter := by
    obtain ⟨n, rfl⟩ : ∃ m, n = m + 1 := ⟨n - 1, by simp at hn; omega⟩
    refine yields_ident_iff.2 (yields_typeName (hafter.ne rfl) fun s ↦ ?_)
    simp [NameContext.typeOf, h]

theorem cuts_dot_identifier {name : String} (h : Token.isIdentifier name = true) :
    Cuts ("." ++ name) [(.dot, "."), (.ident, name)] := by
  intro rest hr
  obtain ⟨c, tail, hname, hc, -⟩ := Token.isWord_iff.1 (Token.isIdentifier_iff.1 h).1
  have hdot : c ≠ '.' := by
    rintro rfl
    exact absurd hc (by decide)
  have hmark : CutsBefore "." [(.dot, ".")] (name.toList ++ rest) := by
    apply cutsBefore_token
    rw [hname]
    exact pieces_dot hdot (tail ++ rest)
  exact hmark.append (cuts_identifier h rest hr)

theorem hasWords_qualified {name : String} {module : ModuleRef}
    (hname : Token.isIdentifier name = true) (hpath : Token.isIdentifier module.path = true)
    (h : ctx.namedType (some module.path) name = .ok (.named (some ⟨name, some module⟩))) :
    HasWords ctx (.named (some ⟨name, some module⟩)) [(.ident, module.path), (.dot, "."),
      (.ident, name)] where
  cuts := by
    have hcuts :=
      (cuts_identifier hpath).append (cuts_dot_identifier hname) (⟨'.', name.toList, by simp, rfl⟩)
    rwa [← String.append_assoc] at hcuts
  opens := ⟨module.path, _, rfl, by simp⟩
  completes := ⟨[(.ident, module.path), (.dot, ".")], _, rfl, rfl⟩
  reads n after hn _ := by
    obtain ⟨n, rfl⟩ : ∃ m, n = m + 1 := ⟨n - 1, by simp at hn; omega⟩
    refine yields_ident_iff.2 (yields_typeName_qualified fun s ↦ ?_)
    simp [NameContext.typeOf, h]

theorem HasWords.behind {front : List Word} {text : String} {tail : List Word}
    (h : HasWords ctx elem ws) (hcuts : Cuts t.display (front ++ ws))
    (hfront : front = (t.leads, text) :: tail) (hne : t.leads ≠ .ident)
    (hreads : ∀ n after, (front ++ ws).length ≤ n + 1 → Ends after →
      Yields (typeOver (typeWithin n)) (front ++ (ws ++ after)) after (ctx.typeOf · = .ok t)) :
    HasWords ctx t (front ++ ws) where
  cuts := hcuts
  opens := ⟨text, tail ++ ws, by rw [hfront, List.cons_append], fun h ↦ absurd h hne⟩
  completes := h.completes.append_left front
  reads n after hn hafter := by
    have hpos : 0 < front.length := by simp [hfront]
    obtain ⟨n, rfl⟩ : ∃ m, n = m + 1 := ⟨n - 1, by simp at hn; omega⟩
    rw [List.append_assoc]
    exact hreads n after hn hafter

theorem HasWords.pointer (h : HasWords ctx elem ws) :
    HasWords ctx (.pointer elem) ([(.star, "*")] ++ ws) := by
  refine h.behind (sealed_star.append_cuts h.cuts) rfl nofun fun n after hn hafter ↦ ?_
  refine yields_star ((h.reads n after (by simpa using hn) hafter).mono fun e he s ↦ ?_)
  simp [NameContext.typeOf, he, Except.map]

theorem HasWords.slice (h : HasWords ctx elem ws) :
    HasWords ctx (.slice elem) ([(.lbracket, "["), (.rbracket, "]")] ++ ws) := by
  have hmark : Sealed "[]" [(.lbracket, "["), (.rbracket, "]")] :=
    sealed_lbracket.append sealed_rbracket
  refine h.behind (hmark.append_cuts h.cuts) rfl nofun fun n after hn hafter ↦ ?_
  refine yields_brackets ((h.reads n after (by simp at hn; omega) hafter).mono fun e he s ↦ ?_)
  simp [NameContext.typeOf, he, Except.map]

theorem sealed_lengthMark (length : UInt64) :
    Sealed (lengthMark length) [(.lbracket, "["), (.int, Nat.repr length.toNat),
      (.rbracket, "]")] := by
  have hdigits : Cuts (Nat.repr length.toNat) [(.int, Nat.repr length.toNat)] := by
    intro rest hr
    apply cutsBefore_token
    have hd : ∀ c ∈ Nat.toDigits 10 length.toNat, c.isDigit = true := fun c hc ↦
      Nat.isDigit_of_mem_toDigits (by decide) (by decide) hc
    simpa [Nat.repr] using pieces_number Nat.toDigits_ne_nil hd hr
  exact (sealed_lbracket.append_cuts hdigits).append_sealed sealed_rbracket ⟨']', [], rfl, rfl⟩

theorem HasWords.array (h : HasWords ctx elem ws) (length : UInt64) :
    HasWords ctx (.array length elem)
    ([(.lbracket, "["), (.int, Nat.repr length.toNat), (.rbracket, "]")] ++ ws) := by
  refine h.behind ((sealed_lengthMark length).append_cuts h.cuts) rfl nofun
    fun n after hn hafter ↦ ?_
  refine yields_length (Literal.arrayLength?_toDigits length)
    ((h.reads n after (by simp at hn; omega) hafter).mono fun e he s ↦ ?_)
  simp [NameContext.typeOf, he, Except.map]

theorem HasWords.map {key : Ty} {ks : List Word} (hk : HasWords ctx key ks)
    (h : HasWords ctx elem ws) : HasWords ctx (.map key elem)
      (((.mapWord, "map") :: (.lbracket, "[") :: (ks ++ [(.rbracket, "]")])) ++ ws) := by
  have hmap : Sealed "map[" [(.mapWord, "map"), (.lbracket, "[")] :=
    (cuts_word "map" (by decide)).append_sealed sealed_lbracket ⟨'[', [], rfl, rfl⟩
  have hkey := (hmap.append_cuts hk.cuts).append_sealed sealed_rbracket ⟨']', [], rfl, rfl⟩
  have hcuts : Cuts (Ty.display (.map key elem)) _ := hkey.append_cuts h.cuts
  refine h.behind (by simpa using hcuts) rfl nofun fun n after hn hafter ↦ ?_
  simp only [List.length_append, List.length_cons] at hn
  have hkeys := hk.reads n ((.rbracket, "]") :: (ws ++ after)) (by omega) (ends_cons rfl _)
  have helem := h.reads n after (by omega) hafter
  simp only [List.cons_append, List.append_assoc, List.nil_append]
  refine yields_map hkeys (helem.mono fun e he k hK s ↦ ?_)
  simp [NameContext.typeOf, hK, he, Checked.both]

theorem HasWords.chanBoth (h : HasWords ctx elem ws) (hne : ∀ e, elem ≠ .chan .recv e) :
    HasWords ctx (.chan .both elem) ([(.chanWord, "chan")] ++ ws) := by
  have hmark : Sealed "chan " [(.chanWord, "chan")] :=
    (cuts_word "chan" (by decide)).append_sealed sealed_space ⟨' ', [], rfl, rfl⟩
  refine h.behind (hmark.append_cuts h.cuts) rfl nofun fun n after hn hafter ↦ ?_
  refine yields_chan ?_ ((h.reads n after (by simpa using hn) hafter).mono fun e he s ↦ ?_)
  · obtain ⟨w, rest, rfl, hw⟩ := h.exists_cons
    rintro _ ⟨⟩ harrow
    obtain ⟨e, he⟩ := Ty.leads_eq_arrow (hw.symm.trans harrow)
    exact hne e he
  · simp [NameContext.typeOf, he, Except.map]

theorem HasWords.chanSend (h : HasWords ctx elem ws) :
    HasWords ctx (.chan .send elem) ([(.chanWord, "chan"), (.arrow, "<-")] ++ ws) := by
  have hmark : Sealed "chan<- " [(.chanWord, "chan"), (.arrow, "<-")] :=
    (cuts_word "chan" (by decide)).append_sealed (sealed_arrow.append sealed_space)
      ⟨'<', _, rfl, rfl⟩
  refine h.behind (hmark.append_cuts h.cuts) rfl nofun fun n after hn hafter ↦ ?_
  refine yields_chan_arrow ((h.reads n after (by simp at hn; omega) hafter).mono fun e he s ↦ ?_)
  simp [NameContext.typeOf, he, Except.map]

theorem HasWords.chanRecv (h : HasWords ctx elem ws) :
    HasWords ctx (.chan .recv elem) ([(.arrow, "<-"), (.chanWord, "chan")] ++ ws) := by
  have hword : Sealed "chan " [(.chanWord, "chan")] :=
    (cuts_word "chan" (by decide)).append_sealed sealed_space ⟨' ', [], rfl, rfl⟩
  have hmark : Sealed "<-chan " [(.arrow, "<-"), (.chanWord, "chan")] := sealed_arrow.append hword
  refine h.behind (hmark.append_cuts h.cuts) rfl nofun fun n after hn hafter ↦ ?_
  refine yields_arrow ((h.reads n after (by simp at hn; omega) hafter).mono fun e he s ↦ ?_)
  simp [NameContext.typeOf, he, Except.map]

end Types

end Understudy
