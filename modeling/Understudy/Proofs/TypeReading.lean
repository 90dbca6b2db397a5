import Understudy.Proofs.ReaderSteps
import Understudy.Proofs.TypeText

namespace Understudy

/-- A written type that stands for `t` where names are qualified by `q`. -/
inductive TypeExpr.Writes (q : TypeName → Option String) : TypeExpr → Ty → Prop
  | basic (kind : BasicKind) (s : Span) : Writes q (.name none kind.name s) (.basic kind)
  | named (name : TypeName) (s : Span) : Writes q (.name (q name) name.name s) (.named (some name))
  | pointer {e : TypeExpr} {t : Ty} (h : Writes q e t) (s : Span) :
      Writes q (.pointer e s) (.pointer t)
  | slice {e : TypeExpr} {t : Ty} (h : Writes q e t) (s : Span) : Writes q (.slice e s) (.slice t)
  | array {e : TypeExpr} {t : Ty} (length : UInt64) (h : Writes q e t) (s : Span) :
      Writes q (.array length e s) (.array length t)
  | map {k e : TypeExpr} {key t : Ty} (hk : Writes q k key) (h : Writes q e t) (s : Span) :
      Writes q (.map k e s) (.map key t)
  | chan {e : TypeExpr} {t : Ty} (dir : ChanDir) (h : Writes q e t) (s : Span) :
      Writes q (.chan dir e s) (.chan dir t)

theorem Literal.arrayLength?_toDigits (length : UInt64) :
    arrayLength? (ungroup (String.ofList (Nat.toDigits 10 length.toNat))) = some length := by
  have hd : ∀ c ∈ Nat.toDigits 10 length.toNat, c.isDigit = true := fun c hc ↦
    Nat.isDigit_of_mem_toDigits (by decide) (by decide) hc
  have hu : (Nat.toDigits 10 length.toNat).filter (· ≠ '_') = Nat.toDigits 10 length.toNat := by
    rw [List.filter_eq_self]
    intro c hc
    have h : c ≠ '_' := fun h ↦ Nat.underscore_not_in_toDigits (h ▸ hc)
    simpa using h
  have hv : decimal (Nat.toDigits 10 length.toNat) = length.toNat := Nat.ofDigitChars_ten_toDigits
  have hlt : decimal (Nat.toDigits 10 length.toNat) < UInt64.size := by
    rw [hv]
    exact length.toNat_lt
  have hplus : ∀ rest, Nat.toDigits 10 length.toNat ≠ '+' :: rest := by
    intro rest h
    exact absurd (hd '+' (h ▸ List.mem_cons_self ..)) (by decide)
  rw [ungroup, String.toList_ofList, hu, arrayLength?, String.toList_ofList]
  split
  · rename_i rest h
    exact absurd h (hplus rest)
  · rw [if_pos ⟨Nat.toDigits_ne_nil, List.all_eq_true.2 hd, hlt⟩, hv]
    simp

namespace Ty

/-- What the text of a type means: an arrow between two channel words belongs to the first of
them. -/
def readBack : Ty → Ty
  | .chan .both (.chan .recv elem) => .chan .send (readBack (.chan .both elem))
  | .chan dir elem => .chan dir (readBack elem)
  | .pointer elem => .pointer (readBack elem)
  | .slice elem => .slice (readBack elem)
  | .array length elem => .array length (readBack elem)
  | .map key elem => .map (readBack key) (readBack elem)
  | t => t
termination_by t => sizeOf t

/-- No channel that is open at both ends carries directly one that only receives. -/
def keepsArrows : Ty → Bool
  | .chan .both (.chan .recv _) => false
  | .chan _ elem | .pointer elem | .slice elem | .array _ elem => keepsArrows elem
  | .map key elem => keepsArrows key && keepsArrows elem
  | _ => true

theorem readBack_eq_iff (t : Ty) : t.readBack = t ↔ t.keepsArrows = true := by
  induction t using Ty.readBack.induct with
  | case1 elem ih => simp [readBack, keepsArrows]
  | case2 dir elem hne ih =>
    rw [readBack, keepsArrows]
    · simpa using ih
    all_goals exact hne
  | case3 elem ih => simpa [readBack, keepsArrows] using ih
  | case4 elem ih => simpa [readBack, keepsArrows] using ih
  | case5 length elem ih => simpa [readBack, keepsArrows] using ih
  | case6 key elem ihk ih => simp [readBack, keepsArrows, ihk, ih]
  | case7 t =>
    rw [readBack, keepsArrows]
    · simp
    all_goals assumption

theorem MadeOf.readBack {names : TypeName → Prop} {t : Ty} (h : t.MadeOf names) :
    t.readBack.MadeOf names := by
  induction t using Ty.readBack.induct with
  | case1 elem ih =>
    rw [Ty.readBack]
    cases h with
    | chan _ h =>
      cases h with
      | chan _ h => exact .chan .send (ih (.chan .both h))
  | case2 dir elem hne ih =>
    rw [Ty.readBack]
    · cases h with
      | chan _ h => exact .chan dir (ih h)
    · exact hne
  | case3 elem ih =>
    rw [Ty.readBack]
    cases h with
    | pointer h => exact .pointer (ih h)
  | case4 elem ih =>
    rw [Ty.readBack]
    cases h with
    | slice h => exact .slice (ih h)
  | case5 length elem ih =>
    rw [Ty.readBack]
    cases h with
    | array _ h => exact .array length (ih h)
  | case6 key elem ihk ih =>
    rw [Ty.readBack]
    cases h with
    | map hk h => exact .map (ihk hk) (ih h)
  | case7 t =>
    rw [Ty.readBack]
    · exact h
    all_goals assumption

end Ty

namespace Reader

def spanning (p : Reader TypeExpr) (start : Nat) (make : TypeExpr → Span → TypeExpr) :
    Reader TypeExpr := do
  let elem ← p
  return make elem (← range start elem.span.stop)

section Over

variable {p : Reader TypeExpr} {ts : List Token} {t b : Token} {last : Nat}

theorem typeOver_ident (h : t.kind = .ident) :
    typeOver p ⟨t :: ts, last⟩ = typeName ⟨t :: ts, last⟩ := by
  rw [typeOver, bind_cursor]
  simp only [List.head?_cons, h]

theorem typeOver_star (h : t.kind = .star) :
    typeOver p ⟨t :: ts, last⟩ = spanning p t.span.start .pointer ⟨ts, t.span.stop⟩ := by
  rw [typeOver, bind_cursor]
  simp only [List.head?_cons, h]
  exact bind_done (eat_cons h)

theorem typeOver_brackets (h : t.kind = .lbracket) (hb : b.kind = .rbracket) :
    typeOver p ⟨t :: b :: ts, last⟩ = spanning p t.span.start .slice ⟨ts, b.span.stop⟩ := by
  rw [typeOver, bind_cursor]
  simp only [List.head?_cons, h]
  rw [bind_done (eat_cons h), bracketed, bind_done (eat_cons hb)]
  rfl

theorem typeOver_length {n : Token} {length : UInt64} (h : t.kind = .lbracket) (hn : n.kind = .int)
    (hl : Literal.arrayLength? (Literal.ungroup n.text) = some length) (hb : b.kind = .rbracket) :
    typeOver p ⟨t :: n :: b :: ts, last⟩ = spanning p t.span.start (.array length)
      ⟨ts, b.span.stop⟩ := by
  have hnb : ∀ x ∈ (n :: b :: ts).head?, x.kind ≠ .rbracket := head?_ne hn (by decide)
  rw [typeOver, bind_cursor]
  simp only [List.head?_cons, h]
  rw [bind_done (eat_cons h), bracketed, bind_done (eat_of_head? hnb)]
  simp only [Bool.false_eq_true, if_false]
  rw [bind_done (expect_cons hn _)]
  simp only [hl]
  exact bind_done (expect_cons hb _)

theorem typeOver_map (h : t.kind = .mapWord) (hb : b.kind = .lbracket) :
    typeOver p ⟨t :: b :: ts, last⟩ = (do
      let key ← p
      let _ ← expect .rbracket "expected `]` after map key type"
      spanning p t.span.start (.map key)) ⟨ts, b.span.stop⟩ := by
  rw [typeOver, bind_cursor]
  simp only [List.head?_cons, h]
  rw [bind_done (eat_cons h), bind_done (expect_cons hb _)]
  rfl

theorem typeOver_chan (h : t.kind = .chanWord) (hts : ∀ x ∈ ts.head?, x.kind ≠ .arrow) :
    typeOver p ⟨t :: ts, last⟩ = spanning p t.span.start (.chan .both) ⟨ts, t.span.stop⟩ := by
  rw [typeOver, bind_cursor]
  simp only [List.head?_cons, h]
  rw [bind_done (eat_cons h), bind_done (eat_of_head? hts)]
  rfl

theorem typeOver_chan_arrow (h : t.kind = .chanWord) (hb : b.kind = .arrow) :
    typeOver p ⟨t :: b :: ts, last⟩ = spanning p t.span.start (.chan .send) ⟨ts, b.span.stop⟩ := by
  rw [typeOver, bind_cursor]
  simp only [List.head?_cons, h]
  rw [bind_done (eat_cons h), bind_done (eat_cons hb)]
  rfl

theorem typeOver_arrow (h : t.kind = .arrow) (hb : b.kind = .chanWord) :
    typeOver p ⟨t :: b :: ts, last⟩ = spanning p t.span.start (.chan .recv) ⟨ts, b.span.stop⟩ := by
  rw [typeOver, bind_cursor]
  simp only [List.head?_cons, h]
  rw [bind_done (eat_cons h)]
  exact bind_done (expect_cons hb _)

end Over

end Reader

end Understudy
