import Understudy.Proofs.ReaderRuns
import Understudy.Proofs.TypeReading

namespace Understudy.Reader

variable {α β : Type} {p : Reader α} {c c' : Cursor} {a : α} {kind : TokenKind} {message : String}

theorem bind_eq_done {f : α → Reader β} {b : β} :
    (p >>= f) c = .done b c' ↔ ∃ a c₁, p c = .done a c₁ ∧ f a c₁ = .done b c' := by
  rw [bind_apply]
  constructor
  · intro h
    cases hp : p c with
    | done a c₁ => exact ⟨a, c₁, rfl, by rwa [hp] at h⟩
    | rejected | fault =>
      rw [hp] at h
      cases h
  · rintro ⟨a, c₁, hp, ha⟩
    rwa [hp]

theorem map_eq_done {f : α → β} {b : β} :
    (f <$> p) c = .done b c' ↔ ∃ a, p c = .done a c' ∧ f a = b := by
  rw [← bind_pure_comp, bind_eq_done]
  constructor
  · rintro ⟨a, c₁, hp, ha⟩
    cases ha
    exact ⟨a, hp, rfl⟩
  · rintro ⟨a, hp, rfl⟩
    exact ⟨a, c', hp, rfl⟩

theorem pure_eq_done {b : α} : (pure a : Reader α) c = .done b c' ↔ a = b ∧ c = c' := by
  rw [pure_apply, Reply.done.injEq]

theorem ite_eq_done {b : Prop} [Decidable b] {p' : Reader α}
    (h : (if b then p else p') c = .done a c') :
    (b ∧ p c = .done a c') ∨ (¬b ∧ p' c = .done a c') := by
  split at h
  · exact .inl ⟨‹b›, h⟩
  · exact .inr ⟨‹¬b›, h⟩

theorem expect_eq_done {t : Token} :
    expect kind message c = .done t c' ↔ c.Takes t c' ∧ t.kind = kind := by
  obtain ⟨tokens, last⟩ := c
  obtain ⟨tokens', last'⟩ := c'
  cases tokens with
  | nil => exact ⟨nofun, fun h ↦ nomatch h.1.tokens⟩
  | cons u rest =>
    rw [expect]
    dsimp only
    split
    · rename_i hkind
      constructor
      · rintro ⟨⟩
        exact ⟨Cursor.takes_mk, hkind⟩
      · rintro ⟨⟨htokens, hlast⟩, -⟩
        cases htokens
        cases hlast
        rfl
    · rename_i hkind
      refine ⟨nofun, ?_⟩
      rintro ⟨⟨htokens, -⟩, h⟩
      cases htokens
      exact absurd h hkind

theorem ident_eq_done {w : String × Span} :
    ident message c = .done w c' ↔ ∃ t, c.Takes t c' ∧ t.kind = .ident ∧ w = (t.text, t.span) := by
  rw [ident, bind_eq_done]
  constructor
  · rintro ⟨t, c₁, ht, hw⟩
    cases hw
    obtain ⟨htakes, hkind⟩ := expect_eq_done.1 ht
    exact ⟨t, htakes, hkind, rfl⟩
  · rintro ⟨t, htakes, hkind, rfl⟩
    exact ⟨t, c', expect_eq_done.2 ⟨htakes, hkind⟩, rfl⟩

theorem eat_eq_done {taken : Bool} (h : eat kind c = .done taken c') :
    (taken = true ∧ ∃ t, c.Takes t c' ∧ t.kind = kind) ∨
      (taken = false ∧ c' = c ∧ ∀ t ∈ c.tokens.head?, t.kind ≠ kind) := by
  obtain ⟨tokens, last⟩ := c
  cases tokens with
  | nil =>
    cases h
    exact .inr ⟨rfl, rfl, nofun⟩
  | cons t rest =>
    rw [eat] at h
    dsimp only at h
    split at h
    · rename_i hkind
      cases h
      exact .inl ⟨rfl, t, Cursor.takes_mk, hkind⟩
    · rename_i hkind
      cases h
      exact .inr ⟨rfl, rfl, by rintro _ ⟨⟩; exact hkind⟩

theorem range_eq_done {start stop : Nat} {s : Span} (h : range start stop c = .done s c') :
    s = ⟨start, stop⟩ ∧ c' = c := by
  by_cases hle : start ≤ stop
  · rw [range_of_le hle] at h
    cases h
    exact ⟨rfl, rfl⟩
  · rw [range, Span.between?, if_neg hle] at h
    cases h

theorem join_eq_done {s t u : Span} (h : join s t c = .done u c') :
    u = ⟨min s.start t.start, max s.stop t.stop⟩ ∧ c' = c := range_eq_done h

theorem attempt_eq_done {r : Except Diagnostic α} (h : attempt p c = .done r c') :
    (∃ a, r = .ok a ∧ p c = .done a c') ∨ ∃ d, r = .error d ∧ p c = .rejected d c' := by
  unfold attempt at h
  cases hp : p c with
  | done a c₁ =>
    rw [hp] at h
    cases h
    exact .inl ⟨a, rfl, rfl⟩
  | rejected d c₁ =>
    rw [hp] at h
    cases h
    exact .inr ⟨d, rfl, rfl⟩
  | fault e =>
    rw [hp] at h
    cases h

theorem terminator_steps {what : String} (h : terminator what c = .done () c') : c.Steps c' := by
  have hruns : Meets False 0 c _ _ := runs_terminator nofun what
  rw [h] at hruns
  exact hruns.1

theorem spanning_eq_done {p : Reader TypeExpr} {start : Nat} {make : TypeExpr → Span → TypeExpr}
    {e : TypeExpr} (h : spanning p start make c = .done e c') :
    ∃ elem, p c = .done elem c' ∧ e = make elem ⟨start, elem.span.stop⟩ := by
  simp only [spanning, bind_eq_done, pure_eq_done] at h
  obtain ⟨elem, c₁, helem, s, c₂, hs, rfl, rfl⟩ := h
  obtain ⟨rfl, rfl⟩ := range_eq_done hs
  exact ⟨elem, helem, rfl⟩

def DoneAs (p : Reader α) (c : Cursor) (Q : α → Cursor → Prop) : Prop :=
  ∀ ⦃a c'⦄, p c = .done a c' → Q a c'

theorem doneAs_cursor_bind {f : Cursor → Reader α} {Q : α → Cursor → Prop} (h : DoneAs (f c) c Q) :
    DoneAs (cursor >>= f) c Q := h

theorem eat_head_eq_done {t : Token} {taken : Bool} (hhead : c.tokens.head? = some t)
    (hkind : t.kind = kind) (h : eat kind c = .done taken c') : c.Takes t c' ∧ t.kind = kind := by
  obtain ⟨-, u, hu, -⟩ | ⟨-, -, hne⟩ := eat_eq_done h
  · obtain rfl : u = t := by simpa [hu.tokens] using hhead
    exact ⟨hu, hkind⟩
  · exact absurd hkind (hne t hhead)

inductive NameRead (c c' : Cursor) : TypeExpr → Prop
  | bare {t : Token} (ht : c.Takes t c' ∧ t.kind = .ident)
      (hne : ∀ x ∈ c'.tokens.head?, x.kind ≠ .dot) : NameRead c c' (.name none t.text t.span)
  | qualified {t d i : Token} {c₁ c₂ : Cursor} (ht : c.Takes t c₁ ∧ t.kind = .ident)
      (hd : c₁.Takes d c₂ ∧ d.kind = .dot) (hi : c₂.Takes i c' ∧ i.kind = .ident) : NameRead c c'
        (.name (some t.text) i.text ⟨min t.span.start i.span.start, max t.span.stop i.span.stop⟩)

/-- How a body in braces was read, behind the word in front of it. -/
inductive BracesRead (word : TokenKind) (body : Reader α) (c c' : Cursor) : α → Span → Prop
  | mk {t b d : Token} {c₁ c₂ c₃ : Cursor} {a : α} (ht : c.Takes t c₁ ∧ t.kind = word)
      (hb : c₁.Takes b c₂ ∧ b.kind = .lbrace) (h : body c₂ = .done a c₃)
      (hd : c₃.Takes d c' ∧ d.kind = .rbrace) :
      BracesRead word body c c' a ⟨t.span.start, d.span.stop⟩

/-- How a type was read, by the words that it begins with. The types inside it were read by `p`. -/
inductive TypeRead (p : Reader TypeExpr) (c c' : Cursor) : TypeExpr → Prop
  | name {e : TypeExpr} (h : NameRead c c' e) : TypeRead p c c' e
  | pointer {t : Token} {c₁ : Cursor} {elem : TypeExpr} (ht : c.Takes t c₁ ∧ t.kind = .star)
      (h : p c₁ = .done elem c') : TypeRead p c c' (.pointer elem ⟨t.span.start, elem.span.stop⟩)
  | slice {t b : Token} {c₁ c₂ : Cursor} {elem : TypeExpr} (ht : c.Takes t c₁ ∧ t.kind = .lbracket)
      (hb : c₁.Takes b c₂ ∧ b.kind = .rbracket) (h : p c₂ = .done elem c') :
      TypeRead p c c' (.slice elem ⟨t.span.start, elem.span.stop⟩)
  | array {t n b : Token} {c₁ c₂ c₃ : Cursor} {elem : TypeExpr} {length : UInt64}
      (ht : c.Takes t c₁ ∧ t.kind = .lbracket) (hn : c₁.Takes n c₂ ∧ n.kind = .int)
      (hlength : Literal.arrayLength? (Literal.ungroup n.text) = some length)
      (hb : c₂.Takes b c₃ ∧ b.kind = .rbracket) (h : p c₃ = .done elem c') :
      TypeRead p c c' (.array length elem ⟨t.span.start, elem.span.stop⟩)
  | map {t b d : Token} {c₁ c₂ c₃ c₄ : Cursor} {key elem : TypeExpr}
      (ht : c.Takes t c₁ ∧ t.kind = .mapWord) (hb : c₁.Takes b c₂ ∧ b.kind = .lbracket)
      (hkey : p c₂ = .done key c₃) (hd : c₃.Takes d c₄ ∧ d.kind = .rbracket)
      (h : p c₄ = .done elem c') : TypeRead p c c' (.map key elem ⟨t.span.start, elem.span.stop⟩)
  | chan {t : Token} {c₁ : Cursor} {elem : TypeExpr} (ht : c.Takes t c₁ ∧ t.kind = .chanWord)
      (hne : ∀ x ∈ c₁.tokens.head?, x.kind ≠ .arrow) (h : p c₁ = .done elem c') :
      TypeRead p c c' (.chan .both elem ⟨t.span.start, elem.span.stop⟩)
  | send {t b : Token} {c₁ c₂ : Cursor} {elem : TypeExpr} (ht : c.Takes t c₁ ∧ t.kind = .chanWord)
      (hb : c₁.Takes b c₂ ∧ b.kind = .arrow) (h : p c₂ = .done elem c') :
      TypeRead p c c' (.chan .send elem ⟨t.span.start, elem.span.stop⟩)
  | recv {t b : Token} {c₁ c₂ : Cursor} {elem : TypeExpr} (ht : c.Takes t c₁ ∧ t.kind = .arrow)
      (hb : c₁.Takes b c₂ ∧ b.kind = .chanWord) (h : p c₂ = .done elem c') :
      TypeRead p c c' (.chan .recv elem ⟨t.span.start, elem.span.stop⟩)
  | func {t : Token} {c₁ : Cursor} {sig : SignatureExpr TypeExpr}
      (ht : c.Takes t c₁ ∧ t.kind = .funcWord) (h : signature p c₁ = .done sig c') :
      TypeRead p c c' (.func sig ⟨t.span.start, sig.span.stop⟩)
  | interface {elements : List (ElementExpr TypeExpr)} {s : Span} (h : BracesRead .interfaceWord
      (bounded (bodyItems "interface element" ((fun e ↦ [e]) <$> element p))) c c' elements s) :
      TypeRead p c c' (.interface elements s)
  | struct {fields : List (FieldExpr TypeExpr)} {s : Span}
      (h : BracesRead .structWord (bounded (bodyItems "struct field" (fieldGroup p))) c
        c' fields s) : TypeRead p c c' (.struct fields s)
  | parens {t b : Token} {c₁ c₂ : Cursor} {e : TypeExpr} (ht : c.Takes t c₁ ∧ t.kind = .lparen)
      (h : p c₁ = .done e c₂) (hb : c₂.Takes b c' ∧ b.kind = .rparen) : TypeRead p c c' e

/-- How the results of a signature were read: a list in parentheses, one type without a name, or
nothing. -/
inductive ResultsRead (p : Reader TypeExpr) (c c' : Cursor) : List (ParamExpr TypeExpr) → Prop
  | list {rs : List (ParamExpr TypeExpr)} (h : params p c = .done rs c') : ResultsRead p c c' rs
  | single {type : TypeExpr} (hstarts : ∀ t ∈ c.tokens.head?, startsType t.kind = true)
      (h : p c = .done type c') : ResultsRead p c c' [⟨none, type, false, type.span⟩]
  | empty (h : c = c') : ResultsRead p c c' []

section Types

variable {p : Reader TypeExpr} {e : TypeExpr} {c₁ : Cursor} {t : Token}

theorem nameRead_of_typeName (h : typeName c = .done e c') : NameRead c c' e := by
  simp only [typeName, bind_eq_done, ident_eq_done] at h
  obtain ⟨_, c₁, ⟨t, ht, hkind, rfl⟩, dotted, c₂, hdot, h⟩ := h
  obtain ⟨rfl, d, hd⟩ | ⟨rfl, rfl, hne⟩ := eat_eq_done hdot
  · simp only [if_true, bind_eq_done, ident_eq_done, pure_eq_done] at h
    obtain ⟨_, c₃, ⟨i, hi, hkind', rfl⟩, s, c₄, hs, rfl, rfl⟩ := h
    obtain ⟨rfl, rfl⟩ := join_eq_done hs
    exact .qualified ⟨ht, hkind⟩ hd ⟨hi, hkind'⟩
  · cases h
    exact .bare ⟨ht, hkind⟩ hne

theorem exists_bracesRead {word : TokenKind} {x y z : String} {body : Reader α} {make : α →
  Span → TypeExpr}
    (h : (do
      let word ← expect word x
      let _ ← expect .lbrace y
      let a ← body
      let close ← expect .rbrace z
      return make a (← range word.span.start close.span.stop) : Reader TypeExpr) c = .done e c') :
    ∃ a s, BracesRead word body c c' a s ∧ e = make a s := by
  simp only [bind_eq_done, pure_eq_done, expect_eq_done] at h
  obtain ⟨t, c₁, ht, b, c₂, hb, a, c₃, ha, d, c₄, hd, s, c₅, hs, rfl, rfl⟩ := h
  obtain ⟨rfl, rfl⟩ := range_eq_done hs
  exact ⟨a, _, .mk ht hb ha hd, rfl⟩

theorem typeRead_of_bracketed (ht : c.Takes t c₁ ∧ t.kind = .lbracket)
    (h : bracketed p t.span.start c₁ = .done e c') : TypeRead p c c' e := by
  rw [bracketed, bind_eq_done] at h
  obtain ⟨closed, c₂, hclosed, h⟩ := h
  obtain ⟨rfl, b, hb⟩ | ⟨rfl, rfl, -⟩ := eat_eq_done hclosed
  · obtain ⟨elem, helem, rfl⟩ := spanning_eq_done h
    exact .slice ht hb helem
  · rw [if_neg Bool.false_ne_true, bind_eq_done] at h
    obtain ⟨n, c₃, hn, h⟩ := h
    cases hlength : Literal.arrayLength? (Literal.ungroup n.text) with
    | none =>
      simp only [hlength] at h
      cases h
    | some length =>
      simp only [hlength] at h
      obtain ⟨b, c₄, hb, h⟩ := bind_eq_done.1 h
      obtain ⟨elem, helem, rfl⟩ := spanning_eq_done h
      exact .array ht (expect_eq_done.1 hn) hlength (expect_eq_done.1 hb) helem

theorem doneAs_typeOver : DoneAs (typeOver p) c fun e c' ↦ TypeRead p c c' e := by
  refine doneAs_cursor_bind ?_
  split
  · exact nofun
  rename_i t hhead
  have heat {kind : TokenKind} {taken : Bool} {c₁ : Cursor} (hkind : t.kind = kind)
      (h : eat kind c = .done taken c₁) :
      c.Takes t c₁ ∧ t.kind = kind := eat_head_eq_done hhead hkind h
  dsimp only
  -- one case for each word that a type can begin with, in the order of `typeOver`
  split
  · exact fun _ _ h ↦ .name (nameRead_of_typeName h)
  · rename_i hkind
    intro e c' h
    obtain ⟨_, c₁, hstar, h⟩ := bind_eq_done.1 h
    obtain ⟨elem, helem, rfl⟩ := spanning_eq_done h
    exact .pointer (heat hkind hstar) helem
  · rename_i hkind
    intro e c' h
    obtain ⟨_, c₁, hbracket, h⟩ := bind_eq_done.1 h
    exact typeRead_of_bracketed (heat hkind hbracket) h
  · rename_i hkind
    intro e c' h
    simp only [bind_eq_done, pure_eq_done, expect_eq_done] at h
    obtain ⟨_, c₁, hword, b, c₂, hb, key, c₃, hkey, d, c₄, hd, elem, c₅, helem, s, c₆, hs,
        rfl, rfl⟩ := h
    obtain ⟨rfl, rfl⟩ := range_eq_done hs
    exact .map (heat hkind hword) hb hkey hd helem
  · rename_i hkind
    intro e c' h
    obtain ⟨_, c₁, hword, h⟩ := bind_eq_done.1 h
    obtain ⟨arrow, c₂, harrow, h⟩ := bind_eq_done.1 h
    obtain ⟨elem, helem, rfl⟩ := spanning_eq_done h
    obtain ⟨rfl, b, hb⟩ | ⟨rfl, rfl, hne⟩ := eat_eq_done harrow
    · exact .send (heat hkind hword) hb helem
    · exact .chan (heat hkind hword) hne helem
  · rename_i hkind
    intro e c' h
    obtain ⟨_, c₁, harrow, h⟩ := bind_eq_done.1 h
    obtain ⟨b, c₂, hb, h⟩ := bind_eq_done.1 h
    obtain ⟨elem, helem, rfl⟩ := spanning_eq_done h
    exact .recv (heat hkind harrow) (expect_eq_done.1 hb) helem
  · rename_i hkind
    intro e c' h
    simp only [bind_eq_done, pure_eq_done] at h
    obtain ⟨_, c₁, hword, sig, c₂, hsig, s, c₃, hs, rfl, rfl⟩ := h
    obtain ⟨rfl, rfl⟩ := range_eq_done hs
    exact .func (heat hkind hword) hsig
  · intro e c' h
    obtain ⟨elements, s, hbraces, rfl⟩ := exists_bracesRead h
    exact .interface hbraces
  · intro e c' h
    obtain ⟨fields, s, hbraces, rfl⟩ := exists_bracesRead h
    exact .struct hbraces
  · rename_i hkind
    intro e c' h
    simp only [bind_eq_done, pure_eq_done, expect_eq_done] at h
    obtain ⟨_, c₁, hparen, inner, c₂, hinner, b, c₃, hb, rfl, rfl⟩ := h
    exact .parens (heat hkind hparen) hinner hb
  · exact nofun

theorem typeRead_of_typeOver (h : typeOver p c = .done e c') : TypeRead p c c' e :=
  doneAs_typeOver h

theorem resultsRead_of_results {rs : List (ParamExpr TypeExpr)} (h : results p c = .done rs c') :
    ResultsRead p c c' rs := by
  rw [results, bind_cursor] at h
  obtain ⟨-, h⟩ | ⟨-, h⟩ := ite_eq_done h
  · exact .list h
  · obtain ⟨hstarts, h⟩ | ⟨-, h⟩ := ite_eq_done h
    · simp only [bind_eq_done, pure_eq_done] at h
      obtain ⟨type, c₁, htype, rfl, rfl⟩ := h
      refine .single (fun t ht ↦ ?_) htype
      simpa [Option.mem_def.1 ht] using hstarts
    · obtain ⟨rfl, rfl⟩ := pure_eq_done.1 h
      exact .empty rfl

theorem signature_eq_done {sig : SignatureExpr TypeExpr} (h : signature p c = .done sig c') :
    ∃ c₁, params p c = .done sig.params c₁ ∧ ResultsRead p c₁ c' sig.results ∧
      sig.results.find? (·.variadic) = none := by
  rw [signature, bind_cursor] at h
  simp only [bind_eq_done] at h
  obtain ⟨inputs, c₁, hin, outputs, c₂, hout, h⟩ := h
  cases hfind : outputs.find? (·.variadic) with
  | some output =>
    rw [hfind] at h
    cases h
  | none =>
    simp only [hfind, bind_cursor, bind_eq_done, pure_eq_done] at h
    obtain ⟨s, c₃, hs, rfl, rfl⟩ := h
    obtain ⟨-, rfl⟩ := range_eq_done hs
    exact ⟨c₁, hin, resultsRead_of_results hout, hfind⟩

end Types

end Understudy.Reader
