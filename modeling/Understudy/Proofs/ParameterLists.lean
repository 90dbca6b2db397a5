import Mathlib.Data.List.Forall2
import Understudy.Proofs.ReaderReplies
import Understudy.Proofs.TypeSpans
import Understudy.Proofs.WordReading

namespace Understudy

namespace Cursor

def TakesPerhaps (c : Cursor) (kind : TokenKind) : Option Token → Cursor → Prop
  | some t, c₁ => c.Takes t c₁ ∧ t.kind = kind
  | none, c₁ => c₁ = c

variable {c c₁ : Cursor} {kind : TokenKind} {t? : Option Token}

theorem TakesPerhaps.steps (h : c.TakesPerhaps kind t? c₁) : c.Steps c₁ := by
  cases t? with
  | none =>
    cases h
    exact .refl
  | some t => exact h.1.steps

theorem TakesPerhaps.tokens (h : c.TakesPerhaps kind t? c₁) :
    c.tokens = t?.toList ++ c₁.tokens := by
  cases t? with
  | none =>
    cases h
    rfl
  | some t => exact h.1.tokens

theorem TakesPerhaps.kind_eq (h : c.TakesPerhaps kind t? c₁) : ∀ t ∈ t?, t.kind = kind := by
  rintro t rfl
  exact h.2

theorem Steps.exists_tokens (h : c.Steps c₁) : ∃ text, c.tokens = text ++ c₁.tokens := by
  induction h with
  | refl => exact ⟨[], rfl⟩
  | tail _ hstep ih =>
    obtain ⟨text, htext⟩ := ih
    obtain ⟨t, ht⟩ := hstep
    exact ⟨text ++ [t], by rw [htext, ht.tokens, List.append_assoc, List.singleton_append]⟩

end Cursor

namespace Reader

variable {α : Type} {p : Reader TypeExpr} {c c' : Cursor}

theorem eat_takesPerhaps {kind : TokenKind} {taken : Bool} (h : eat kind c = .done taken c') :
    ∃ t?, c.TakesPerhaps kind t? c' ∧ taken = t?.isSome := by
  obtain ⟨rfl, t, ht, hkind⟩ | ⟨rfl, rfl, -⟩ := eat_eq_done h
  · exact ⟨some t, ⟨ht, hkind⟩, rfl⟩
  · exact ⟨none, rfl, rfl⟩

theorem paramEntry_eq_done {x : ParamExpr TypeExpr} (h : paramEntry p c = .done x c') :
    ∃ name ellipsis c₁ c₂, c.TakesPerhaps .ident name c₁ ∧ c₁.TakesPerhaps .ellipsis ellipsis c₂ ∧
      p c₂ = .done x.type c' ∧ x.name = name.map (·.text) ∧ x.variadic = ellipsis.isSome := by
  have htail : ∀ (name : Option Token) {c₁ : Cursor}, c.TakesPerhaps .ident name c₁ →
      entryTail p c.start (name.map (·.text)) c₁ = .done x c' →
      ∃ name ellipsis c₁ c₂, c.TakesPerhaps .ident name c₁ ∧
        c₁.TakesPerhaps .ellipsis ellipsis c₂ ∧ p c₂ = .done x.type c' ∧
        x.name = name.map (·.text) ∧
        x.variadic = ellipsis.isSome := by
    intro name c₁ hname h
    simp only [entryTail, bind_eq_done, pure_eq_done] at h
    obtain ⟨variadic, c₂, hvariadic, e, c₃, he, s, c₄, hs, rfl, rfl⟩ := h
    obtain ⟨-, rfl⟩ := range_eq_done hs
    obtain ⟨ellipsis, hellipsis, rfl⟩ := eat_takesPerhaps hvariadic
    exact ⟨name, ellipsis, c₁, c₂, hname, hellipsis, he, rfl, rfl⟩
  rw [paramEntry, bind_cursor] at h
  obtain ⟨-, h⟩ | ⟨-, h⟩ := ite_eq_done h
  · rw [bind_map_left, bind_eq_done] at h
    obtain ⟨word, c₁, hword, h⟩ := h
    obtain ⟨t, ht, hkind, rfl⟩ := ident_eq_done.1 hword
    exact htail (some t) ⟨ht, hkind⟩ h
  · exact htail none rfl h

/-- Entries are read one after the other, with commas between them and perhaps behind the last. -/
inductive EntriesRead (p : Reader TypeExpr) : Cursor → List (ParamExpr TypeExpr) → Cursor → Prop
  | nil (c : Cursor) : EntriesRead p c [] c
  | last {c c' : Cursor} {x : ParamExpr TypeExpr} (h : paramEntry p c = .done x c') :
      EntriesRead p c [x] c'
  | cons {c c₁ c₂ c' : Cursor} {x : ParamExpr TypeExpr} {xs : List (ParamExpr TypeExpr)}
      {comma : Token} (h : paramEntry p c = .done x c₁) (hcomma : c₁.Takes comma c₂)
      (hkind : comma.kind = .comma) (hrest : EntriesRead p c₂ xs c') : EntriesRead p c (x :: xs) c'

theorem entriesRead_of_done {m : Nat} {xs : List (ParamExpr TypeExpr)}
    (h : paramEntries p m c = .done xs c') : EntriesRead p c xs c' := by
  induction m generalizing c xs with
  | zero => cases h
  | succ m ih =>
    rw [paramEntries, bind_cursor] at h
    obtain ⟨-, h⟩ | ⟨-, h⟩ := ite_eq_done h
    · cases h
      exact .nil _
    · simp only [bind_eq_done] at h
      obtain ⟨x, c₁, hx, comma, c₂, hcomma, h⟩ := h
      obtain ⟨rfl, t, ht, hkind⟩ | ⟨rfl, rfl, -⟩ := eat_eq_done hcomma
      · simp only [if_true, bind_eq_done, pure_eq_done] at h
        obtain ⟨later, c₃, hlater, rfl, rfl⟩ := h
        exact .cons hx ht hkind (ih hlater)
      · cases h
        exact .last hx

/-- A list in parentheses, before its names are told from its types. -/
def entryList (p : Reader TypeExpr) : Reader (List (ParamExpr TypeExpr)) := do
  let _ ← expect .lparen "expected `(`"
  let entries ← bounded (paramEntries p)
  let _ ← expect .rparen "expected `)` after parameters"
  return entries

theorem params_of_entryList {xs : List (ParamExpr TypeExpr)} (h : entryList p c = .done xs c') :
    params p c = match groupParams xs with
      | .ok grouped => .done grouped c'
      | .error d => .rejected d c' := by
  simp only [entryList, bind_eq_done, pure_eq_done] at h
  obtain ⟨opening, c₁, hopen, _, c₂, hentries, closing, _, hclose, rfl, rfl⟩ := h
  rw [params, bind_done hopen, bind_done hentries, bind_done hclose]
  cases groupParams _ <;> rfl

theorem params_eq_done {ps : List (ParamExpr TypeExpr)} (h : params p c = .done ps c') :
    ∃ xs, entryList p c = .done xs c' ∧ groupParams xs = .ok ps := by
  simp only [params, bind_eq_done] at h
  obtain ⟨opening, c₁, hopen, xs, c₂, hentries, closing, c₃, hclose, h⟩ := h
  have hxs : entryList p c = .done xs c₃ := by
    rw [entryList, bind_done hopen, bind_done hentries, bind_done hclose]
    rfl
  cases hgrouped : groupParams xs with
  | ok grouped =>
    rw [hgrouped] at h
    cases h
    exact ⟨xs, hxs, hgrouped⟩
  | error d =>
    rw [hgrouped] at h
    cases h

theorem entryList_eq_done {xs : List (ParamExpr TypeExpr)} (h : entryList p c = .done xs c') :
    ∃ opening c₁ c₂ closing, c.Takes opening c₁ ∧ opening.kind = .lparen ∧ EntriesRead p c₁ xs c₂ ∧
      c₂.Takes closing c' ∧ closing.kind = .rparen := by
  simp only [entryList, bind_eq_done, pure_eq_done, expect_eq_done] at h
  obtain ⟨opening, c₁, ⟨hopen, hlparen⟩, _, c₂, hentries, closing, _, ⟨hclose, hrparen⟩,
      rfl, rfl⟩ := h
  exact ⟨opening, c₁, c₂, closing, hopen, hlparen, entriesRead_of_done hentries, hclose, hrparen⟩

/-- Somewhere these tokens, and no others, are taken for this value. -/
def ReadFrom {α : Type} (p : Reader α) (text : List Token) (a : α) : Prop :=
  ∃ c c', p c = .done a c' ∧ c.tokens = text ++ c'.tokens

def MovesOn {α : Type} (p : Reader α) : Prop := ∀ {c a c'}, p c = .done a c' → c.Steps c'

end Reader

structure EntryText where
  name : Option Token
  ellipsis : Option Token
  type : List Token

namespace EntryText

def tokens (e : EntryText) : List Token := e.name.toList ++ (e.ellipsis.toList ++ e.type)

/-- What is read from an entry, before its name is told from its type. -/
structure Means (p : Reader TypeExpr) (e : EntryText) (x : ParamExpr TypeExpr) : Prop where
  ident : ∀ t ∈ e.name, t.kind = .ident
  name : x.name = e.name.map (·.text)
  ellipsis : ∀ t ∈ e.ellipsis, t.kind = .ellipsis
  variadic : x.variadic = e.ellipsis.isSome
  type : p.ReadFrom e.type x.type

end EntryText

/-- The entries of a list with commas between them; there may be one behind the last. -/
inductive ListText : List Token → List EntryText → Prop
  | nil : ListText [] []
  | last (e : EntryText) : ListText e.tokens [e]
  | cons (e : EntryText) {comma : Token} (hkind : comma.kind = .comma) {text : List Token}
      {entries : List EntryText} (hrest : ListText text entries) :
      ListText (e.tokens ++ comma :: text) (e :: entries)

namespace Reader

variable {p : Reader TypeExpr} {c c' : Cursor} {xs ps : List (ParamExpr TypeExpr)}

/-- A list is written with these entries, and they are read as `xs`. -/
structure ListRead (p : Reader TypeExpr) (c : Cursor) (entries : List EntryText)
    (xs : List (ParamExpr TypeExpr)) (c' : Cursor) : Prop where
  done : entryList p c = .done xs c'
  text : ∃ opening text closing, c.tokens = opening :: (text ++ closing :: c'.tokens) ∧
      opening.kind = .lparen ∧
    closing.kind = .rparen ∧ ListText text entries
  means : List.Forall₂ (EntryText.Means p) entries xs

theorem forall₂_getLast? {α β : Type} {R : α → β → Prop} {as : List α} {bs : List β}
    (h : List.Forall₂ R as bs) :
    (as.getLast? = none ∧ bs.getLast? = none) ∨ ∃ a b, as.getLast? = some a ∧
    bs.getLast? = some b ∧ R a b := by
  induction h with
  | nil => exact .inl ⟨rfl, rfl⟩
  | @cons a b as bs hab hrest ih =>
    cases hrest with
    | nil => exact .inr ⟨a, b, rfl, rfl, hab⟩
    | cons => simpa only [List.getLast?_cons_cons] using ih

theorem exists_entryText (hp : MovesOn p) {x : ParamExpr TypeExpr}
    (h : paramEntry p c = .done x c') :
    ∃ e : EntryText, e.Means p x ∧ c.tokens = e.tokens ++ c'.tokens := by
  obtain ⟨name, ellipsis, c₁, c₂, hname, hellipsis, htype, hx, hvariadic⟩ := paramEntry_eq_done h
  obtain ⟨text, htext⟩ := (hp htype).exists_tokens
  refine ⟨⟨name, ellipsis, text⟩,
    ⟨hname.kind_eq, hx, hellipsis.kind_eq, hvariadic, c₂, c', htype, htext⟩, ?_⟩
  rw [hname.tokens, hellipsis.tokens, htext, EntryText.tokens]
  simp only [List.append_assoc]

theorem exists_listText (hp : MovesOn p) (h : EntriesRead p c xs c') :
    ∃ text entries, c.tokens = text ++ c'.tokens ∧ ListText text entries ∧
      List.Forall₂ (EntryText.Means p) entries xs := by
  induction h with
  | nil c => exact ⟨[], [], rfl, .nil, .nil⟩
  | last hx =>
    obtain ⟨e, he, htext⟩ := exists_entryText hp hx
    exact ⟨e.tokens, [e], htext, .last e, .cons he .nil⟩
  | @cons c c₁ c₂ c' x xs comma hx hcomma hkind _ ih =>
    obtain ⟨e, he, htext⟩ := exists_entryText hp hx
    obtain ⟨text, entries, hrest, hlist, hmeans⟩ := ih
    refine ⟨e.tokens ++ comma :: text, e :: entries, ?_, .cons e hkind hlist, .cons he hmeans⟩
    rw [htext, hcomma.tokens, hrest, List.append_assoc, List.cons_append]

theorem exists_listRead (hp : MovesOn p) (h : entryList p c = .done xs c') :
    ∃ entries, ListRead p c entries xs c' := by
  obtain ⟨opening, c₁, c₂, closing, hopen, hlparen, hentries, hclose, hrparen⟩ :=
    entryList_eq_done h
  obtain ⟨text, entries, htext, hlist, hmeans⟩ := exists_listText hp hentries
  refine ⟨entries, h, ⟨opening, text, closing, ?_, hlparen, hrparen, hlist⟩, hmeans⟩
  rw [hopen.tokens, htext, hclose.tokens]

section Grouping

/-- What entries become parameters of: the types stay, and so does the last entry as a whole. -/
structure Keeps (xs ps : List (ParamExpr TypeExpr)) : Prop where
  types : ∀ p ∈ ps, ∃ x ∈ xs, p.type = x.type
  last : ps.getLast? = xs.getLast?

theorem keeps_shareTypes {pending : List (String × Span)} (h : shareTypes pending xs = .ok ps) :
    Keeps xs ps := by
  fun_induction shareTypes pending xs generalizing ps with
  | case1 =>
    cases h
    exact ⟨List.forall_mem_nil _, rfl⟩
  | case2 | case3 | case4 | case7 => cases h
  | case5 pending entry rest name hname hlast later hlater ih =>
    cases h
    obtain ⟨htypes, hends⟩ := ih hlater
    constructor
    · intro p hp
      rcases List.mem_append.1 hp with hp | hp
      · obtain ⟨w, -, rfl⟩ := List.mem_map.1 hp
        exact ⟨entry, List.mem_cons_self .., rfl⟩
      · rcases List.mem_cons.1 hp with rfl | hp
        · exact ⟨p, List.mem_cons_self .., rfl⟩
        · obtain ⟨x, hx, htype⟩ := htypes p hp
          exact ⟨x, List.mem_cons_of_mem _ hx, htype⟩
    · rw [List.getLast?_append, List.getLast?_cons, List.getLast?_cons, hends]
      rfl
  | case6 pending entry rest hname name span hvariadic htype ih =>
    obtain ⟨htypes, hends⟩ := ih h
    constructor
    · intro p hp
      obtain ⟨x, hx, htype⟩ := htypes p hp
      exact ⟨x, List.mem_cons_of_mem _ hx, htype⟩
    · -- a bare name cannot come last, since no type follows it
      cases rest with
      | nil => cases pending <;> cases h
      | cons x rest => rw [hends, List.getLast?_cons_cons]

theorem keeps_groupParams (h : groupParams xs = .ok ps) : Keeps xs ps := by
  rw [groupParams] at h
  split at h
  · cases h
  · split at h
    · cases h
      exact ⟨fun p hp ↦ ⟨p, hp, rfl⟩, rfl⟩
    · exact keeps_shareTypes h

end Grouping

end Reader

end Understudy
