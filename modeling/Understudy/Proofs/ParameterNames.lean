import Understudy.Proofs.WrittenSignatures

namespace Understudy

/-- The name of an entry: the word in front of its type or, if there is none, a type that is nothing
but a word. -/
def ParamExpr.ownName? (x : ParamExpr TypeExpr) : Option String :=
  match x.name, x.type, x.variadic with
  | some name, _, _ => some name
  | none, .name none name _, false => some name
  | none, _, _ => none

theorem ParamExpr.ownName?_eq_some {x : ParamExpr TypeExpr} {name : String} :
    x.ownName? = some name ↔
    x.name = some name ∨ x.name = none ∧ x.variadic = false ∧ ∃ s, x.type = .name none name s := by
  obtain ⟨own, type, variadic, span⟩ := x
  cases own with
  | some other => simp [ownName?]
  | none =>
    cases variadic with
    | true => simp [ownName?]
    | false =>
      cases type with
      | name qualifier word s => cases qualifier <;> simp [ownName?]
      | _ => simp [ownName?]

/-- A token by itself or in parentheses, any number of them. -/
inductive InParens (t : Token) : List Token → Prop
  | bare : InParens t [t]
  | parens {opening closing : Token} {text : List Token} (hlparen : opening.kind = .lparen)
      (hrparen : closing.kind = .rparen) (h : InParens t text) :
      InParens t (opening :: (text ++ [closing]))

/-- A token that an entry is named by: it stands in front of the type, or it is all there is but for
parentheses. -/
inductive EntryText.IsNamedBy (e : EntryText) (t : Token) : Prop
  | own (h : e.name = some t)
  | alone (hname : e.name = none) (hellipsis : e.ellipsis = none) (hkind : t.kind = .ident)
      (h : InParens t e.type)

namespace Reader

variable {p : Reader TypeExpr} {c c' : Cursor}

/-- If `p` reads a name without a qualifier at `c`, the name is a token that it took, in parentheses
or without. -/
def NamesAt (p : Reader TypeExpr) (c : Cursor) : Prop :=
  ∀ ⦃name s c'⦄, p c = .done (.name none name s) c' →
    ∃ t text, c.tokens = text ++ c'.tokens ∧ t.kind = .ident ∧ InParens t text ∧ name = t.text

theorem namesAt_typeOver (hp : ∀ c, NamesAt p c) : NamesAt (typeOver p) c := by
  intro name s c' h
  cases typeRead_of_typeOver h with
  | name hname =>
    cases hname with
    | @bare t ht => exact ⟨t, [t], ht.1.tokens, ht.2, .bare, rfl⟩
  | @parens opening closing c₁ c₂ _ ht helem hb =>
    obtain ⟨u, text, htext, hkind, hparens, hname⟩ := hp c₁ helem
    refine ⟨u, opening :: (text ++ [closing]), ?_, hkind, .parens ht.2 hb.2 hparens, hname⟩
    rw [ht.1.tokens, htext, hb.1.tokens]
    simp

theorem namesAt_typeWithin (n : Nat) (c : Cursor) : NamesAt (typeWithin n) c := by
  induction n generalizing c with
  | zero => exact nofun
  | succ n ih => exact namesAt_typeOver ih

theorem typeOver_paren {t : Token} {ts : List Token} {last : Nat} (h : t.kind = .lparen) :
    typeOver p ⟨t :: ts, last⟩ = (do
      let inner ← p
      let _ ← expect .rparen "expected `)` after type"
      return inner) ⟨ts, t.span.stop⟩ := by
  rw [typeOver, bind_cursor]
  simp only [List.head?_cons, h]
  exact bind_done (eat_cons h)

theorem eq_name_of_inParens {n : Nat} {t : Token} {text : List Token} {e : TypeExpr}
    (hparens : InParens t text) (hkind : t.kind = .ident) (htext : c.tokens = text ++ c'.tokens)
    (h : typeWithin n c = .done e c') : e = .name none t.text t.span := by
  obtain ⟨tokens, last⟩ := c
  dsimp only at htext
  subst htext
  induction hparens generalizing n last c' with
  | bare =>
    cases n with
    | zero => cases h
    | succ n =>
      rw [typeWithin, List.singleton_append, typeOver_ident hkind, typeName,
        bind_done (ident_cons hkind _), bind_eq_done] at h
      obtain ⟨dotted, c₂, hdot, h⟩ := h
      obtain ⟨rfl, d, hd, -⟩ | ⟨rfl, rfl, -⟩ := eat_eq_done hdot
      · -- a qualified name takes more than this token
        simp only [if_true, bind_eq_done, pure_eq_done, ident_eq_done] at h
        obtain ⟨_, c₃, ⟨i, hi, -⟩, s, c₄, hs, -, rfl⟩ := h
        obtain ⟨-, rfl⟩ := join_eq_done hs
        exact absurd (hd.passes.trans_steps hi.steps).length_lt (Nat.lt_irrefl _)
      · exact (pure_eq_done.1 h).1.symm
  | @parens opening closing text hlparen hrparen _ ih =>
    cases n with
    | zero => cases h
    | succ n =>
      rw [typeWithin, List.cons_append, typeOver_paren hlparen] at h
      simp only [bind_eq_done, pure_eq_done, expect_eq_done] at h
      obtain ⟨inner, c₂, hinner, close, c₃, ⟨hclose, -⟩, rfl, rfl⟩ := h
      obtain ⟨taken, htaken⟩ := (finds_typeWithin n hinner).steps.exists_tokens
      dsimp only [List.append_eq] at htaken hinner
      -- the closing parenthesis is the last token of both, so what is taken in front of it is the
      -- text inside
      have hsame : (text ++ [closing]) ++ c₃.tokens = (taken ++ [close]) ++ c₃.tokens := by
        rw [List.append_assoc taken, List.singleton_append, ← hclose.tokens]
        exact htaken
      obtain ⟨rfl, -⟩ := List.append_inj' (List.append_left_inj _ |>.1 hsame) rfl
      rw [htaken] at hinner
      exact ih _ hinner

end Reader

namespace EntryText

variable {p : Reader TypeExpr} {e : EntryText} {x : ParamExpr TypeExpr}

theorem Means.ownName?_eq_some (h : e.Means p x) (hp : p.IsTypeReader) {name : String} :
    x.ownName? = some name ↔ ∃ t, e.IsNamedBy t ∧ name = t.text := by
  obtain ⟨c, c', hdone, htext⟩ := h.type
  obtain ⟨n, hn⟩ := hp.exists_within c
  rw [hn] at hdone
  rw [ParamExpr.ownName?_eq_some, h.name, h.variadic]
  constructor
  · rintro (hname | ⟨hname, hvariadic, s, htype⟩)
    · obtain ⟨t, ht, rfl⟩ := Option.map_eq_some_iff.1 hname
      exact ⟨t, .own ht, rfl⟩
    · rw [htype] at hdone
      obtain ⟨t, text, htext', hkind, hparens, rfl⟩ := Reader.namesAt_typeWithin n c hdone
      obtain rfl := List.append_left_inj _ |>.1 (htext.symm.trans htext')
      exact ⟨t, .alone (by simpa using hname) (by simpa using hvariadic) hkind hparens, rfl⟩
  · rintro ⟨t, ht | ⟨hname, hellipsis, hkind, hparens⟩, rfl⟩
    · exact .inl (by rw [ht, Option.map_some])
    · refine .inr
        ⟨by rw [hname, Option.map_none], by rw [hellipsis, Option.isSome_none], t.span, ?_⟩
      exact Reader.eq_name_of_inParens hparens hkind htext hdone

theorem Means.name_eq_none (h : e.Means p x) : x.name = none ↔ e.name = none := by
  rw [h.name, Option.map_eq_none_iff]

theorem Means.variadic_eq_false (h : e.Means p x) : x.variadic = false ↔ e.ellipsis = none := by
  rw [h.variadic, Option.isSome_eq_false_iff, Option.isNone_iff_eq_none]

end EntryText

namespace Reader

section Grouping

variable {pending : List (String × Span)} {xs ps : List (ParamExpr TypeExpr)}

def mixedNames (s : Span) : Diagnostic := .error "mixed named and unnamed parameters" (some s)

theorem names_shareTypes (h : shareTypes pending xs = .ok ps) :
    ps.map (·.name) = pending.map (some ·.1) ++ xs.map (·.ownName?) ∧
    ∀ x ∈ xs, x.ownName? ≠ none := by
  fun_induction shareTypes pending xs generalizing ps with
  | case1 =>
    cases h
    exact ⟨rfl, List.forall_mem_nil _⟩
  | case2 | case3 | case4 | case7 => cases h
  | case5 pending entry rest name hname hlast later hlater ih =>
    cases h
    obtain ⟨hnames, hall⟩ := ih hlater
    have hown : entry.ownName? = some name := ParamExpr.ownName?_eq_some.2 (.inl hname)
    constructor
    · simp [hnames, hown, hname, Function.comp_def]
    · exact List.forall_mem_cons.2 ⟨by simp [hown], hall⟩
  | case6 pending entry rest hname name span hvariadic htype ih =>
    obtain ⟨hnames, hall⟩ := ih h
    have hown : entry.ownName? = some name :=
      ParamExpr.ownName?_eq_some.2 (.inr ⟨hname, hvariadic, span, htype⟩)
    constructor
    · simp [hnames, hown]
    · exact List.forall_mem_cons.2 ⟨by simp [hown], hall⟩

/-- The last entry has no name of its own, or names are left over when there is none. -/
def EndsBare (pending : List (String × Span)) (xs : List (ParamExpr TypeExpr)) : Prop :=
  match xs.getLast? with
  | some x => x.name = none
  | none => pending ≠ []

theorem endsBare_cons_named {x : ParamExpr TypeExpr} {name : String} (h : x.name = some name) :
    EndsBare pending (x :: xs) ↔ EndsBare [] xs := by
  unfold EndsBare
  rw [List.getLast?_cons]
  cases xs.getLast? <;> simp [h]

theorem endsBare_cons_bare {x : ParamExpr TypeExpr} (h : x.name = none) (w : String × Span) :
    EndsBare pending (x :: xs) ↔ EndsBare (pending ++ [w]) xs := by
  unfold EndsBare
  rw [List.getLast?_cons]
  cases xs.getLast? <;> simp [h]

theorem forall_mem_dropLast {P : ParamExpr TypeExpr → Prop} {x : ParamExpr TypeExpr}
    (h : ∀ y ∈ (x :: xs).dropLast, P y) : ∀ y ∈ xs.dropLast, P y := by
  cases xs with
  | nil => nofun
  | cons z rest => exact fun y hy ↦ h y (List.mem_cons_of_mem _ hy)

/-- Between entries with names, an entry that cannot have one is reported, and so are names behind
the last type. -/
theorem mixed_shareTypes (hfinal : ∀ x ∈ xs.dropLast, x.variadic = false) :
    (∃ s, shareTypes pending xs = .error (mixedNames s)) ↔
      (∃ x ∈ xs, x.ownName? = none) ∨ EndsBare pending xs := by
  fun_induction shareTypes pending xs with
  | case1 => simp [EndsBare]
  | case2 name span rest => exact ⟨fun _ ↦ .inr (List.cons_ne_nil _ _), fun _ ↦ ⟨span, rfl⟩⟩
  | case3 pending entry rest name hname hlast =>
    -- only the last entry has an ellipsis, and it has a name
    obtain rfl : rest = [] := by
      cases rest with
      | nil => rfl
      | cons x rest => simp [hfinal entry (List.mem_cons_self ..)] at hlast
    have hown : entry.ownName? = some name := ParamExpr.ownName?_eq_some.2 (.inl hname)
    simp [mixedNames, Diagnostic.error, EndsBare, hown, hname]
  | case4 pending entry rest name hname hlast d hd ih =>
    have hown : entry.ownName? = some name := ParamExpr.ownName?_eq_some.2 (.inl hname)
    rw [hd] at ih
    rw [endsBare_cons_named hname]
    simpa [hown] using ih (forall_mem_dropLast hfinal)
  | case5 pending entry rest name hname hlast later hlater ih =>
    have hown : entry.ownName? = some name := ParamExpr.ownName?_eq_some.2 (.inl hname)
    rw [hlater] at ih
    rw [endsBare_cons_named hname]
    simpa [hown] using ih (forall_mem_dropLast hfinal)
  | case6 pending entry rest hname name span hvariadic htype ih =>
    have hown : entry.ownName? = some name :=
      ParamExpr.ownName?_eq_some.2 (.inr ⟨hname, hvariadic, span, htype⟩)
    rw [endsBare_cons_bare hname (name, span)]
    simpa [hown] using ih (forall_mem_dropLast hfinal)
  | case7 pending entry rest hname hbare =>
    have hown : entry.ownName? = none := by
      refine Option.eq_none_iff_forall_ne_some.2 fun name h ↦ ?_
      rcases ParamExpr.ownName?_eq_some.1 h with h | ⟨-, hvariadic, s, htype⟩
      · simp [hname] at h
      · exact hbare name s htype hvariadic
    exact ⟨fun _ ↦ .inl ⟨entry, List.mem_cons_self .., hown⟩, fun _ ↦ ⟨_, rfl⟩⟩

theorem names_groupParams (h : groupParams xs = .ok ps) :
    ((∀ x ∈ xs, x.name = none) ∧ ps = xs) ∨
      (ps.map (·.name) = xs.map (·.ownName?) ∧ ∀ x ∈ xs, x.ownName? ≠ none) := by
  rw [groupParams] at h
  split at h
  · cases h
  · split at h
    · rename_i hall
      cases h
      exact .inl ⟨by simpa using hall, rfl⟩
    · exact .inr (names_shareTypes h)

theorem mixed_groupParams : (∃ s, groupParams xs = .error (mixedNames s)) ↔
    (∀ x ∈ xs.dropLast, x.variadic = false) ∧ (∃ x ∈ xs, x.name ≠ none) ∧
      ((∃ x ∈ xs, x.ownName? = none) ∨ EndsBare [] xs) := by
  rw [groupParams]
  split
  · rename_i x hfind
    have hmem := List.mem_of_find?_eq_some hfind
    have hvariadic : x.variadic = true := by simpa using List.find?_some hfind
    constructor
    · rintro ⟨s, hs⟩
      simp [mixedNames, Diagnostic.error] at hs
    · rintro ⟨hfinal, -⟩
      exact absurd hvariadic (by simp [hfinal x hmem])
  · rename_i hfind
    have hfinal : ∀ x ∈ xs.dropLast, x.variadic = false := by simpa using hfind
    split
    · rename_i hall
      have hall : ∀ x ∈ xs, x.name = none := by simpa using hall
      simpa using fun _ x hx hne ↦ absurd (hall x hx) hne
    · rename_i hsome
      have hsome : ∃ x ∈ xs, x.name ≠ none := by simpa using hsome
      rw [mixed_shareTypes hfinal]
      exact ⟨fun h ↦ ⟨hfinal, hsome, h⟩, fun h ↦ h.2.2⟩

end Grouping

section Lists

variable {p : Reader TypeExpr} {entries : List EntryText} {xs ps : List (ParamExpr TypeExpr)}

theorem forall₂_dropLast {α β : Type} {R : α → β → Prop} {as : List α} {bs : List β}
    (h : List.Forall₂ R as bs) : List.Forall₂ R as.dropLast bs.dropLast := by
  rw [List.dropLast_eq_take, List.dropLast_eq_take, h.length_eq]
  exact List.forall₂_take _ h

theorem exists_mem_iff {P : EntryText → Prop} {Q : ParamExpr TypeExpr → Prop}
    (h : List.Forall₂ (EntryText.Means p) entries xs) (hiff : ∀ e x, e.Means p x → (P e ↔ Q x)) :
    (∃ e ∈ entries, P e) ↔ ∃ x ∈ xs, Q x := by
  induction h with
  | nil => simp
  | cons hx _ ih => simp [hiff _ _ hx, ih]

theorem forall_mem_iff {P : EntryText → Prop} {Q : ParamExpr TypeExpr → Prop}
    (h : List.Forall₂ (EntryText.Means p) entries xs) (hiff : ∀ e x, e.Means p x → (P e ↔ Q x)) :
    (∀ e ∈ entries, P e) ↔ ∀ x ∈ xs, Q x := by
  induction h with
  | nil => simp
  | cons hx _ ih => simp [hiff _ _ hx, ih]

theorem endsBare_iff (h : List.Forall₂ (EntryText.Means p) entries xs) :
    EndsBare [] xs ↔ ∃ e ∈ entries.getLast?, e.name = none := by
  rcases forall₂_getLast? h with ⟨hentries, hxs⟩ | ⟨e, x, hentries, hxs, he⟩
  · simp [EndsBare, hentries, hxs]
  · simp [EndsBare, hentries, hxs, he.name_eq_none]

def NamedBy (e : EntryText) (x : ParamExpr TypeExpr) : Prop :=
  ∃ t, t.kind = .ident ∧ e.IsNamedBy t ∧ x.name = some t.text

theorem forall₂_namedBy (hp : IsTypeReader p) (h : List.Forall₂ (EntryText.Means p) entries xs)
    (hnames : ps.map (·.name) = xs.map (·.ownName?)) (hall : ∀ x ∈ xs, x.ownName? ≠ none) :
    List.Forall₂ NamedBy entries ps := by
  induction h generalizing ps with
  | nil =>
    obtain rfl := List.map_eq_nil_iff.1 hnames
    exact .nil
  | @cons e x entries xs hx _ ih =>
    obtain ⟨y, ps, rfl, hy, hrest⟩ := List.map_eq_cons_iff.1 hnames
    obtain ⟨name, hname⟩ := Option.ne_none_iff_exists'.1 (hall x (List.mem_cons_self ..))
    obtain ⟨t, ht, rfl⟩ := (hx.ownName?_eq_some hp).1 hname
    have hkind : t.kind = .ident := by
      cases ht with
      | own h => exact hx.ident t h
      | alone _ _ h _ => exact h
    exact .cons ⟨t, hkind, ht, hy.trans hname⟩
      (ih hrest fun x hx ↦ hall x (List.mem_cons_of_mem _ hx))

/-- In a list that is read without a report either nothing has a name, or each parameter is named by
an identifier of its entry: the one in front of its type, or the only word of an entry that is
nothing else but parentheses. A list is reported as mixed if it has an entry with both a name and a
type and another that no word can name, or a last one without a type behind its name, unless an
ellipsis stands too early. -/
theorem names_params (hp : IsTypeReader p) (c : Cursor) :
    (∀ ps c', params p c = .done ps c' → ∃ entries xs, ListRead p c entries xs c' ∧
      (((∀ e ∈ entries, e.name = none) ∧ ∀ x ∈ ps, x.name = none) ∨
        List.Forall₂ NamedBy entries ps)) ∧
    ∀ entries xs c', ListRead p c entries xs c' → ((∃ s, params p c = .rejected (mixedNames s) c') ↔
      (∀ e ∈ entries.dropLast, e.ellipsis = none) ∧ (∃ e ∈ entries, e.name ≠ none) ∧
        ((∃ e ∈ entries, ∀ t, ¬e.IsNamedBy t) ∨ ∃ e ∈ entries.getLast?, e.name = none)) := by
  constructor
  · intro ps c' h
    obtain ⟨xs, hxs, hgroup⟩ := params_eq_done h
    obtain ⟨entries, hread⟩ := exists_listRead hp.movesOn hxs
    refine ⟨entries, xs, hread, ?_⟩
    rcases names_groupParams hgroup with ⟨hnone, rfl⟩ | ⟨hnames, hall⟩
    · exact .inl ⟨(forall_mem_iff hread.means fun e x he ↦ he.name_eq_none.symm).2 hnone, hnone⟩
    · exact .inr (forall₂_namedBy hp hread.means hnames hall)
  · intro entries xs c' hread
    have hreply : (∃ s, params p c = .rejected (mixedNames s) c') ↔
        ∃ s, groupParams xs = .error (mixedNames s) := by
      rw [params_of_entryList hread.done]
      cases groupParams xs <;> simp
    have hunnamed : ∀ (e : EntryText) (x : ParamExpr TypeExpr), e.Means p x →
        ((∀ t, ¬e.IsNamedBy t) ↔ x.ownName? = none) := by
      intro e x he
      rw [Option.eq_none_iff_forall_ne_some]
      constructor
      · intro h name hname
        obtain ⟨t, ht, -⟩ := (he.ownName?_eq_some hp).1 hname
        exact h t ht
      · exact fun h t ht ↦ h t.text ((he.ownName?_eq_some hp).2 ⟨t, ht, rfl⟩)
    rw [hreply, mixed_groupParams, endsBare_iff hread.means,
      forall_mem_iff (forall₂_dropLast hread.means) fun e x he ↦ he.variadic_eq_false.symm,
      exists_mem_iff hread.means fun e x he ↦ (not_congr he.name_eq_none).symm,
      exists_mem_iff hread.means hunnamed]

section Bracketed

/-- A list in which one name stands in parentheses. -/
def bracketedList : Cursor := .ofTokens (lex "((a), b int)").tokens

theorem names_params_bracketed : ∃ ps c' entries xs, params type bracketedList = .done ps c' ∧
    ps.map (·.name) = [some "a", some "b"] ∧ ListRead type bracketedList entries xs c' ∧
    List.Forall₂ NamedBy entries ps := by
  have hread : (match params type bracketedList with
      | .done ps _ => some (ps.map (·.name))
      | _ => none) = some [some "a", some "b"] := by decide +kernel
  cases h : params type bracketedList with
  | done ps c' =>
    rw [h] at hread
    have hnames : ps.map (·.name) = [some "a", some "b"] := Option.some.inj hread
    obtain ⟨entries, xs, hlist, ⟨-, hnone⟩ | hnamed⟩ :=
      (names_params .whole bracketedList).1 ps c' h
    · have ha : some "a" ∈ ps.map (·.name) := hnames ▸ List.mem_cons_self ..
      obtain ⟨x, hx, hname⟩ := List.mem_map.1 ha
      simp [hnone x hx] at hname
    · exact ⟨ps, c', entries, xs, rfl, hnames, hlist, hnamed⟩
  | rejected d c' =>
    rw [h] at hread
    cases hread
  | fault e =>
    rw [h] at hread
    cases hread

end Bracketed

end Lists

end Reader

end Understudy
