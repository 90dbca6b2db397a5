import Understudy.Proofs.ReaderGrafts

namespace Understudy

namespace Reader

variable {α β : Type} {s : Token} {r z : List Token} {c d e : Cursor}

/-- A cursor up to the tokens behind `s`, and the one in its place where other tokens are there. -/
inductive Matches (s : Token) (r z : List Token) (d : Cursor) : Cursor → Prop
  | before (h : s :: r <:+ d.tokens) : Matches s r z d (d.graft s r z)
  | behind (h : d.tokens = r) : Matches s r z d ⟨z, d.lastStop⟩

theorem suffix_cases {x y : List Token} (hr : r <:+ x) (hx : x <:+ y) (hy : s :: r <:+ y) :
    s :: r <:+ x ∨ x = r := by
  rcases List.suffix_or_suffix_of_suffix hy hx with h | h
  · exact .inl h
  · rcases List.suffix_cons_iff.1 h with rfl | h
    · exact .inl (List.suffix_refl _)
    · exact .inr (h.eq_of_length (Nat.le_antisymm h.length_le hr.length_le))

section Ends

theorem suffix_of_closes (hs : s.kind = .semicolon) (hc : s :: r <:+ c.tokens) (he : c.Closes e)
    (hr : r <:+ e.tokens) : s :: r <:+ e.tokens := by
  refine (suffix_cases hr he.steps.suffix hc).resolve_right fun htokens ↦ ?_
  obtain ⟨c₁, t, hsteps, ht, hkind⟩ := he
  have hlast : t :: r <:+ c.tokens := by
    rw [← htokens, ← ht.tokens]
    exact hsteps.suffix
  rcases List.suffix_or_suffix_of_suffix hc hlast with h | h
  all_goals
    have heq := h.eq_of_length rfl
    cases heq
    exact hkind hs

theorem terminator_cases {what : String} (h : terminator what c = .done () d) :
    (∃ t, c.Takes t d ∧ t.kind = .semicolon) ∨ d = c := by
  rw [terminator, bind_eq_done] at h
  obtain ⟨taken, c₁, heat, h⟩ := h
  obtain ⟨rfl, t, ht, hkind⟩ | ⟨rfl, rfl, -⟩ := eat_eq_done heat
  · cases h
    exact .inl ⟨t, ht, hkind⟩
  · rw [if_neg Bool.false_ne_true, bind_cursor] at h
    obtain ⟨-, h⟩ | ⟨-, h⟩ := ite_eq_done h
    · cases h
      exact .inr rfl
    · cases h

theorem matches_terminator (hs : s.kind = .semicolon) {what : String} (he : s :: r <:+ e.tokens)
    (h : terminator what e = .done () d) (hr : r <:+ d.tokens) :
    ∃ d', terminator what (e.graft s r z) = .done () d' ∧ Matches s r z d d' := by
  rcases suffix_cases hr (terminator_steps h).suffix he with hd | hd
  · have hreplays : Replays s r z e _ _ := (walks_replays hs).terminator e what
    rw [Replays, h] at hreplays
    exact ⟨_, hreplays.2 hd, .before hd⟩
  · obtain ⟨t, ht, -⟩ | rfl := terminator_cases h
    · obtain ⟨tokens, last⟩ := e
      obtain rfl : tokens = t :: r := hd ▸ ht.tokens
      cases he.eq_of_length rfl
      have hgraft : Cursor.graft s r z ⟨s :: r, last⟩ = ⟨s :: z, last⟩ :=
        Cursor.graft_append [] last
      refine ⟨⟨z, s.span.stop⟩, ?_, ?_⟩
      · rw [hgraft, terminator_cons hs]
      · rw [← ht.lastStop]
        exact .behind hd
    · rw [hd] at he
      exact absurd he.length_le (Nat.not_succ_le_self _)

/-- A clause that ends at the latest with `s`: a part that does not look beyond it, and its end. -/
theorem matches_ended (hs : s.kind = .semicolon) {p : Reader α} {a : α} {what : String}
    (hp : Replays s r z c p p) (hc : s :: r <:+ c.tokens) (hdone : p c = .done a e)
    (he : c.Closes e) (hend : terminator what e = .done () d) (hr : r <:+ d.tokens) :
    ∃ e' d', p (c.graft s r z) = .done a e' ∧ terminator what e' = .done () d' ∧
      Matches s r z d d' := by
  have hbefore := suffix_of_closes hs hc he (hr.trans (terminator_steps hend).suffix)
  obtain ⟨d', hend', hmatches⟩ := matches_terminator (z := z) hs hbefore hend hr
  rw [Replays, hdone] at hp
  exact ⟨_, d', hp.2 hbefore, hend', hmatches⟩

end Ends

section Clauses

variable {item : Reader α} {xs : List α} {itemEnd close clauseEnd : String}

def packageHead : Reader String := do
  skipSemicolons
  let _ ← expect .packageWord "expected `package` clause at the start of the file"
  let (name, _) ← ident "expected package name"
  return name

theorem packageClause_eq : packageClause = (do
    let name ← packageHead
    terminator "package clause"
    return name) := by
  simp only [packageClause, packageHead, bind_assoc, pure_bind]

def funcHead : Reader Decl := do
  let word ← expect .funcWord "expected `func`"
  let (name, _) ← ident "expected function name"
  noBody
  let sig ← signature type
  noBody
  return .func name sig (← range word.span.start sig.span.stop)

theorem funcDecl_eq : funcDecl = (do
    let d ← funcHead
    terminator "function declaration"
    return d) := by
  simp only [funcDecl, funcHead, bind_assoc, pure_bind]

/-- What stands behind the leading word of a clause, without the end of the clause. -/
def clauseHead (itemEnd close : String) (item : Reader α) : Reader (Clause α) := do
  if ← eat .lparen then group itemEnd close item else singleItem item

theorem clause_eq : clause itemEnd close clauseEnd item = (do
    let body ← clauseHead itemEnd close item
    match body.problem with
    | some _ => return body
    | none =>
      match ← attempt (terminator clauseEnd) with
      | .error d => return ⟨body.items, some d⟩
      | .ok () => return body) := by
  rw [clause, clauseHead, bind_assoc]
  refine congrArg _ (funext fun opened ↦ ?_)
  cases opened <;> rfl

theorem clause_eq_done : clause itemEnd close clauseEnd item c = .done ⟨xs, none⟩ d ↔
    ∃ e, clauseHead itemEnd close item c = .done ⟨xs, none⟩ e ∧
    terminator clauseEnd e = .done () d := by
  rw [clause_eq, bind_eq_done]
  constructor
  · rintro ⟨body, e, hbody, h⟩
    obtain ⟨items, problem⟩ := body
    cases problem with
    | some => cases h
    | none =>
      obtain ⟨ended, e', hend, h⟩ := bind_eq_done.1 h
      obtain ⟨_, rfl, hterminator⟩ | ⟨problem, rfl, -⟩ := attempt_eq_done hend
      · cases h
        exact ⟨e, hbody, hterminator⟩
      · cases h
  · rintro ⟨e, hbody, hend⟩
    exact ⟨_, e, hbody, bind_eq_done.2 ⟨.ok (), d, attempt_done hend, rfl⟩⟩

theorem closes_clauseHead (hitem : Closes item)
    (hmoves : MovesOn (bounded (groupItems itemEnd item)))
    (h : clauseHead itemEnd close item c = .done ⟨xs, none⟩ e) : c.Closes e := by
  rw [clauseHead, bind_eq_done] at h
  obtain ⟨opened, c₁, hopen, h⟩ := h
  obtain ⟨-, h⟩ | ⟨hsingle, h⟩ := ite_eq_done h
  · rw [group, bind_eq_done] at h
    obtain ⟨⟨items, problem⟩, c₂, hbody, h⟩ := h
    cases problem with
    | some => cases h
    | none =>
      obtain ⟨closed, c₃, hclosed, h⟩ := bind_eq_done.1 h
      obtain ⟨t, rfl, hrparen⟩ | ⟨problem, rfl, -⟩ := attempt_eq_done hclosed
      · cases h
        exact .of_steps ((eat_steps hopen).trans (hmoves hbody))
          (closes_expect (by decide) _ _ _ _ hrparen)
      · cases h
  · rw [singleItem, bind_eq_done] at h
    obtain ⟨x, c₂, hx, h⟩ := h
    obtain ⟨x, rfl, hitemDone⟩ | ⟨problem, rfl, -⟩ := attempt_eq_done hx
    · cases h
      exact .of_steps (eat_steps hopen) (hitem _ _ _ hitemDone)
    · cases h

end Clauses

section Replays

theorem replays_packageHead (hs : s.kind = .semicolon) (c : Cursor) :
    Replays s r z c packageHead packageHead := by
  have hwalks := walks_replays (r := r) (z := z) hs
  exact hwalks.bind (hwalks.skipSemicolons c) fun _ d ↦ hwalks.bind (hwalks.expect d _ _) fun _ d ↦
    hwalks.bind_pure (hwalks.ident d _)

theorem replays_importSpec (hs : s.kind = .semicolon) (c : Cursor) :
    Replays s r z c importSpec importSpec := by
  have hwalks := walks_replays (r := r) (z := z) hs
  refine hwalks.cursor ?_
  dsimp only
  rw [hwalks.start]
  have hpath (qualifier : Option String) (d : Cursor) : Replays s r z d (do
      let literal ← expect .str "expected import path string"
      let path := Literal.string literal.text
      if path.isEmpty then rejectAt "import path is empty" literal.span
      else return (⟨qualifier, path, ← range c.start literal.span.stop⟩ : ImportSpec)) (do
      let literal ← expect .str "expected import path string"
      let path := Literal.string literal.text
      if path.isEmpty then rejectAt "import path is empty" literal.span
      else return (⟨qualifier, path, ← range c.start literal.span.stop⟩ : ImportSpec)) := by
    refine hwalks.bind (hwalks.expect d _ _) fun literal d ↦ ?_
    exact Replays.ite (hwalks.rejected d _) (hwalks.bind_pure (hwalks.range d _ _))
  rw [hwalks.isAt, hwalks.isAt]
  refine .ite ?_ (.ite ?_ (hpath none c))
  · exact hwalks.bind (hwalks.map (hwalks.ident c _) _) hpath
  · exact hwalks.bind (hwalks.reject c _) hpath

theorem replays_typeSpec (hs : s.kind = .semicolon) (c : Cursor) :
    Replays s r z c typeSpec typeSpec := by
  have hwalks := walks_replays (r := r) (z := z) hs
  exact hwalks.bind (hwalks.ident c _) fun _ d ↦ hwalks.bind (replays_type hs d) fun _ d ↦
    hwalks.bind_pure (hwalks.join d _ _)

theorem replays_noBody (hs : s.kind = .semicolon) (c : Cursor) : Replays s r z c noBody noBody := by
  have hwalks := walks_replays (r := r) (z := z) hs
  have hat : Replays s r z c (isAt .lbrace) (isAt .lbrace) :=
    hwalks.cursor (f := fun c ↦ pure (c.isAt .lbrace)) (g := fun c ↦ pure (c.isAt .lbrace)) <| by
      rw [hwalks.isAt]
      exact hwalks.pure c _
  exact hwalks.bind hat fun _ d ↦ .ite (hwalks.reject d _) (hwalks.pure d _)

theorem replays_funcHead (hs : s.kind = .semicolon) (c : Cursor) :
    Replays s r z c funcHead funcHead := by
  have hwalks := walks_replays (r := r) (z := z) hs
  have hparams := (nests_replays (r := r) (z := z) hs (replays_type hs)).params
  refine hwalks.bind (hwalks.expect c _ _) fun word d ↦ hwalks.bind (hwalks.ident d _)
    fun name d ↦ ?_
  refine hwalks.bind (replays_noBody hs d) fun _ d ↦
    hwalks.bind (hwalks.signature (replays_type hs) hparams d) fun sig d ↦ ?_
  exact hwalks.bind (replays_noBody hs d) fun _ d ↦ hwalks.bind_pure (hwalks.range d _ _)

theorem replays_bounded_group (hs : s.kind = .semicolon) {item : Reader α} {spans : α → List Span}
    (hitem : ReadsItems False 0 item spans) (hreplays : ∀ c, Replays s r z c item item)
    (itemEnd : String) (c : Cursor) :
    Replays s r z c (bounded (groupItems itemEnd item)) (bounded (groupItems itemEnd item)) :=
  replays_loop rfl (fun _ ↦ rfl) (unrolls_group hitem itemEnd).unfolds
    ((walks_replays hs).groupRound hreplays) _ c

theorem replays_clauseHead (hs : s.kind = .semicolon) {item : Reader α} {spans : α → List Span}
    (hitem : ReadsItems False 0 item spans) (hreplays : ∀ c, Replays s r z c item item)
    (itemEnd close : String) (c : Cursor) :
    Replays s r z c (clauseHead itemEnd close item) (clauseHead itemEnd close item) := by
  have hwalks := walks_replays (r := r) (z := z) hs
  refine hwalks.bind (hwalks.eat c _) fun opened d ↦ .ite ?_ ?_
  · refine hwalks.bind (replays_bounded_group hs hitem hreplays itemEnd d) fun body d ↦ ?_
    split
    · exact hwalks.pure d _
    · refine hwalks.bind (hwalks.attempt (hwalks.expect d _ _)) fun closed d ↦ ?_
      cases closed <;> exact hwalks.pure d _
  · refine hwalks.bind (hwalks.attempt (hreplays d)) fun x d ↦ ?_
    cases x <;> exact hwalks.pure d _

end Replays

section Closes

theorem closes_packageHead : Closes packageHead := by
  have hskip : MovesOn skipSemicolons := by
    rintro c _ _ ⟨⟩
    exact steps_skipSemicolons c
  exact .bind hskip fun _ ↦ .bind (movesOn_expect _ _) fun _ ↦ (closes_ident _).bind_still fun _ ↦
    isStill_pure _

theorem closes_importSpec : Closes importSpec := by
  have hpath (qualifier : Option String) (start : Nat) : Closes (do
      let literal ← expect .str "expected import path string"
      let path := Literal.string literal.text
      if path.isEmpty then rejectAt "import path is empty" literal.span
      else return (⟨qualifier, path, ← range start literal.span.stop⟩ : ImportSpec)) := by
    refine (closes_expect (by decide) _).bind_still fun literal c i d h ↦ ?_
    obtain ⟨-, h⟩ | ⟨-, h⟩ := ite_eq_done h
    · cases h
    · exact isStill_range _ _ _ _ _ _ h
  refine .cursor_bind fun c ↦ .ite ?_ (.ite ?_ (hpath none c.start))
  · exact .bind (movesOn_map (closes_ident _).movesOn _) fun qualifier ↦ hpath qualifier c.start
  · exact .bind (fun h ↦ nomatch h) fun qualifier ↦ hpath qualifier c.start

theorem closes_typeSpec : Closes typeSpec :=
  .bind (closes_ident _).movesOn fun _ ↦ closes_type.bind_still fun _ ↦ isStill_range _ _ _

theorem closes_funcHead : Closes funcHead := by
  let s : Token := ⟨.semicolon, ⟨0, 0⟩, ""⟩
  have hnests := nests_replays (s := s) (r := []) (z := []) rfl (replays_type rfl)
  have hbody : IsStill noBody := fun _ _ _ h ↦ noBody_eq_done h
  refine .bind (movesOn_expect _ _) fun _ ↦ .bind (closes_ident _).movesOn fun _ ↦
    .bind hbody.movesOn fun _ ↦ ?_
  exact (closes_signature hnests closes_type).bind_still fun _ ↦ hbody.bind fun _ ↦
    isStill_range _ _ _

end Closes

section Matches

variable {item : Reader α} {xs : List α} {spans : α → List Span}

theorem matches_packageClause (hs : s.kind = .semicolon) {name : String} (hc : s :: r <:+ c.tokens)
    (h : packageClause c = .done name d) (hr : r <:+ d.tokens) :
    ∃ d', packageClause (c.graft s r z) = .done name d' ∧ Matches s r z d d' := by
  rw [packageClause_eq] at h ⊢
  obtain ⟨_, e, hhead, h⟩ := bind_eq_done.1 h
  obtain ⟨_, d, hend, h⟩ := bind_eq_done.1 h
  cases h
  obtain ⟨e', d', hhead', hend', hmatches⟩ :=
    matches_ended hs (replays_packageHead hs c) hc hhead (closes_packageHead _ _ _ hhead) hend hr
  exact ⟨d', bind_eq_done.2 ⟨_, e', hhead', bind_eq_done.2 ⟨_, d', hend', rfl⟩⟩, hmatches⟩

theorem matches_wordClause (hs : s.kind = .semicolon) {kind : TokenKind} (hkind : kind ≠ .semicolon)
    (hitem : ReadsItems False 0 item spans) (hreplays : ∀ c, Replays s r z c item item)
    (hcloses : Closes item)
    {itemEnd close clauseEnd : String} (hc : s :: r <:+ c.tokens)
    (h : (do let _ ← eat kind; clause itemEnd close clauseEnd item) c = .done ⟨xs, none⟩ d)
    (hr : r <:+ d.tokens) :
    ∃ d', (do let _ ← eat kind; clause itemEnd close clauseEnd item) (c.graft s r z) =
      .done ⟨xs, none⟩ d' ∧
      Matches s r z d d' := by
  obtain ⟨taken, c₁, heat, h⟩ := bind_eq_done.1 h
  obtain ⟨e, hhead, hend⟩ := clause_eq_done.1 h
  have hgroup (c : Cursor) :
      Replays s r z c (bounded (groupItems itemEnd item)) (bounded (groupItems itemEnd item)) :=
    replays_bounded_group hs hitem hreplays itemEnd c
  have hclosed := closes_clauseHead hcloses (movesOn_of_replays hgroup) hhead
  have hafter := hr.trans (hclosed.steps.trans (terminator_steps hend)).suffix
  have hc₁ : s :: r <:+ c₁.tokens := by
    obtain ⟨rfl, t, ht, rfl⟩ | ⟨rfl, rfl, -⟩ := eat_eq_done heat
    · exact suffix_of_closes hs hc ⟨c, t, .refl, ht, hkind⟩ hafter
    · exact hc
  have heat' : Replays s r z c _ _ := replays_eat c kind
  rw [Replays, heat] at heat'
  obtain ⟨e', d', hhead', hend', hmatches⟩ :=
    matches_ended hs (replays_clauseHead hs hitem hreplays itemEnd close c₁) hc₁ hhead
      hclosed hend hr
  exact ⟨d', bind_eq_done.2 ⟨taken, _, heat'.2 hc₁, clause_eq_done.2 ⟨e', hhead', hend'⟩⟩, hmatches⟩

theorem matches_importClause (hs : s.kind = .semicolon) {xs : List ImportSpec}
    (hc : s :: r <:+ c.tokens) (h : importClause c = .done ⟨xs, none⟩ d) (hr : r <:+ d.tokens) :
    ∃ d', importClause (c.graft s r z) = .done ⟨xs, none⟩ d' ∧ Matches s r z d d' :=
  matches_wordClause hs (by decide) readsItems_importSpec
    (replays_importSpec hs) closes_importSpec hc h hr

theorem matches_declClause (hs : s.kind = .semicolon) {xs : List Decl} (hc : s :: r <:+ c.tokens)
    (h : declClause c = .done ⟨xs, none⟩ d) (hr : r <:+ d.tokens) :
    ∃ d', declClause (c.graft s r z) = .done ⟨xs, none⟩ d' ∧ Matches s r z d d' := by
  rw [declClause, bind_cursor] at h ⊢
  rw [(walks_replays hs).isAt, (walks_replays hs).isAt]
  obtain ⟨htype, h⟩ | ⟨htype, h⟩ := ite_eq_done h
  · rw [if_pos htype]
    exact matches_wordClause hs (by decide) readsItems_typeSpec
      (replays_typeSpec hs) closes_typeSpec hc h hr
  · rw [if_neg htype]
    obtain ⟨hfunc, h⟩ | ⟨hfunc, h⟩ := ite_eq_done h
    · rw [if_pos hfunc]
      obtain ⟨x, c₁, hx, h⟩ := bind_eq_done.1 h
      obtain ⟨x, rfl, hfuncDecl⟩ | ⟨problem, rfl, -⟩ := attempt_eq_done hx
      · cases h
        rw [funcDecl_eq] at hfuncDecl
        obtain ⟨_, e, hhead, hfuncDecl⟩ := bind_eq_done.1 hfuncDecl
        obtain ⟨_, d, hend, hfuncDecl⟩ := bind_eq_done.1 hfuncDecl
        cases hfuncDecl
        obtain ⟨e', d', hhead', hend', hmatches⟩ :=
          matches_ended hs (replays_funcHead hs c) hc hhead (closes_funcHead _ _ _ hhead) hend hr
        have hdone' : funcDecl (c.graft s r z) = .done x d' := by
          rw [funcDecl_eq]
          exact bind_eq_done.2 ⟨_, e', hhead', bind_eq_done.2 ⟨_, d', hend', rfl⟩⟩
        exact ⟨d', bind_eq_done.2 ⟨.ok x, d', attempt_done hdone', rfl⟩, hmatches⟩
      · cases h
    · obtain ⟨-, h⟩ | ⟨-, h⟩ := ite_eq_done h
      · cases h
      · cases h

end Matches

end Reader

end Understudy
