import Understudy.Proofs.ClauseEnds

namespace Understudy

abbrev Cursor.skipped (c : Cursor) : Cursor := Cursor.skipSemicolons c.lastStop c.tokens

namespace Reader

variable {α : Type} {done : Cursor → Bool} {next : Reader (Clause α)} {c c' c₁ d : Cursor}
    {xs : List α}

/-- Clauses are read from cursor to cursor without a report, one after the other. -/
inductive ReadsOn (done : Cursor → Bool) (next : Reader (Clause α)) :
    Cursor → List α → Cursor → Prop
  | nil (c : Cursor) : ReadsOn done next c [] c
  | cons {c c₁ d : Cursor} {xs ys : List α} (hdone : done c.skipped = false)
      (hnext : next c.skipped = .done ⟨xs, none⟩ c₁) (h : ReadsOn done next c₁ ys d) :
      ReadsOn done next c (xs ++ ys) d

section Rounds

variable {rest : Reader (List α × List Diagnostic)}

theorem clauseRound_eq : clauseRound done next rest c =
  (if done c.skipped then pure ([], []) else do
    let first ← next
    if first.problem.isSome then resume
    let (items, problems) ← rest
    return (first.items ++ items, first.problem.toList ++ problems)) c.skipped := by
  rw [clauseRound, bind_done (show skipSemicolons c = .done () c.skipped from rfl), bind_cursor]

theorem clauseRound_done (h : done c.skipped = true) :
    clauseRound done next rest c = .done ([], []) c.skipped := by
  rw [clauseRound_eq, if_pos h]
  rfl

theorem clauseRound_clean (hdone : done c.skipped = false)
    (hnext : next c.skipped = .done ⟨xs, none⟩ c₁) :
    clauseRound done next rest c = ((fun later ↦ (xs ++ later.1, later.2)) <$> rest) c₁ := by
  rw [clauseRound_eq, if_neg (by simp [hdone]), bind_done hnext, ← bind_pure_comp]
  rfl

theorem clauseRound_problem {problem : Diagnostic} (hdone : done c.skipped = false)
    (hnext : next c.skipped = .done ⟨xs, some problem⟩ c₁) : clauseRound done next rest c =
      ((fun later ↦ (xs ++ later.1, problem :: later.2)) <$> rest)
      (Cursor.resume 0 c₁.lastStop c₁.tokens) := by
  rw [clauseRound_eq, if_neg (by simp [hdone]), bind_done hnext, ← bind_pure_comp]
  rfl

/-- Without a report a round ends the loop, or it reads a clause and leaves the others to the rounds
behind it. -/
theorem clauseRound_eq_done {zs : List α} (h : clauseRound done next rest c = .done (zs, []) d) :
    (done c.skipped = true ∧ zs = []) ∨ (done c.skipped = false ∧ ∃ xs ys c₁,
      next c.skipped = .done ⟨xs, none⟩ c₁ ∧ rest c₁ = .done (ys, []) d ∧ zs = xs ++ ys) := by
  cases hdone : done c.skipped with
  | true =>
    rw [clauseRound_done hdone] at h
    cases h
    exact .inl ⟨rfl, rfl⟩
  | false =>
    cases hnext : next c.skipped with
    | fault => simp [clauseRound_eq, hdone, hnext, bind_apply] at h
    | rejected => simp [clauseRound_eq, hdone, hnext, bind_apply] at h
    | done first c₁ =>
      obtain ⟨xs, problem⟩ := first
      cases problem with
      | some problem =>
        rw [clauseRound_problem hdone hnext, map_eq_done] at h
        obtain ⟨later, -, hlater⟩ := h
        cases hlater
      | none =>
        rw [clauseRound_clean hdone hnext, map_eq_done] at h
        obtain ⟨⟨ys, problems⟩, hrest, hlater⟩ := h
        cases hlater
        exact .inr ⟨rfl, xs, ys, c₁, rfl, hrest, rfl⟩

theorem skipSemicolons_of_ne {ts : List Token} (stop : Nat)
    (h : ∀ t ∈ ts.head?, t.kind ≠ .semicolon) : Cursor.skipSemicolons stop ts = ⟨ts, stop⟩ := by
  cases ts with
  | nil => rfl
  | cons t rest => rw [Cursor.skipSemicolons, if_neg (h t rfl)]

theorem skipped_skipped (c : Cursor) : c.skipped.skipped = c.skipped :=
  skipSemicolons_of_ne _ (head?_skipSemicolons c.lastStop c.tokens)

theorem clauseRound_skipped :
    clauseRound done next rest c.skipped = clauseRound done next rest c := by
  rw [clauseRound_eq, skipped_skipped, ← clauseRound_eq]

theorem ReadsOn.of_skipped (h : ReadsOn done next c.skipped xs d) :
    ∃ e, ReadsOn done next c xs e ∧ e.skipped = d.skipped := by
  generalize hc : c.skipped = c' at h
  cases h with
  | nil => exact ⟨c, .nil c, by rw [← hc, skipped_skipped]⟩
  | cons hdone hnext h =>
    rw [← hc, skipped_skipped] at hdone hnext
    exact ⟨_, .cons hdone hnext h, rfl⟩

theorem ReadsOn.loop_eq {loop : Reader (List α × List Diagnostic)}
    (hloop : loop = clauseRound done next loop) (h : ReadsOn done next c xs d) :
    loop c = ((fun later ↦ (xs ++ later.1, later.2)) <$> loop) d := by
  induction h with
  | nil c => exact (congrFun (id_map loop) c).symm
  | @cons c c₁ d xs ys hdone hnext h ih =>
    rw [hloop, clauseRound_clean hdone hnext, ← hloop, ← bind_pure_comp, bind_apply, ih]
    rw [← bind_pure_comp, ← bind_pure_comp, bind_apply, bind_apply]
    cases loop d <;> simp

theorem passes_of_readsClauses {spans : α → List Span}
    (hreads : ReadsClauses False 0 done next spans) (hdone : done c = false)
    (h : next c = .done ⟨xs, none⟩ d) : c.Passes d := by
  have hmeets : Meets False 0 c _ (next c) := hreads c hdone False.elim
  rw [h] at hmeets
  exact hmeets.2.1 rfl

/-- Whatever a loop reads without a report, it reads clause by clause. -/
theorem readsOn_of_loop {spans : α → List Span} {loop : Reader (List α × List Diagnostic)}
    {zs : List α} (hreads : ReadsClauses False 0 done next spans)
    (hloop : loop = clauseRound done next loop) (h : loop c = .done (zs, []) d) :
    ∃ e, ReadsOn done next c zs e ∧ e.skipped = d ∧ done d = true := by
  induction hn : c.tokens.length using Nat.strongRecOn generalizing c zs with
  | _ n ih =>
    rw [hloop] at h
    obtain ⟨hdone, rfl⟩ | ⟨hdone, xs, ys, c₁, hnext, hrest, rfl⟩ := clauseRound_eq_done h
    · rw [clauseRound_done hdone] at h
      cases h
      exact ⟨c, .nil c, rfl, hdone⟩
    · have hlt : c₁.tokens.length < n := hn ▸ Nat.lt_of_lt_of_le
        (passes_of_readsClauses hreads hdone hnext).length_lt (steps_skipSemicolons c).length_le
      obtain ⟨e, he, hskip, hend⟩ := ih _ hlt hrest rfl
      exact ⟨e, .cons hdone hnext he, hskip, hend⟩

theorem ReadsOn.steps {spans : α → List Span} (hreads : ReadsClauses False 0 done next spans)
    (h : ReadsOn done next c xs d) : c.Steps d := by
  induction h with
  | nil => exact .refl
  | cons hdone hnext _ ih =>
    exact (steps_skipSemicolons _).trans
      ((passes_of_readsClauses hreads hdone hnext).steps.trans ih)

end Rounds

section Matches

variable {s : Token} {r z : List Token}

theorem skipped_graft (hs : s.kind = .semicolon) (h : s :: r <:+ c.skipped.tokens) :
    (c.graft s r z).skipped = c.skipped.graft s r z := by
  have hreplays : Replays s r z c _ _ := (walks_replays hs).skipSemicolons c
  have hskip : Reply.done () (c.graft s r z).skipped = .done () (c.skipped.graft s r z) :=
    hreplays.2 h
  exact (Reply.done.inj hskip).2

theorem Matches.suffix (h : Matches s r z c c') (hd : r.length < d.tokens.length)
    (hsteps : c.Steps d) (hr : r <:+ d.tokens) : s :: r <:+ d.tokens ∧ c' = c.graft s r z := by
  cases h with
  | before hc =>
    refine ⟨(suffix_cases hr hsteps.suffix hc).resolve_right ?_, rfl⟩
    rintro rfl
    exact Nat.lt_irrefl _ hd
  | behind hc =>
    have hlen := hsteps.length_le
    rw [hc] at hlen
    omega

theorem ReadsOn.matches (hs : s.kind = .semicolon) {spans : α → List Span}
    (hreads : ReadsClauses False 0 done next spans) (hdone : ∀ c, done (c.graft s r z) = done c)
    (hnext : ∀ {c d xs}, s :: r <:+ c.tokens → next c = .done ⟨xs, none⟩ d → r <:+ d.tokens →
      ∃ d', next (c.graft s r z) = .done ⟨xs, none⟩ d' ∧ Matches s r z d d')
    (h : ReadsOn done next c xs d) (hc : Matches s r z c c') (hr : r <:+ d.tokens) :
    ∃ d', ReadsOn done next c' xs d' ∧ Matches s r z d d' := by
  induction h generalizing c' with
  | nil => exact ⟨c', .nil c', hc⟩
  | @cons c c₁ d xs ys hat hclause h ih =>
    have hr₁ : r <:+ c₁.tokens := hr.trans (h.steps hreads).suffix
    have hpasses := passes_of_readsClauses hreads hat hclause
    have hlen : r.length < c.skipped.tokens.length :=
      Nat.lt_of_le_of_lt hr₁.length_le hpasses.length_lt
    obtain ⟨hskip, rfl⟩ := hc.suffix hlen (steps_skipSemicolons c) (hr₁.trans hpasses.steps.suffix)
    obtain ⟨c₁', hclause', hmatches⟩ := hnext hskip hclause hr₁
    obtain ⟨d', h', hd'⟩ := ih hmatches hr
    refine ⟨d', .cons ?_ ?_ h', hd'⟩
    · rw [skipped_graft hs hskip, hdone, hat]
    · rw [skipped_graft hs hskip, hclause']

end Matches

section Stray

/-- Brackets in pairs, with `depth` open ones in front, no semicolon outside of them and no end of
the text. -/
def BracketsPaired : Nat → List Token → Prop
  | depth, [] => depth = 0
  | depth, t :: rest =>
    if t.kind.opensBracket then BracketsPaired (depth + 1) rest
    else if t.kind.closesBracket then 0 < depth ∧ BracketsPaired (depth - 1) rest
    else t.kind ≠ .eof ∧ (t.kind = .semicolon → 0 < depth) ∧ BracketsPaired depth rest

/-- What a clause behind the package clause can start with, or what may stand in its place. -/
def startsClause : TokenKind → Bool
  | .importWord | .typeWord | .funcWord | .semicolon | .eof => true
  | _ => false

variable {semi : Token} {after : List Token}

theorem resume_bracketsPaired (hsemi : semi.kind = .semicolon) {depth : Nat} {ts : List Token}
    (h : BracketsPaired depth ts) (stop : Nat) :
    Cursor.resume depth stop (ts ++ semi :: after) = ⟨after, semi.span.stop⟩ := by
  induction ts generalizing depth stop with
  | nil =>
    obtain rfl : depth = 0 := h
    simp [Cursor.resume, hsemi, TokenKind.opensBracket, TokenKind.closesBracket]
  | cons t rest ih =>
    rw [List.cons_append, Cursor.resume]
    rw [BracketsPaired] at h
    split
    · rename_i hopen
      rw [if_pos hopen] at h
      exact ih h _
    rename_i hopen
    rw [if_neg hopen] at h
    split
    · rename_i hclose
      rw [if_pos hclose] at h
      exact ih h.2 _
    rename_i hclose
    rw [if_neg hclose] at h
    obtain ⟨heof, hsemicolon, hrest⟩ := h
    rw [if_neg fun h ↦ Nat.ne_of_gt (hsemicolon h.1) h.2, if_neg heof]
    exact ih hrest _

theorem isAt_of_startsClause {t : Token} {kind : TokenKind} (ht : startsClause t.kind = false)
    (hkind : startsClause kind = true) (rest : List Token) (stop : Nat) :
    Cursor.isAt ⟨t :: rest, stop⟩ kind = false := by
  simp only [Cursor.isAt, beq_eq_false_iff_ne]
  rintro rfl
  simp [hkind] at ht

theorem declClause_stray {t : Token} (ht : startsClause t.kind = false) (rest : List Token)
    (stop : Nat) : declClause ⟨t :: rest, stop⟩ =
      .done ⟨[], some (.error "expected `type` or `func`" (some t.span))⟩ ⟨t :: rest, stop⟩ := by
  rw [declClause, bind_cursor, isAt_of_startsClause ht rfl, isAt_of_startsClause ht rfl,
    isAt_of_startsClause ht rfl]
  rfl

theorem skipped_stray {t : Token} (ht : startsClause t.kind = false) (rest : List Token)
    (stop : Nat) : Cursor.skipped ⟨t :: rest, stop⟩ = ⟨t :: rest, stop⟩ := by
  refine skipSemicolons_of_ne _ ?_
  rintro _ ⟨⟩ hkind
  simp [hkind, startsClause] at ht

theorem exists_takes_of_isAt {kind : TokenKind} (h : c.isAt kind = true) (hne : kind ≠ .eof) :
    ∃ t d, c.Takes t d ∧ t.kind = kind := by
  obtain ⟨tokens, last⟩ := c
  cases tokens with
  | nil => exact absurd (beq_iff_eq.1 h) hne
  | cons t rest => exact ⟨t, _, Cursor.takes_mk, beq_iff_eq.1 h⟩

theorem declClause_congr (htokens : c'.tokens = c.tokens) {xs : List Decl}
    (h : declClause c = .done ⟨xs, none⟩ d) : declClause c' = .done ⟨xs, none⟩ d := by
  have hat (kind : TokenKind) : c'.isAt kind = c.isAt kind := by
    rw [Cursor.isAt, htokens, Cursor.isAt]
  have htakes {t : Token} {e : Cursor} (ht : c.Takes t e) : c'.Takes t e :=
    ⟨htokens.trans ht.tokens, ht.lastStop⟩
  rw [declClause, bind_cursor] at h ⊢
  rw [hat, hat, hat]
  obtain ⟨htype, h⟩ | ⟨htype, h⟩ := ite_eq_done h
  · obtain ⟨t, e, ht, hkind⟩ := exists_takes_of_isAt htype (by decide)
    rw [if_pos htype, typeClause, bind_done (eat_of_takes (htakes ht) hkind)]
    rwa [typeClause, bind_done (eat_of_takes ht hkind)] at h
  · rw [if_neg htype]
    obtain ⟨hfunc, h⟩ | ⟨hfunc, h⟩ := ite_eq_done h
    · obtain ⟨t, e, ht, hkind⟩ := exists_takes_of_isAt hfunc (by decide)
      have hword : funcDecl c' = funcDecl c := by
        rw [funcDecl, bind_done (expect_eq_done.2 ⟨htakes ht, hkind⟩),
          bind_done (expect_eq_done.2 ⟨ht, hkind⟩)]
      have hattempt : attempt funcDecl c' = attempt funcDecl c := by rw [attempt, hword, attempt]
      rw [if_pos hfunc, singleItem, bind_apply, hattempt]
      exact h
    · obtain ⟨-, h⟩ | ⟨-, h⟩ := ite_eq_done h
      · cases h
      · cases h

end Stray

section Files

abbrev importLoop : Reader (List ImportSpec × List Diagnostic) :=
  bounded (clauses (!·.isAt .importWord) importClause)

abbrev declLoop : Reader (List Decl × List Diagnostic) := bounded (clauses (·.isAt .eof) declClause)

theorem importLoop_unfolds :
    importLoop = clauseRound (!·.isAt .importWord) importClause importLoop :=
  (unrolls_clauses (fun _ h ↦ isAt_eof_of_isAt (by simpa using h) (by decide))
    readsClauses_importClause).unfolds

theorem declLoop_unfolds : declLoop = clauseRound (·.isAt .eof) declClause declLoop :=
  (unrolls_clauses (fun _ h ↦ h) readsClauses_declClause).unfolds

/-- Semicolons in front of a declaration do not matter, nor does where the last token ended. -/
theorem declLoop_congr (htokens : c'.skipped.tokens = c.skipped.tokens) {ds : List Decl}
    (h : declLoop c = .done (ds, []) d) : ∃ d', declLoop c' = .done (ds, []) d' := by
  have hat : c'.skipped.isAt .eof = c.skipped.isAt .eof := by rw [Cursor.isAt, htokens, Cursor.isAt]
  rw [declLoop_unfolds] at h ⊢
  obtain ⟨hdone, rfl⟩ | ⟨hdone, xs, ys, c₁, hnext, hrest, rfl⟩ := clauseRound_eq_done h
  · exact ⟨_, clauseRound_done (hat.trans hdone)⟩
  · refine ⟨d, ?_⟩
    rw [clauseRound_clean (hat.trans hdone) (declClause_congr htokens hnext)]
    exact map_eq_done.2 ⟨_, hrest, rfl⟩

theorem file_eq_of_readsOn {package : String} {imports : List ImportSpec} {decls : List Decl}
    {c₂ c₃ : Cursor} (hpackage : packageClause c = .done package c₁)
    (himports : ReadsOn (!·.isAt .importWord) importClause c₁ imports c₂)
    (hend : c₂.skipped.isAt .importWord = false)
    (hdecls : ReadsOn (·.isAt .eof) declClause c₂ decls c₃) :
    file c = ((fun later ↦ ⟨⟨package, imports, decls ++ later.1⟩, later.2⟩) <$> declLoop) c₃ := by
  have hloop : importLoop c₁ = .done (imports, []) c₂.skipped := by
    have hlast : importLoop c₂ = .done ([], []) c₂.skipped := by
      rw [importLoop_unfolds]
      exact clauseRound_done (by simp [hend])
    rw [himports.loop_eq importLoop_unfolds]
    exact map_eq_done.2 ⟨_, hlast, by simp⟩
  have hskip : declLoop c₂.skipped = declLoop c₂ := by
    rw [declLoop_unfolds]
    exact clauseRound_skipped
  rw [file, bind_done (attempt_done hpackage)]
  change (importLoop >>= _) c₁ = _
  rw [bind_done hloop]
  change (declLoop >>= _) c₂.skipped = _
  rw [bind_apply, hskip, hdecls.loop_eq declLoop_unfolds, ← bind_pure_comp, ← bind_pure_comp,
    bind_apply, bind_apply]
  cases declLoop c₃ <;> simp

theorem readsOn_of_file {parsed : SourceFile} (h : file c = .done ⟨parsed, []⟩ d) : ∃ c₁ c₂ c₃,
    packageClause c = .done parsed.package c₁ ∧
    ReadsOn (!·.isAt .importWord) importClause c₁ parsed.imports c₂ ∧
    c₂.skipped.isAt .importWord = false ∧ ReadsOn (·.isAt .eof) declClause c₂ parsed.decls c₃ ∧
    c₃.skipped.isAt .eof = true := by
  rw [file, bind_eq_done] at h
  obtain ⟨package, c₁, hpackage, h⟩ := h
  obtain ⟨name, rfl, hname⟩ | ⟨problem, rfl, -⟩ := attempt_eq_done hpackage
  · obtain ⟨_, _, ⟨⟩, h⟩ := bind_eq_done.1 h
    obtain ⟨⟨imports, importProblems⟩, d₂, himports, h⟩ := bind_eq_done.1 h
    obtain ⟨⟨decls, declProblems⟩, d₃, hdecls, h⟩ := bind_eq_done.1 h
    obtain ⟨⟨⟩, hproblems⟩ := Parsed.mk.inj (Reply.done.inj h).1
    obtain ⟨rfl, rfl⟩ : importProblems = [] ∧ declProblems = [] :=
      List.append_eq_nil_iff.1 hproblems
    obtain ⟨c₂, hread, rfl, hend⟩ :=
      readsOn_of_loop readsClauses_importClause importLoop_unfolds himports
    obtain ⟨e, he, rfl, heof⟩ := readsOn_of_loop readsClauses_declClause declLoop_unfolds hdecls
    obtain ⟨c₃, hc₃, hskip⟩ := he.of_skipped
    exact ⟨c₁, c₂, c₃, hname, hread, by simpa using hend, hc₃, hskip ▸ heof⟩
  · obtain ⟨_, _, -, h⟩ := bind_eq_done.1 h
    obtain ⟨_, _, ⟨⟩, h⟩ := bind_eq_done.1 h
    obtain ⟨_, _, -, h⟩ := bind_eq_done.1 h
    obtain ⟨_, _, -, h⟩ := bind_eq_done.1 h
    cases h

end Files

end Reader

namespace Cursor

theorem skipSemicolons_append {between : List Token} (h : ∀ t ∈ between, t.kind = .semicolon)
    (stop : Nat) (ts : List Token) :
    ∃ stop', skipSemicolons stop (between ++ ts) = skipSemicolons stop' ts := by
  induction between generalizing stop with
  | nil => exact ⟨stop, rfl⟩
  | cons t rest ih =>
    rw [List.cons_append, skipSemicolons, if_pos (h t (List.mem_cons_self ..))]
    exact ih (fun u hu ↦ h u (List.mem_cons_of_mem _ hu)) _

theorem tokens_skipSemicolons (ts : List Token) (stop stop' : Nat) :
    (skipSemicolons stop ts).tokens = (skipSemicolons stop' ts).tokens := by
  induction ts generalizing stop stop' with
  | nil => rfl
  | cons t rest ih =>
    rw [skipSemicolons, skipSemicolons]
    split
    · exact ih ..
    · rfl

theorem isAt_skipped_stray {t : Token} {kind : TokenKind} (ht : Reader.startsClause t.kind = false)
    (hkind : Reader.startsClause kind = true) {u ts ts' : List Token} {stop stop' : Nat}
    (h : (skipSemicolons stop (u ++ ts)).isAt kind = false) :
    (skipSemicolons stop' (u ++ t :: ts')).isAt kind = false := by
  induction u generalizing stop stop' with
  | nil =>
    have hskip : skipSemicolons stop' (t :: ts') = ⟨t :: ts', stop'⟩ :=
      Reader.skipped_stray ht ts' stop'
    rw [List.nil_append, hskip]
    exact Reader.isAt_of_startsClause ht hkind ..
  | cons x u ih =>
    rw [List.cons_append, skipSemicolons] at h ⊢
    split
    · rename_i hx
      rw [if_pos hx] at h
      exact ih h
    · rename_i hx
      rw [if_neg hx] at h
      exact h

end Cursor

theorem Reader.Matches.exists_append {s : Token} {r z : List Token} {c c' : Cursor}
    (h : Matches s r z c c') : ∃ u, c.tokens = u ++ r ∧ c'.tokens = u ++ z := by
  cases h with
  | before hc =>
    obtain ⟨u, hu, hgraft⟩ := Cursor.graft_of_suffix (z := z) hc
    exact ⟨u ++ [s], by simp [hu], by simp [hgraft]⟩
  | behind hc => exact ⟨[], hc, rfl⟩

/-- Between `before` and `after` a file has its imports behind it and no declaration open: up to
there its clauses are read without a report, a semicolon stands last, and no import follows. -/
def IsBoundary (before after : List Token) : Prop :=
  (∃ s ∈ before.getLast?, s.kind = .semicolon) ∧
  ∃ package imports decls c₁ c₂ c₃ between,
    Reader.packageClause (.ofTokens (before ++ after)) = .done package c₁ ∧
    Reader.ReadsOn (!·.isAt .importWord) Reader.importClause c₁ imports c₂ ∧
    c₂.skipped.isAt .importWord = false ∧
    Reader.ReadsOn (·.isAt .eof) Reader.declClause c₂ decls c₃ ∧
    c₃.tokens = between ++ after ∧ ∀ t ∈ between, t.kind = .semicolon

section

open Reader

variable {before after garbage : List Token} {t semi : Token} {file : SourceFile}

theorem file_eq_done_of_parse {tokens : List Token} (h : parse tokens = .ok ⟨file, []⟩) :
    ∃ d, Reader.file (.ofTokens tokens) = .done ⟨file, []⟩ d := by
  rw [parse] at h
  split at h
  · cases h
    exact ⟨_, by assumption⟩
  · cases h
  · cases h

/-- Tokens that begin no clause, with their brackets in pairs and one semicolon at their end, are
reported once where they stand between two declarations, and what is read besides is what was read
without them. -/
theorem parse_stray (h : parse (before ++ after) = .ok ⟨file, []⟩)
    (hboundary : IsBoundary before after) (ht : startsClause t.kind = false)
    (hpaired : BracketsPaired 0 (t :: garbage)) (hsemi : semi.kind = .semicolon) :
    parse (before ++ (t :: garbage ++ semi :: after)) =
      .ok ⟨file, [.error "expected `type` or `func`" (some t.span)]⟩ := by
  obtain ⟨⟨s, hlast, hs⟩, package, imports, decls, c₁, c₂, c₃, between, hpackage, himports,
      hend, hdecls, hc₃,
    hbetween⟩ := hboundary
  obtain ⟨u, rfl⟩ := List.getLast?_eq_some_iff.1 hlast
  have hr₃ : after <:+ c₃.tokens := hc₃ ▸ List.suffix_append ..
  have hr₂ := hr₃.trans (hdecls.steps readsClauses_declClause).suffix
  have hr₁ := hr₂.trans (himports.steps readsClauses_importClause).suffix
  -- Up to the boundary both texts are read alike.
  have hwalks := walks_replays (r := after) (z := t :: garbage ++ semi :: after) hs
  have hgraft :
      Cursor.graft s after (t :: garbage ++ semi :: after) (.ofTokens (u ++ [s] ++ after)) =
      .ofTokens (u ++ [s] ++ (t :: garbage ++ semi :: after)) := by
    rw [List.append_assoc, List.append_assoc]
    exact Cursor.graft_append u 0
  obtain ⟨c₁', hpackage', hm₁⟩ := matches_packageClause (z := t :: garbage ++ semi :: after) hs
    (by simp [Cursor.ofTokens]) hpackage hr₁
  rw [hgraft] at hpackage'
  obtain ⟨c₂', himports', hm₂⟩ :=
    himports.matches hs readsClauses_importClause (fun c ↦ by rw [hwalks.isAt])
    (matches_importClause hs) hm₁ hr₂
  obtain ⟨c₃', hdecls', hm₃⟩ :=
    hdecls.matches hs readsClauses_declClause (fun c ↦ by rw [hwalks.isAt])
    (matches_declClause hs) hm₂ hr₃
  have hend' : c₂'.skipped.isAt .importWord = false := by
    obtain ⟨v, hv, hv'⟩ := hm₂.exists_append
    rw [Cursor.skipped, hv] at hend
    rw [Cursor.skipped, hv']
    exact Cursor.isAt_skipped_stray ht rfl hend
  -- At the boundary the stray tokens are reported and passed over.
  obtain ⟨stop, hskip⟩ : ∃ stop, c₃'.skipped = ⟨t :: garbage ++ semi :: after, stop⟩ := by
    obtain ⟨v, hv, hv'⟩ := hm₃.exists_append
    obtain rfl : v = between := List.append_cancel_right (hv.symm.trans hc₃)
    obtain ⟨stop, hstop⟩ :=
      Cursor.skipSemicolons_append hbetween c₃'.lastStop (t :: garbage ++ semi :: after)
    rw [Cursor.skipped, hv', hstop]
    exact ⟨stop, skipped_stray ht _ _⟩
  have hproblem : declLoop c₃' = ((fun later ↦ ([] ++ later.1,
      .error "expected `type` or `func`" (some t.span) :: later.2)) <$> declLoop)
        ⟨after, semi.span.stop⟩ := by
    have hstray := declClause_stray ht (garbage ++ semi :: after) stop
    rw [← List.cons_append, ← hskip] at hstray
    rw [declLoop_unfolds, clauseRound_problem ?_ hstray, ← declLoop_unfolds, hskip,
      resume_bracketsPaired hsemi hpaired]
    rw [hskip]
    exact isAt_of_startsClause ht rfl ..
  -- Behind them the declarations are read as they were.
  obtain ⟨d, hfile⟩ := file_eq_done_of_parse h
  rw [file_eq_of_readsOn hpackage himports hend hdecls] at hfile
  obtain ⟨⟨later, problems⟩, hlater, hparsed⟩ := map_eq_done.1 hfile
  cases hparsed
  obtain ⟨d', hlater'⟩ : ∃ d', declLoop ⟨after, semi.span.stop⟩ = .done (later, []) d' := by
    refine declLoop_congr ?_ hlater
    obtain ⟨stop', hstop'⟩ := Cursor.skipSemicolons_append hbetween c₃.lastStop after
    rw [Cursor.skipped, Cursor.skipped, hc₃, hstop']
    exact Cursor.tokens_skipSemicolons ..
  rw [parse, file_eq_of_readsOn hpackage' himports' hend' hdecls']
  rw [map_eq_done.2 ⟨_, hproblem.trans (map_eq_done.2 ⟨_, hlater', rfl⟩), rfl⟩]
  rfl

/-- Words of a text, each one at the place of its number in it. -/
def numbered (first : Nat) : List (TokenKind × String) → List Token
  | [] => []
  | (kind, text) :: rest => ⟨kind, ⟨first, first⟩, text⟩ :: numbered (first + 1) rest

def shelfTokens : List Token :=
  numbered 0 [(.packageWord, "package"), (.ident, "shop"), (.semicolon, ";"), (.typeWord, "type"),
    (.lparen, "("),
    (.ident, "Shelf"), (.ident, "int"), (.rparen, ")"), (.semicolon, ";"), (.semicolon, ";")]

def openTokens : List Token :=
  numbered 20 [(.funcWord, "func"), (.ident, "Open"), (.lparen, "("), (.rparen, ")"),
    (.ident, "Shelf"), (.semicolon, ""), (.eof, "")]

/-- `var (Door; type } ...`, where the brackets differ in kind. -/
def strayTokens : List Token :=
  numbered 11 [(.lparen, "("), (.ident, "Door"), (.semicolon, ";"), (.typeWord, "type"),
    (.rbrace, "\x7d"), (.ellipsis, "...")]

def tidyFile : SourceFile :=
  ⟨"shop", [], [.type "Shelf" (.name none "int" ⟨6, 6⟩) ⟨5, 6⟩,
    .func "Open" ⟨[], [⟨none, .name none "Shelf" ⟨24, 24⟩, false, ⟨24, 24⟩⟩], ⟨22, 24⟩⟩ ⟨20, 24⟩]⟩

theorem isBoundary_shelf : IsBoundary shelfTokens openTokens :=
  ⟨⟨_, rfl, rfl⟩, "shop", [], _, _, _, _, numbered 9 [(.semicolon, ";")], rfl, .nil _, rfl,
    .cons rfl rfl (.nil _), rfl, by decide⟩

theorem parse_stray_shelf :
    parse (shelfTokens ++ openTokens) = .ok ⟨tidyFile, []⟩ ∧ IsBoundary shelfTokens openTokens ∧
      Reader.startsClause .ident = false ∧
      BracketsPaired 0 (⟨.ident, ⟨10, 10⟩, "var"⟩ :: strayTokens) ∧
      parse (shelfTokens ++
        (⟨.ident, ⟨10, 10⟩, "var"⟩ :: strayTokens ++ ⟨.semicolon, ⟨17, 17⟩, ""⟩ :: openTokens)) =
        .ok ⟨tidyFile, [.error "expected `type` or `func`" (some ⟨10, 10⟩)]⟩ := by
  have hpaired : BracketsPaired 0 (⟨.ident, ⟨10, 10⟩, "var"⟩ :: strayTokens) := by
    simp [BracketsPaired, strayTokens, numbered, TokenKind.opensBracket, TokenKind.closesBracket]
  exact ⟨rfl, isBoundary_shelf, rfl, hpaired, parse_stray rfl isBoundary_shelf rfl hpaired rfl⟩

end

end Understudy
