import Mathlib.Logic.Function.Iterate
import Understudy.Proofs.ReaderWalks
import Understudy.Proofs.ReadDeclarations

namespace Understudy.Reader

variable {α β : Type}

section Approaches

/-- At `c` the first reader replies as the second does, unless it runs into its bound. -/
def Approaches (c : Cursor) (p q : Reader α) : Prop := p c = .fault .exhausted ∨ p c = q c

variable {p q r : Reader α} {c : Cursor}

theorem Approaches.refl (c : Cursor) (p : Reader α) : Approaches c p p := .inr rfl

theorem approaches_exhausted (c : Cursor) (q : Reader α) : Approaches c (fault .exhausted) q :=
  .inl rfl

theorem Approaches.bind {f g : α → Reader β} (h : Approaches c p q)
    (hf : ∀ a d, Approaches d (f a) (g a)) : Approaches c (p >>= f) (q >>= g) := by
  rw [Approaches, bind_apply, bind_apply]
  rcases h with hp | hp
  · exact .inl (by rw [hp])
  · rw [← hp]
    cases p c with
    | done a d => exact hf a d
    | rejected => exact .inr rfl
    | fault => exact .inr rfl

theorem Approaches.attempt (h : Approaches c p q) : Approaches c (attempt p) (attempt q) := by
  rcases h with hp | hp
  · exact .inl (by rw [Reader.attempt, hp])
  · exact .inr (by rw [Reader.attempt, Reader.attempt, hp])

theorem walks_approaches : Walks (fun _ c p q ↦ Approaches c p q) id where
  head? _ := rfl
  following? _ _ := rfl
  lastStop _ := rfl
  pure c _ := .refl c _
  bind := .bind
  cursor h := h
  attempt := .attempt
  fault c _ := .refl c _
  reject c _ := .refl c _
  rejected c _ := .refl c _
  eat c _ := .refl c _
  expect c _ _ := .refl c _
  skipSemicolons c := .refl c _

theorem nests_approaches {p q : Reader TypeExpr} (h : ∀ c, Approaches c p q) :
    Walks.Nests (fun _ c p q ↦ Approaches c p q) p q := by
  have hparams (n : Nat) : ∀ c, Approaches c (paramEntries p n) (paramEntries q n) := by
    induction n with
    | zero => exact fun c ↦ .refl c _
    | succ n ih => exact walks_approaches.paramRound h ih
  have hbody {α : Type} (what : String) {item item' : Reader (List α)}
      (hitem : ∀ c, Approaches c item item') (n : Nat) :
      ∀ c, Approaches c (bodyItems what item n) (bodyItems what item' n) := by
    induction n with
    | zero => exact fun c ↦ .refl c _
    | succ n ih => exact walks_approaches.bodyRound hitem ih
  have helement (c : Cursor) : Approaches c (element p) (element q) :=
    walks_approaches.element h (fun c ↦ hparams _ c) c
  exact ⟨h, fun c ↦ hparams _ c, fun c ↦ hbody _ (fun c ↦ walks_approaches.map (helement c) _) _ c,
    fun c ↦ hbody _ (walks_approaches.fieldGroup h fun c ↦ .refl c _) _ c⟩

theorem approaches_clauseRound {done : Cursor → Bool} {next : Reader (Clause α)}
    {rest rest' : Reader (List α × List Diagnostic)} (h : ∀ c, Approaches c rest rest')
    (c : Cursor) : Approaches c (clauseRound done next rest) (clauseRound done next rest') := by
  refine .bind (.refl c _) fun _ d ↦ .bind (.refl d _) fun at' d ↦ Walks.ite rfl (.refl d _) ?_
  refine .bind (.refl d _) fun first d ↦ Walks.ite rfl (.bind (.refl d _) fun _ d ↦ ?_) ?_
  all_goals exact .bind (h d) fun _ d ↦ .refl d _

end Approaches

section Rounds

/-- `rounds` rounds at `c` never come to what is put in for the rounds behind them. -/
def EndsWithin (round : Reader α → Reader α) (rounds : Nat) (c : Cursor) : Prop :=
  ∀ p q : Reader α, round^[rounds] p c = round^[rounds] q c

/-- A recursion that ends by itself, after no more rounds than there are tokens left and one: `loop`
is all that it can come to. -/
structure EndsAs (round : Reader α → Reader α) (loop : Reader α) : Prop where
  unfolds : loop = round loop
  unique : ∀ q, q = round q → q = loop
  within : ∀ c, EndsWithin round (c.tokens.length + 1) c

/-- A round takes a token before the next one begins, or it is the last. -/
def Advances (round : Reader α → Reader α) : Prop :=
  ∀ (c : Cursor) (p q : Reader α), (∀ c', c.Passes c' → p c' = q c') → round p c = round q c

/-- `loop n` is the first `n` rounds of a recursion, and more rounds than there are tokens are not
needed. -/
structure Unrolls (round : Reader α → Reader α) (loop : Nat → Reader α) : Prop where
  zero : loop 0 = fault .exhausted
  succ : ∀ n, loop (n + 1) = round (loop n)
  mono : ∀ {p q : Reader α}, (∀ c, Approaches c p q) → ∀ c, Approaches c (round p) (round q)
  enough : ∀ {n : Nat} {c : Cursor}, c.tokens.length < n → loop n c ≠ .fault .exhausted

namespace Unrolls

variable {round : Reader α → Reader α} {loop : Nat → Reader α} {n m : Nat} {c : Cursor}

theorem approaches (h : Unrolls round loop) (hle : n ≤ m) (c : Cursor) :
    Approaches c (loop n) (loop m) := by
  induction n generalizing m c with
  | zero =>
    rw [h.zero]
    exact approaches_exhausted c _
  | succ n ih =>
    obtain ⟨m, rfl⟩ : ∃ k, m = k + 1 := ⟨m - 1, by omega⟩
    rw [h.succ, h.succ]
    exact h.mono (ih (by omega)) c

theorem eq_of_le (h : Unrolls round loop) (hn : c.tokens.length < n) (hle : n ≤ m) :
    loop n c = loop m c :=
  (h.approaches hle c).resolve_left (h.enough hn)

theorem approaches_loop (h : Unrolls round loop) (n : Nat) (c : Cursor) :
    Approaches c (loop n) (bounded loop) := by
  rcases Nat.lt_or_ge c.tokens.length n with hn | hn
  · exact .inr (h.eq_of_le (Nat.lt_succ_self _) hn).symm
  · exact h.approaches (Nat.le_succ_of_le hn) c

theorem unfolds (h : Unrolls round loop) : bounded loop = round (bounded loop) := by
  funext c
  have happroaches := h.mono (h.approaches_loop c.tokens.length) c
  rw [← h.succ] at happroaches
  exact happroaches.resolve_left (h.enough (Nat.lt_succ_self _))

theorem approaches_iterate (h : Unrolls round loop) (n : Nat) (q : Reader α) (c : Cursor) :
    Approaches c (loop n) (round^[n] q) := by
  induction n generalizing c with
  | zero =>
    rw [h.zero]
    exact approaches_exhausted c _
  | succ n ih =>
    rw [h.succ, Function.iterate_succ_apply']
    exact h.mono ih c

theorem iterate_eq (h : Unrolls round loop) (q : Reader α) (c : Cursor) :
    round^[c.tokens.length + 1] q c = bounded loop c :=
  ((h.approaches_iterate _ q c).resolve_left (h.enough (Nat.lt_succ_self _))).symm

theorem ends (h : Unrolls round loop) : EndsAs round (bounded loop) where
  unfolds := h.unfolds
  unique q hq := by
    funext c
    rw [← h.iterate_eq q c, Function.iterate_fixed hq.symm]
  within c p q := (h.iterate_eq p c).trans (h.iterate_eq q c).symm

end Unrolls

theorem bind_congr_done {p : Reader α} {f g : α → Reader β} {c : Cursor}
    (h : ∀ a c', p c = .done a c' → f a c' = g a c') : (p >>= f) c = (p >>= g) c := by
  rw [bind_apply, bind_apply]
  cases hp : p c with
  | done a c' => exact h a c' hp
  | rejected => rfl
  | fault => rfl

theorem ne_exhausted_of_runs {p : Reader α} {c : Cursor} {Q : α → Cursor → Prop}
    (h : Runs False 0 p c Q) : p c ≠ .fault .exhausted := by
  intro hp
  have hmeets : Meets False 0 c Q (p c) := h
  rw [hp] at hmeets
  cases hmeets.1

end Rounds

section Unrolls

theorem unrolls_types : Unrolls typeOver typeWithin where
  zero := rfl
  succ _ := rfl
  mono h := walks_approaches.typeOver (nests_approaches h)
  enough hlen := ne_exhausted_of_runs (readsTypes_typeWithin _ hlen False.elim)

theorem unrolls_params : Unrolls (paramRound type) (paramEntries type) where
  zero := rfl
  succ _ := rfl
  mono := walks_approaches.paramRound fun c ↦ .refl c type
  enough hlen :=
    ne_exhausted_of_runs (runs_paramEntries readsTypes_type hlen False.elim (Nat.lt_succ_self _))

theorem runs_elements {c : Cursor} : Runs False 0 ((fun e ↦ [e]) <$> element type) c fun es c' ↦
    Spends False 0 c (es.flatMap ElementExpr.spans) c' := by
  refine .map ((runs_element readsTypes_type False.elim (Nat.lt_succ_self _)).mono
    fun e c' _ he ↦ ?_)
  simpa using he

theorem unrolls_elements : Unrolls (bodyRound "interface element" ((fun e ↦ [e]) <$> element type))
    (bodyItems "interface element" ((fun e ↦ [e]) <$> element type)) where
  zero := rfl
  succ _ := rfl
  mono := walks_approaches.bodyRound fun c ↦ .refl c _
  enough hlen := ne_exhausted_of_runs
    (runs_bodyItems (fun _ _ _ ↦ runs_elements) hlen False.elim (Nat.lt_succ_self _))

theorem runs_fields {c : Cursor} : Runs False 0 (fieldGroup type) c fun fields c' ↦
    Spends False 0 c (fields.flatMap FieldExpr.spans) c' :=
  runs_fieldGroup readsTypes_type False.elim (Nat.lt_succ_self _)

theorem unrolls_fields : Unrolls (bodyRound "struct field" (fieldGroup type))
    (bodyItems "struct field" (fieldGroup type)) where
  zero := rfl
  succ _ := rfl
  mono := walks_approaches.bodyRound fun c ↦ .refl c _
  enough hlen := ne_exhausted_of_runs
    (runs_bodyItems (fun _ _ _ ↦ runs_fields) hlen False.elim (Nat.lt_succ_self _))

theorem unrolls_names : Unrolls nameRound fieldNames where
  zero := rfl
  succ _ := rfl
  mono := walks_approaches.nameRound
  enough hlen := by
    have hruns : Runs False 0 (fieldNames _) _ _ := runs_fieldNames hlen False.elim
    exact ne_exhausted_of_runs hruns

theorem unrolls_group {item : Reader α} {spans : α → List Span}
    (hitem : ReadsItems False 0 item spans) (what : String) :
    Unrolls (groupRound what item) (groupItems what item) where
  zero := rfl
  succ _ := rfl
  mono := walks_approaches.groupRound fun c ↦ .refl c _
  enough hlen := ne_exhausted_of_runs (runs_groupItems hitem what hlen False.elim)

theorem unrolls_clauses {done : Cursor → Bool} {next : Reader (Clause α)} {spans : α → List Span}
    (hdone : ∀ c, done c = false → c.isAt .eof = false)
    (hnext : ReadsClauses False 0 done next spans) :
    Unrolls (clauseRound done next) (clauses done next) where
  zero := rfl
  succ _ := rfl
  mono := approaches_clauseRound
  enough hlen := ne_exhausted_of_runs (runs_clauses hdone hnext hlen False.elim)

end Unrolls

section Advances

theorem bind_congr_left {p q : Reader α} {c : Cursor} (h : p c = q c) (f : α → Reader β) :
    (p >>= f) c = (q >>= f) c := by
  rw [bind_apply, bind_apply, h]

theorem passes_of_runs {p : Reader α} {c c' : Cursor} {spans : α → List Span} {a : α}
    (h : Runs False 0 p c fun x c' ↦ Spends False 0 c (spans x) c') (hp : p c = .done a c') :
    c.Passes c' := by
  have hmeets : Meets False 0 c _ (p c) := h
  rw [hp] at hmeets
  exact hmeets.2.passes

theorem advances_paramRound : Advances (paramRound type) := by
  intro c p q h
  rw [paramRound, paramRound, bind_cursor, bind_cursor]
  split
  · rfl
  · refine bind_congr_done fun entry c₁ hentry ↦ bind_congr_done fun comma c₂ hcomma ↦ ?_
    have hpasses :=
      passes_of_runs (runs_paramEntry readsTypes_type False.elim (Nat.lt_succ_self _)) hentry
    split
    · exact bind_congr_left (h c₂ (hpasses.trans_steps (eat_steps hcomma))) _
    · rfl

theorem advances_bodyRound {what : String} {item : Reader (List α)} {spans : List α → List Span}
    (hitem : ∀ c, Runs False 0 item c fun items c' ↦ Spends False 0 c (spans items) c') :
    Advances (bodyRound what item) := by
  intro c p q h
  refine bind_congr_done fun _ c₁ hskip ↦ ?_
  cases hskip
  rw [bind_cursor, bind_cursor]
  split
  · rfl
  · refine bind_congr_done fun items c₂ hitems ↦ bind_congr_done fun _ c₃ hend ↦ ?_
    have hpasses := (steps_skipSemicolons c).trans_passes (passes_of_runs (hitem _) hitems)
    exact bind_congr_left (h c₃ (hpasses.trans_steps (terminator_steps hend))) _

theorem advances_nameRound : Advances nameRound := by
  intro c p q h
  refine bind_congr_done fun comma c₁ hcomma ↦ ?_
  split
  · refine bind_congr_done fun name c₂ hname ↦ ?_
    obtain ⟨t, ht, -⟩ := ident_eq_done.1 hname
    exact bind_congr_left (h c₂ ((eat_steps hcomma).trans_passes ht.passes)) _
  · rfl

theorem advances_groupRound {item : Reader α} {spans : α → List Span}
    (hitem : ReadsItems False 0 item spans) (what : String) : Advances (groupRound what item) := by
  intro c p q h
  refine bind_congr_done fun _ c₁ hskip ↦ ?_
  cases hskip
  rw [bind_cursor, bind_cursor]
  split
  · rfl
  · refine bind_congr_done fun r c₂ hr ↦ ?_
    obtain ⟨x, rfl, hx⟩ | ⟨d, rfl, -⟩ := attempt_eq_done hr
    · refine bind_congr_done fun r c₃ hr ↦ ?_
      obtain ⟨_, rfl, hend⟩ | ⟨d, rfl, -⟩ := attempt_eq_done hr
      · have hpasses :=
          (steps_skipSemicolons c).trans_passes (passes_of_runs (hitem _ False.elim) hx)
        exact bind_congr_left (h c₃ (hpasses.trans_steps (terminator_steps hend))) _
      · rfl
    · rfl

theorem advances_clauseRound {done : Cursor → Bool} {next : Reader (Clause α)}
    {spans : α → List Span} (hdone : ∀ c, done c = false → c.isAt .eof = false)
    (hnext : ReadsClauses False 0 done next spans) : Advances (clauseRound done next) := by
  intro c p q h
  refine bind_congr_done fun _ c₁ hskip ↦ ?_
  have hsteps : c.Steps c₁ := by
    cases hskip
    exact steps_skipSemicolons c
  rw [bind_cursor, bind_cursor]
  split
  · rfl
  · rename_i hd
    have hd : done c₁ = false := by simpa using hd
    refine bind_congr_done fun first c₂ hfirst ↦ ?_
    have hruns : Meets False 0 c₁ _ (next c₁) := hnext c₁ hd False.elim
    rw [hfirst] at hruns
    split
    · refine bind_congr_done fun _ c₃ hresume ↦ ?_
      cases hresume
      refine bind_congr_left (h _ (hsteps.trans_passes ?_)) _
      rcases hruns.1.eq_or_passes with rfl | hpasses
      · exact passes_resume _ 0 (hdone _ hd)
      · exact hpasses.trans_steps (steps_resume c₂ 0)
    · rename_i hproblem
      exact bind_congr_left (h c₂ (hsteps.trans_passes (hruns.2.1 (by simpa using hproblem)))) _

end Advances

/-- A loop that ends by itself, because no round but the last leaves the tokens as they were. -/
structure IsLoop (round : Reader α → Reader α) (loop : Nat → Reader α) : Prop where
  ends : EndsAs round (bounded loop)
  advances : Advances round

theorem isLoop_params : IsLoop (paramRound type) (paramEntries type) :=
  ⟨unrolls_params.ends, advances_paramRound⟩

theorem isLoop_elements : IsLoop (bodyRound "interface element" ((fun e ↦ [e]) <$> element type))
    (bodyItems "interface element" ((fun e ↦ [e]) <$> element type)) :=
  ⟨unrolls_elements.ends, advances_bodyRound fun _ ↦ runs_elements⟩

theorem isLoop_fields : IsLoop (bodyRound "struct field" (fieldGroup type))
    (bodyItems "struct field" (fieldGroup type)) :=
  ⟨unrolls_fields.ends, advances_bodyRound fun _ ↦ runs_fields⟩

theorem isLoop_names : IsLoop nameRound fieldNames := ⟨unrolls_names.ends, advances_nameRound⟩

theorem isLoop_group {item : Reader α} {spans : α → List Span}
    (hitem : ReadsItems False 0 item spans) (what : String) :
    IsLoop (groupRound what item) (groupItems what item) :=
  ⟨(unrolls_group hitem what).ends, advances_groupRound hitem what⟩

theorem isLoop_clauses {done : Cursor → Bool} {next : Reader (Clause α)} {spans : α → List Span}
    (hdone : ∀ c, done c = false → c.isAt .eof = false)
    (hnext : ReadsClauses False 0 done next spans) :
    IsLoop (clauseRound done next) (clauses done next) :=
  ⟨(unrolls_clauses hdone hnext).ends, advances_clauseRound hdone hnext⟩

theorem passes_resume_of_not_eof (c : Cursor) :
    c.isAt .eof = true ∨ c.Passes (Cursor.resume 0 c.lastStop c.tokens) := by
  cases h : c.isAt .eof with
  | true => exact .inl rfl
  | false => exact .inr (passes_resume c 0 h)

end Reader

/-- Tokens are read into a file with its reports, whatever they are, unless some stretch in them is
out of order. -/
theorem exists_parse_or_reversed (tokens : List Token) :
    (∃ parsed, parse tokens = .ok parsed) ∨ parse tokens = .error .reversedSpan ∧
    ¬Token.InOrder 0 tokens := by
  have hrun : Reader.Meets False 0 (.ofTokens tokens) _ (Reader.file (.ofTokens tokens)) :=
    Reader.runs_file False.elim
  by_cases hord : Token.InOrder 0 tokens
  · obtain ⟨size, hstop⟩ := exists_stop_le tokens
    obtain ⟨parsed, hparsed, -⟩ := exists_parse hord hstop
    exact .inl ⟨parsed, hparsed⟩
  unfold parse
  cases hfile : Reader.file (.ofTokens tokens) with
  | done parsed => exact .inl ⟨parsed, rfl⟩
  | rejected d => exact .inl ⟨_, rfl⟩
  | fault e =>
    rw [hfile] at hrun
    obtain rfl : e = .reversedSpan := hrun.1
    exact .inr ⟨rfl, hord⟩

open Reader in
/-- Reading ends on every list of tokens, with a file or, only on stretches out of order, with the
fault that says so. The nesting of types and each loop end by themselves within as many rounds as
there are tokens left and one, the loops because every round takes a token or is the last. The
search for the next clause takes one too, except at the end of the text. -/
theorem parsing_ends : (∀ tokens : List Token, (∃ parsed, parse tokens = .ok parsed) ∨
      parse tokens = .error .reversedSpan ∧ ¬Token.InOrder 0 tokens) ∧
    EndsAs typeOver type ∧
    (IsLoop (paramRound type) (paramEntries type) ∧
      IsLoop (bodyRound "interface element" ((fun e ↦ [e]) <$> element type))
        (bodyItems "interface element" ((fun e ↦ [e]) <$> element type)) ∧
      IsLoop (bodyRound "struct field" (fieldGroup type))
        (bodyItems "struct field" (fieldGroup type)) ∧
      IsLoop nameRound fieldNames) ∧
    (IsLoop (groupRound "import path" importSpec) (groupItems "import path" importSpec) ∧
      IsLoop (groupRound "type declaration" typeSpec) (groupItems "type declaration" typeSpec) ∧
      IsLoop (clauseRound (!·.isAt .importWord) importClause)
        (clauses (!·.isAt .importWord) importClause) ∧
      IsLoop (clauseRound (·.isAt .eof) declClause) (clauses (·.isAt .eof) declClause)) ∧
    ∀ c : Cursor, c.isAt .eof = true ∨ c.Passes (Cursor.resume 0 c.lastStop c.tokens) := by
  have himport : ∀ c : Cursor, (!c.isAt .importWord) = false → c.isAt .eof = false := fun c h ↦
    isAt_eof_of_isAt (by simpa using h) (by decide)
  refine ⟨exists_parse_or_reversed, unrolls_types.ends,
    ⟨isLoop_params, isLoop_elements, isLoop_fields, isLoop_names⟩,
    ⟨?_, ?_, ?_, ?_⟩, passes_resume_of_not_eof⟩
  · exact isLoop_group readsItems_importSpec _
  · exact isLoop_group readsItems_typeSpec _
  · exact isLoop_clauses himport readsClauses_importClause
  · exact isLoop_clauses (fun _ h ↦ h) readsClauses_declClause

end Understudy
