import Understudy.Proofs.CharacterBytes
import Understudy.Proofs.TypeSpans

namespace Understudy

def Decl.spans : Decl → List Span
  | .type _ e s => s :: e.spans
  | .func _ sig s => s :: sig.spans

def SourceFile.spans (f : SourceFile) : List Span :=
  f.imports.map (·.span) ++ f.decls.flatMap Decl.spans

def Diagnostic.spans (ds : List Diagnostic) : List Span := ds.filterMap (·.span)

def Parsed.spans (p : Parsed) : List Span := p.file.spans ++ Diagnostic.spans p.diagnostics

def Lexed.spans (l : Lexed) : List Span := l.tokens.map (·.span) ++ Diagnostic.spans l.diagnostics

theorem allWithin_diagnosticSpans {size : Nat} {ds : List Diagnostic} :
    AllWithin size (Diagnostic.spans ds) ↔ ∀ d ∈ ds, d.Within size := by
  simp only [AllWithin, Diagnostic.spans, List.mem_filterMap, Diagnostic.Within]
  constructor
  · intro h d hd s hs
    exact h s ⟨d, hd, hs⟩
  · rintro h s ⟨d, hd, hs⟩
    exact h d hd s hs

namespace Reader

variable {α : Type} {sorted : Prop} {size n : Nat} {c c₁ c' : Cursor} {item : Reader α}
    {spans : α → List Span}

def ReadsItems (sorted : Prop) (size : Nat) (item : Reader α) (spans : α → List Span) : Prop :=
  ∀ c, (sorted → c.IsOrderly size) →
    Runs sorted size item c fun x c' ↦ Spends sorted size c (spans x) c'

theorem runs_packageClause (hc : sorted → c.IsOrderly size) :
    Runs sorted size packageClause c fun _ _ ↦ True := by
  refine runs_skipSemicolons.bind hc fun _ c₁ _ hc₁ _ ↦ ?_
  refine runs_expect_bind hc₁ fun _ c₂ _ hc₂ ↦ ?_
  refine runs_ident_bind hc₂ fun t c₃ _ hc₃ ↦ ?_
  exact (runs_terminator hc₃ _).bind hc₃ fun _ _ _ _ _ ↦ .pure trivial

theorem readsItems_importSpec : ReadsItems sorted size importSpec fun i ↦ [i.span] := by
  intro c hc
  have hpath : ∀ (qualifier : Option String) (c₁ : Cursor), c.Steps c₁ →
      (sorted → c₁.IsOrderly size) →
      Runs sorted size (do
        let literal ← expect .str "expected import path string"
        let path := Literal.string literal.text
        if path.isEmpty then rejectAt "import path is empty" literal.span
        else return (⟨qualifier, path, ← range c.start literal.span.stop⟩ : ImportSpec)) c₁
        fun i c' ↦ Spends sorted size c [i.span] c' := by
    intro qualifier c₁ h₁ hc₁
    refine runs_expect_bind hc₁ fun t c₂ ht hc₂ ↦ ?_
    have hliteral : sorted → t.span.Within size := fun hs ↦ ((hc₁ hs).takes ht).2.1
    have hpasses : c.Passes c₂ := h₁.trans_passes ht.passes
    have hle : sorted → c.start ≤ t.span.stop :=
      fun hs ↦ ht.lastStop ▸ (hc hs).start_le_lastStop hpasses
    refine runs_ite (runs_rejectAt hliteral _) (runs_range_bind hle (.pure ⟨hpasses, fun hs ↦ ?_⟩))
    simpa using Span.Within.of_le (hle hs) (hliteral hs).2
  refine runs_cursor_bind (runs_ite ?_ (runs_ite ?_ (hpath none c .refl hc)))
  · rw [bind_map_left]
    refine runs_ident_bind hc fun t c₁ ht hc₁ ↦ ?_
    exact hpath t.text c₁ ht.steps hc₁
  · exact (runs_reject (Q := fun _ _ ↦ False) hc _).bind hc fun _ _ _ _ h ↦ h.elim

theorem readsItems_typeSpec : ReadsItems sorted size typeSpec Decl.spans := by
  intro c hc
  refine runs_ident_bind hc fun t c₁ ht hc₁ ↦ ?_
  refine (readsTypes_type c₁ (Nat.lt_succ_self _) hc₁).bind hc₁ fun e c₂ h₂ _ he ↦ ?_
  have hname : sorted → t.span.Within size := fun hs ↦ ((hc hs).takes ht).2.1
  refine runs_join_bind (fun hs ↦ (hname hs).1) (.pure ⟨ht.passes.trans_steps h₂, ?_⟩)
  intro hs
  have hall := he.within hs
  simpa [Decl.spans] using ⟨(hname hs).join (hall _ e.span_mem_spans), hall⟩

theorem runs_noBody_bind {f : Unit → Reader α} {Q : α → Cursor → Prop}
    (hc : sorted → c.IsOrderly size) (h : Runs sorted size (f ()) c Q) :
    Runs sorted size (noBody >>= f) c Q := by
  have hbody : Runs sorted size noBody c fun _ c' ↦ c' = c :=
    runs_ite (runs_reject hc _) (.pure rfl)
  refine hbody.bind hc fun _ c' _ _ heq ↦ ?_
  subst heq
  exact h

theorem readsItems_funcDecl : ReadsItems sorted size funcDecl Decl.spans := by
  intro c hc
  refine runs_expect_bind hc fun word c₁ hword hc₁ ↦ ?_
  refine runs_ident_bind hc₁ fun t c₂ ht hc₂ ↦ runs_noBody_bind hc₂ ?_
  refine (runs_signature readsTypes_type hc₂ (Nat.lt_succ_self _)).bind hc₂
    fun sig c₃ h₃ hc₃ hsig ↦ ?_
  have hsig' := hsig.of_steps hc (hword.steps.trans ht.steps)
  have hall := hsig'.range [] (by simp [SignatureExpr.spans_eq]) fun _ ↦ allWithin_nil
  have hle := hall.start_le
  rw [hword.start_eq] at hall hle
  refine runs_noBody_bind hc₃ (runs_range_bind hle ?_)
  exact (runs_terminator hc₃ _).bind hc₃ fun _ c₄ h₄ _ _ ↦
    .pure ⟨hall.passes.trans_steps h₄, hall.within⟩

/-- What a clause has made and reported lies in the text. -/
structure ClauseWithin (size : Nat) (spans : α → List Span) (c : Clause α) : Prop where
  items : AllWithin size (c.items.flatMap spans)
  problem : ∀ d ∈ c.problem, d.Within size

theorem runs_groupItems (hitem : ReadsItems sorted size item spans) (what : String) {m : Nat}
    (hm : c.tokens.length < m) (hc : sorted → c.IsOrderly size) :
    Runs sorted size (groupItems what item m) c fun cl _ ↦ sorted → ClauseWithin size spans cl := by
  induction m generalizing c with
  | zero => omega
  | succ m ih =>
    refine runs_skipSemicolons.bind hc fun _ c₁ h₁ hc₁ _ ↦ ?_
    refine runs_cursor_bind (runs_ite (.pure fun _ ↦ ⟨allWithin_nil, nofun⟩) ?_)
    refine (hitem c₁ hc₁).attempt_bind hc₁ (fun x c₂ _ hc₂ hx ↦ ?_) fun d c₂ _ _ hd ↦ .pure ?_
    · refine (runs_terminator hc₂ what).attempt_bind hc₂ (fun _ c₃ h₃ hc₃ _ ↦ ?_)
        fun d c₃ _ _ hd ↦ .pure ?_
      · have hle := h₁.length_le
        have hlt := (hx.passes.trans_steps h₃).length_lt
        refine (ih (by omega) hc₃).bind hc₃ fun later c₄ _ _ hlater ↦ .pure fun hs ↦ ?_
        exact ⟨by simpa using ⟨hx.within hs, (hlater hs).items⟩, (hlater hs).problem⟩
      · exact fun hs ↦ ⟨by simpa using hx.within hs, by simpa using hd hs⟩
    · exact fun hs ↦ ⟨allWithin_nil, by simpa using hd hs⟩

theorem runs_group (hitem : ReadsItems sorted size item spans) (itemEnd close : String)
    (hc : sorted → c.IsOrderly size) :
    Runs sorted size (group itemEnd close item) c fun cl _ ↦ sorted →
    ClauseWithin size spans cl := by
  refine (runs_bounded (runs_groupItems hitem itemEnd (Nat.lt_succ_self _) hc)).bind hc
    fun body c₁ _ hc₁ hbody ↦ ?_
  split
  · exact .pure hbody
  · refine (runs_expect hc₁ _ _).attempt_bind hc₁ (fun t c₂ _ _ _ ↦ .pure hbody)
      fun d c₂ _ _ hd ↦ .pure ?_
    exact fun hs ↦ ⟨(hbody hs).items, by simpa using hd hs⟩

theorem runs_singleItem (hitem : ReadsItems sorted size item spans) (hc : sorted →
  c.IsOrderly size) :
    Runs sorted size (singleItem item) c fun cl c' ↦
      (cl.problem = none → c.Passes c') ∧ (sorted → ClauseWithin size spans cl) := by
  refine (hitem c hc).attempt_bind hc (fun x c₁ _ _ hx ↦ .pure ?_) fun d c₁ _ _ hd ↦ .pure ?_
  · exact ⟨fun _ ↦ hx.passes, fun hs ↦ ⟨by simpa using hx.within hs, nofun⟩⟩
  · exact ⟨nofun, fun hs ↦ ⟨allWithin_nil, by simpa using hd hs⟩⟩

theorem runs_clauseEnd {body : Clause α} (clauseEnd : String) (hc : sorted → c.IsOrderly size)
    (hbody : sorted → ClauseWithin size spans body) : Runs sorted size (match body.problem with
      | some _ => return body
      | none => do
        match ← attempt (terminator clauseEnd) with
        | .error d => return ⟨body.items, some d⟩
        | .ok () => return body) c fun cl _ ↦ sorted → ClauseWithin size spans cl := by
  split
  · exact .pure hbody
  · refine (runs_terminator hc _).attempt_bind hc (fun _ c₁ _ _ _ ↦ .pure hbody)
      fun d c₁ _ _ hd ↦ .pure ?_
    exact fun hs ↦ ⟨(hbody hs).items, by simpa using hd hs⟩

theorem runs_clause (hitem : ReadsItems sorted size item spans) (itemEnd close clauseEnd : String)
    (hc : sorted → c.IsOrderly size) :
    Runs sorted size (clause itemEnd close clauseEnd item) c fun cl _ ↦ sorted →
    ClauseWithin size spans cl := by
  refine runs_eat_bind hc (fun t c₁ _ _ hc₁ ↦ ?_) ?_
  · refine (runs_group hitem itemEnd close hc₁).bind hc₁ fun body c₂ _ hc₂ hbody ↦ ?_
    exact runs_clauseEnd clauseEnd hc₂ hbody
  · refine (runs_singleItem hitem hc).bind hc fun body c₁ _ hc₁ hbody ↦ ?_
    exact runs_clauseEnd clauseEnd hc₁ hbody.2

/-- What `next` makes of a clause that starts here lies in the text; without a problem it takes a
token. -/
def ReadsClauses (sorted : Prop) (size : Nat) (done : Cursor → Bool) (next : Reader (Clause α))
    (spans : α → List Span) : Prop :=
  ∀ c, done c = false → (sorted → c.IsOrderly size) → Runs sorted size next c fun cl c' ↦
    (cl.problem = none → c.Passes c') ∧ (sorted → ClauseWithin size spans cl)

theorem runs_wordClause {kind : TokenKind} (hitem : ReadsItems sorted size item spans)
    (itemEnd close clauseEnd : String) (hne : kind ≠ .eof) (hat : c.isAt kind = true)
    (hc : sorted → c.IsOrderly size) :
    Runs sorted size (do
      let _ ← eat kind
      clause itemEnd close clauseEnd item) c fun cl c' ↦
        (cl.problem = none → c.Passes c') ∧ (sorted → ClauseWithin size spans cl) := by
  obtain ⟨t, hhead, hk⟩ : ∃ t, c.tokens.head? = some t ∧ t.kind = kind := by
    unfold Cursor.isAt at hat
    split at hat
    · exact absurd (by simpa using hat) hne
    · rename_i t rest htokens
      exact ⟨t, by rw [htokens, List.head?_cons], by simpa using hat⟩
  refine runs_eat_head hc hhead hk fun c₁ ht hc₁ ↦ ?_
  refine (runs_clause hitem itemEnd close clauseEnd hc₁).mono fun cl c₂ h₂ hcl ↦ ?_
  exact ⟨fun _ ↦ ht.passes.trans_steps h₂, hcl⟩

theorem readsClauses_importClause :
    ReadsClauses sorted size (!·.isAt .importWord) importClause fun i ↦ [i.span] := by
  intro c hdone hc
  exact runs_wordClause readsItems_importSpec _ _ _ (by decide) (by simpa using hdone) hc

theorem runs_refusal (hc : sorted → c.IsOrderly size) (message : String) :
    Runs sorted size (refusal message) c fun cl c' ↦
      (cl.problem = none → c.Passes c') ∧ (sorted → ClauseWithin size spans cl) := by
  refine runs_cursor_bind (.pure ⟨nofun, fun hs ↦ ⟨allWithin_nil, ?_⟩⟩)
  rintro _ ⟨⟩
  exact (hc hs).within_span?

theorem readsClauses_declClause : ReadsClauses sorted size (·.isAt .eof) declClause Decl.spans := by
  intro c _ hc
  refine runs_cursor_bind ?_
  split
  · rename_i hat
    exact runs_wordClause readsItems_typeSpec _ _ _ (by decide) hat hc
  · refine runs_ite (runs_singleItem readsItems_funcDecl hc) (runs_ite ?_ ?_)
    · exact runs_refusal hc _
    · exact runs_refusal hc _

def FoundWithin (size : Nat) (spans : α → List Span) (found : List α × List Diagnostic) : Prop :=
  AllWithin size (found.1.flatMap spans) ∧ ∀ d ∈ found.2, d.Within size

theorem runs_laterClauses {first : Clause α} {later : Reader (List α × List Diagnostic)}
    (hc : sorted → c.IsOrderly size) (hfirst : sorted → ClauseWithin size spans first)
    (hlater : Runs sorted size later c fun found _ ↦ sorted → FoundWithin size spans found) :
    Runs sorted size (do
      let (items, problems) ← later
      return (first.items ++ items, first.problem.toList ++ problems)) c
      fun found _ ↦ sorted → FoundWithin size spans found := by
  refine hlater.bind hc fun found c₁ _ _ hfound ↦ .pure fun hs ↦ ⟨?_, fun d hd ↦ ?_⟩
  · simpa using ⟨(hfirst hs).items, (hfound hs).1⟩
  · rcases List.mem_append.1 hd with hd | hd
    · exact (hfirst hs).problem d (by simpa using hd)
    · exact (hfound hs).2 d hd

/-- Each round takes a token: the clause does, or the search for the next one behind a clause with a
problem. -/
theorem runs_clauses {done : Cursor → Bool} {next : Reader (Clause α)}
    (hdone : ∀ c, done c = false → c.isAt .eof = false)
    (hnext : ReadsClauses sorted size done next spans) {m : Nat} (hm : c.tokens.length < m)
    (hc : sorted → c.IsOrderly size) :
    Runs sorted size (clauses done next m) c fun found _ ↦ sorted →
    FoundWithin size spans found := by
  induction m generalizing c with
  | zero => omega
  | succ m ih =>
    refine runs_skipSemicolons.bind hc fun _ c₁ h₁ hc₁ _ ↦ runs_cursor_bind ?_
    cases hd : done c₁ with
    | true => exact .pure fun _ ↦ ⟨allWithin_nil, nofun⟩
    | false =>
      have hlater : ∀ c₂, c₁.Passes c₂ → (sorted → c₂.IsOrderly size) →
          Runs sorted size (clauses done next m) c₂ fun found _ ↦ sorted →
          FoundWithin size spans found := by
        intro c₂ hpasses hc₂
        have hle := h₁.length_le
        have hlt := hpasses.length_lt
        exact ih (by omega) hc₂
      rw [if_neg Bool.false_ne_true]
      refine (hnext c₁ hd hc₁).bind hc₁ fun first c₂ h₂ hc₂ hfirst ↦ ?_
      by_cases hp : first.problem.isSome = true
      · dsimp only
        rw [if_pos hp]
        refine runs_resume.bind hc₂ fun _ c₃ h₃ hc₃ hresume ↦ runs_laterClauses hc₃ hfirst.2
          (hlater c₃ ?_ hc₃)
        rcases h₂.eq_or_passes with rfl | hpasses
        · exact hresume (hdone _ hd)
        · exact hpasses.trans_steps h₃
      · dsimp only
        rw [if_neg hp]
        exact runs_laterClauses hc₂ hfirst.2 (hlater c₂ (hfirst.1 (by simpa using hp)) hc₂)

theorem isAt_eof_of_isAt {kind : TokenKind} (h : c.isAt kind = true) (hne : kind ≠ .eof) :
    c.isAt .eof = false := by
  unfold Cursor.isAt at *
  split <;> simp_all

theorem runs_fileClauses (package : String) {problems : List Diagnostic} (hc : sorted →
  c.IsOrderly size)
    (hproblems : sorted → ∀ d ∈ problems, d.Within size) : Runs sorted size (do
      let (imports, importProblems) ← bounded (clauses (!·.isAt .importWord) importClause)
      let (decls, declProblems) ← bounded (clauses (·.isAt .eof) declClause)
      return (⟨⟨package, imports, decls⟩, problems ++ importProblems ++ declProblems⟩ : Parsed)) c
      fun parsed _ ↦ sorted → AllWithin size parsed.spans := by
  have himport : ∀ c : Cursor, (!c.isAt .importWord) = false → c.isAt .eof = false := fun c h ↦
    isAt_eof_of_isAt (by simpa using h) (by decide)
  refine (runs_bounded
    (runs_clauses himport readsClauses_importClause (Nat.lt_succ_self _) hc)).bind hc
    fun imports c₁ _ hc₁ himports ↦ ?_
  refine (runs_bounded
    (runs_clauses (fun _ h ↦ h) readsClauses_declClause (Nat.lt_succ_self _) hc₁)).bind hc₁
    fun decls c₂ _ _ hdecls ↦ .pure fun hs ↦ ?_
  have hfile : AllWithin size (imports.1.map (·.span)) := by
    simpa [List.map_eq_flatMap] using (himports hs).1
  simp only [Parsed.spans, SourceFile.spans, allWithin_append, allWithin_diagnosticSpans,
    List.forall_mem_append]
  exact ⟨⟨hfile, (hdecls hs).1⟩, ⟨hproblems hs, (himports hs).2⟩, (hdecls hs).2⟩

theorem runs_file (hc : sorted → c.IsOrderly size) :
    Runs sorted size file c fun parsed _ ↦ sorted → AllWithin size parsed.spans := by
  refine (runs_packageClause hc).attempt_bind hc (fun name c₁ _ hc₁ _ ↦ ?_) fun d c₁ _ hc₁ hd ↦ ?_
  · exact runs_fileClauses name hc₁ fun _ ↦ nofun
  · refine runs_resume.bind hc₁ fun _ c₂ _ hc₂ _ ↦ ?_
    exact runs_fileClauses "" hc₂ (by simpa using hd)

end Reader

namespace Piece

variable {size : Nat}

theorem stop_le_tokens (last : Option TokenKind) {pos : Nat} {ps : List Piece}
    (h : pos + byteCount (ps.flatMap (·.text)) ≤ size) :
    ∀ t ∈ tokens size last pos ps, t.span.stop ≤ size := by
  induction ps generalizing last pos with
  | nil =>
    rw [tokens]
    split <;> simp
  | cons p rest ih =>
    rw [List.flatMap_cons, byteCount_append, ← Nat.add_assoc] at h
    change pos + p.size + _ ≤ size at h
    have hp : pos + p.size ≤ size := Nat.le_trans (Nat.le_add_right ..) h
    have hpos : pos ≤ size := Nat.le_trans (Nat.le_add_right ..) hp
    rw [tokens]
    split
    · simpa [hp] using ih _ h
    · split
      · simpa [hpos] using ih _ h
      · exact ih _ h

theorem unknownBytes_within {pos : Nat} {bytes : List UInt8} (h : pos + bytes.length ≤ size) :
    ∀ d ∈ unknownBytes pos bytes, d.Within size := by
  induction bytes generalizing pos with
  | nil => nofun
  | cons b rest ih =>
    rw [List.length_cons] at h
    have hfirst : Span.Within size ⟨pos, pos + 1⟩ := .of_le (by omega) (by omega)
    simp only [unknownBytes, List.forall_mem_cons]
    exact ⟨Diagnostic.within_error _ hfirst, ih (by omega)⟩

theorem diagnostics_within {pos : Nat} {ps : List Piece}
    (h : pos + byteCount (ps.flatMap (·.text)) ≤ size) :
    ∀ d ∈ diagnostics pos ps, d.Within size := by
  induction ps generalizing pos with
  | nil => nofun
  | cons p rest ih =>
    rw [List.flatMap_cons, byteCount_append, ← Nat.add_assoc] at h
    have hp : pos + p.size ≤ size := Nat.le_trans (Nat.le_add_right ..) h
    have hproblems : ∀ d ∈ p.problems pos, d.Within size := by
      have hwhole : Span.Within size ⟨pos, pos + p.size⟩ := .of_le (Nat.le_add_right ..) hp
      unfold problems
      split
      · exact unknownBytes_within (by rwa [length_flatMap_utf8EncodeChar])
      · simpa using Diagnostic.within_error _ hwhole
      · simpa using Diagnostic.within_error _ hwhole
      · nofun
    rw [diagnostics, List.forall_mem_append]
    exact ⟨hproblems, ih h⟩

end Piece

theorem stop_le_lex (source : String) :
    ∀ t ∈ (lex source).tokens, t.span.stop ≤ source.utf8ByteSize :=
  Piece.stop_le_tokens none (by simpa using byteCount_pieces_le source)

theorem allWithin_of_inOrder {size lo : Nat} {ts : List Token} (h : Token.InOrder lo ts)
    (hstop : ∀ t ∈ ts, t.span.stop ≤ size) : AllWithin size (ts.map (·.span)) := by
  induction ts generalizing lo with
  | nil => exact allWithin_nil
  | cons t rest ih =>
    rw [List.forall_mem_cons] at hstop
    simpa using ⟨⟨h.2.1, hstop.1⟩, ih h.2.2 hstop.2⟩

theorem diagnostics_within_lex (source : String) :
    ∀ d ∈ (lex source).diagnostics, d.Within source.utf8ByteSize :=
  Piece.diagnostics_within (by simpa using byteCount_pieces_le source)

theorem lex_within (source : String) : AllWithin source.utf8ByteSize (lex source).spans := by
  rw [Lexed.spans, allWithin_append, allWithin_diagnosticSpans]
  exact ⟨allWithin_of_inOrder (inOrder_lex source) (stop_le_lex source),
    diagnostics_within_lex source⟩

/-- Tokens in order in a text are read, and what is read and reported lies in the text. -/
theorem exists_parse {tokens : List Token} {size : Nat} (h : Token.InOrder 0 tokens)
    (hstop : ∀ t ∈ tokens, t.span.stop ≤ size) :
    ∃ parsed, parse tokens = .ok parsed ∧ AllWithin size parsed.spans := by
  have hc : True → (Cursor.ofTokens tokens).IsOrderly size := fun _ ↦ ⟨h, hstop⟩
  have hrun : Reader.Meets True size _ _ (Reader.file (.ofTokens tokens)) := Reader.runs_file hc
  unfold parse
  cases hfile : Reader.file (.ofTokens tokens) with
  | done parsed c =>
    rw [hfile] at hrun
    exact ⟨parsed, rfl, hrun.2 trivial⟩
  | rejected d c =>
    rw [hfile] at hrun
    refine ⟨_, rfl, ?_⟩
    simp only [Parsed.spans, SourceFile.spans, List.map_nil, List.flatMap_nil, List.nil_append,
      allWithin_diagnosticSpans, List.forall_mem_singleton]
    exact hrun.2 trivial
  | fault e =>
    rw [hfile] at hrun
    exact absurd trivial hrun.2

theorem exists_stop_le (tokens : List Token) : ∃ size, ∀ t ∈ tokens, t.span.stop ≤ size := by
  induction tokens with
  | nil => exact ⟨0, nofun⟩
  | cons t rest ih =>
    obtain ⟨size, hsize⟩ := ih
    refine ⟨max t.span.stop size, List.forall_mem_cons.2 ⟨Nat.le_max_left .., fun u hu ↦ ?_⟩⟩
    exact Nat.le_trans (hsize u hu) (Nat.le_max_right ..)

/-- A source text always comes apart into tokens and these into a file, and no stretch in the
tokens, the file and the reports is reversed or leaves the text. From tokens that stand in order a
file is read, whatever they are. -/
theorem reading_within : (∀ source : String, AllWithin source.utf8ByteSize (lex source).spans ∧
      ∃ parsed, parse (lex source).tokens = .ok parsed ∧
      AllWithin source.utf8ByteSize parsed.spans) ∧
    ∀ tokens : List Token, Token.InOrder 0 tokens → ∃ parsed, parse tokens = .ok parsed ∧
      ∀ size, (∀ t ∈ tokens, t.span.stop ≤ size) → AllWithin size parsed.spans := by
  refine ⟨fun source ↦ ⟨lex_within source, exists_parse (inOrder_lex source) (stop_le_lex source)⟩,
    ?_⟩
  intro tokens h
  obtain ⟨bound, hbound⟩ := exists_stop_le tokens
  obtain ⟨parsed, hparsed, -⟩ := exists_parse h hbound
  refine ⟨parsed, hparsed, fun size hstop ↦ ?_⟩
  obtain ⟨parsed', hparsed', hwithin⟩ := exists_parse h hstop
  rw [hparsed] at hparsed'
  cases hparsed'
  exact hwithin

section Torn

/-- Tokens of no text: a body that is never closed, with gaps between the words. -/
def tornTokens : List Token :=
  [⟨.packageWord, ⟨0, 7⟩, "package"⟩, ⟨.ident, ⟨9, 10⟩, "p"⟩, ⟨.semicolon, ⟨10, 10⟩, ""⟩,
    ⟨.typeWord, ⟨12, 16⟩, "type"⟩, ⟨.ident, ⟨20, 21⟩, "T"⟩, ⟨.structWord, ⟨21, 27⟩, "struct"⟩,
    ⟨.lbrace, ⟨30, 31⟩, "\x7b"⟩, ⟨.comma, ⟨31, 32⟩, ","⟩]

theorem reading_within_torn : Token.InOrder 0 tornTokens ∧ ∃ parsed, parse tornTokens = .ok parsed ∧
    AllWithin 32 parsed.spans := by
  have hord : Token.InOrder 0 tornTokens := by simp [tornTokens, Token.InOrder, Span.IsOrdered]
  obtain ⟨parsed, hparsed, hwithin⟩ := reading_within.2 tornTokens hord
  exact ⟨hord, parsed, hparsed, hwithin 32 (by decide)⟩

end Torn

end Understudy
