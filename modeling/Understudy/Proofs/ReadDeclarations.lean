import Understudy.Proofs.FileSpans
import Understudy.Proofs.WrittenSignatures

namespace Understudy

namespace Piece

theorem isIdentifier_of_extent {c : Char} {rest : List Char} {n : Nat}
    (h : extent c rest = (.token .ident, n)) :
    Token.isIdentifier (String.ofList (c :: rest.take n)) = true := by
  cases extent_eq_iff.1 h with
  | word hc hn hkind =>
    have htail : ∀ x ∈ rest.take n, inWord x = true := by
      rw [← hn, take_takeWhile_length]
      exact List.all_eq_true.1 List.all_takeWhile
    rw [Token.isIdentifier_iff, Token.isWord_iff]
    exact ⟨⟨c, _, String.toList_ofList, hc, htail⟩, hkind⟩
  | mark hmark =>
    unfold mark? at hmark
    split at hmark <;> cases hmark

theorem isIdentifier_pieces {text : List Char} :
    ∀ p ∈ pieces text, p.shape = .token .ident →
    Token.isIdentifier (String.ofList p.text) = true := by
  fun_induction pieces text with
  | case1 => exact List.forall_mem_nil _
  | case2 c rest shape n hextent ih =>
    refine List.forall_mem_cons.2 ⟨?_, fun p hp ↦ ?_⟩
    · rintro rfl
      exact isIdentifier_of_extent hextent
    · split at hp
      · cases hp
      · exact ih p hp

theorem isIdentifier_tokens {size : Nat} {last : Option TokenKind} {pos : Nat} {ps : List Piece}
    (h : ∀ p ∈ ps, p.shape = .token .ident → Token.isIdentifier (String.ofList p.text) = true) :
    ∀ t ∈ tokens size last pos ps, t.kind = .ident → Token.isIdentifier t.text = true := by
  induction ps generalizing last pos with
  | nil =>
    rw [tokens]
    split <;> simp
  | cons p rest ih =>
    rw [List.forall_mem_cons] at h
    rw [tokens]
    split
    · rename_i kind hshape
      refine List.forall_mem_cons.2 ⟨?_, ih h.2⟩
      rintro rfl
      exact h.1 hshape
    · split
      · refine List.forall_mem_cons.2 ⟨fun hident ↦ ?_, ih h.2⟩
        cases hident
      · exact ih h.2

end Piece

theorem isIdentifier_lex {source : String} {t : Token} (h : t ∈ (lex source).tokens)
    (hkind : t.kind = .ident) : Token.isIdentifier t.text = true :=
  Piece.isIdentifier_tokens Piece.isIdentifier_pieces t h hkind

namespace Cursor

theorem Steps.mem_tokens {c c₁ c₂ : Cursor} {t : Token} (h : c.Steps c₁) (ht : c₁.Takes t c₂) :
    t ∈ c.tokens := by
  obtain ⟨text, htext⟩ := h.exists_tokens
  rw [htext, ht.tokens]
  exact List.mem_append_right _ (List.mem_cons_self ..)

end Cursor

namespace Reader

variable {α : Type} {c c' : Cursor} {item : Reader α} {cl : Clause α}

theorem steps_of_runs {p : Reader α} {Q : α → Cursor → Prop} {a : α} (h : Runs False 0 p c Q)
    (hp : p c = .done a c') : c.Steps c' := by
  have hmeets : Meets False 0 c Q (p c) := h
  rw [hp] at hmeets
  exact hmeets.1

theorem steps_of_rejected {p : Reader α} {Q : α → Cursor → Prop} {d : Diagnostic}
    (h : Runs False 0 p c Q) (hp : p c = .rejected d c') : c.Steps c' := by
  have hmeets : Meets False 0 c Q (p c) := h
  rw [hp] at hmeets
  exact hmeets.1

theorem movesOn_of_readsItems {p : Reader α} {spans : α → List Span}
    (h : ReadsItems False 0 p spans) : MovesOn p :=
  fun hp ↦ steps_of_runs (h _ False.elim) hp

theorem occurs_groupItems (hitem : MovesOn item) {what : String} {m : Nat}
    (h : groupItems what item m c = .done cl c') : ∀ x ∈ cl.items, Occurs item x c := by
  induction m generalizing c cl with
  | zero => cases h
  | succ m ih =>
    rw [groupItems, bind_eq_done] at h
    obtain ⟨_, c₁, hskip, h⟩ := h
    cases hskip
    have hskip := steps_skipSemicolons c
    generalize Cursor.skipSemicolons c.lastStop c.tokens = c₁ at h hskip
    rw [bind_cursor] at h
    obtain ⟨-, h⟩ | ⟨-, h⟩ := ite_eq_done h
    · cases h
      exact List.forall_mem_nil _
    · rw [bind_eq_done] at h
      obtain ⟨r, c₂, hr, h⟩ := h
      obtain ⟨x, rfl, hx⟩ | ⟨d, rfl, -⟩ := attempt_eq_done hr
      · have hfirst : Occurs item x c := ⟨c₁, c₂, hskip, hx⟩
        rw [bind_eq_done] at h
        obtain ⟨r, c₃, hr, h⟩ := h
        obtain ⟨_, rfl, hend⟩ | ⟨d, rfl, -⟩ := attempt_eq_done hr
        · simp only [bind_eq_done, pure_eq_done] at h
          obtain ⟨later, c₄, hlater, rfl, rfl⟩ := h
          have hsteps := hskip.trans ((hitem hx).trans (terminator_steps hend))
          exact List.forall_mem_cons.2 ⟨hfirst, fun y hy ↦ (ih hlater y hy).of_steps hsteps⟩
        · cases h
          exact List.forall_mem_singleton.2 hfirst
      · cases h
        exact List.forall_mem_nil _

theorem occurs_group (hitem : MovesOn item) {itemEnd close : String}
    (h : group itemEnd close item c = .done cl c') : ∀ x ∈ cl.items, Occurs item x c := by
  rw [group, bind_eq_done] at h
  obtain ⟨body, c₁, hbody, h⟩ := h
  have hall := occurs_groupItems hitem hbody
  cases hproblem : body.problem with
  | some d =>
    rw [hproblem] at h
    cases h
    exact hall
  | none =>
    rw [hproblem, bind_eq_done] at h
    obtain ⟨r, c₂, hr, h⟩ := h
    obtain ⟨_, rfl, -⟩ | ⟨d, rfl, -⟩ := attempt_eq_done hr
    · cases h
      exact hall
    · cases h
      exact hall

theorem occurs_singleItem (h : singleItem item c = .done cl c') :
    ∀ x ∈ cl.items, Occurs item x c := by
  rw [singleItem, bind_eq_done] at h
  obtain ⟨r, c₁, hr, h⟩ := h
  obtain ⟨x, rfl, hx⟩ | ⟨d, rfl, -⟩ := attempt_eq_done hr
  · cases h
    exact List.forall_mem_singleton.2 ⟨c, _, .refl, hx⟩
  · cases h
    exact List.forall_mem_nil _

theorem items_clauseEnd {body : Clause α} {clauseEnd : String} (h : (match body.problem with
    | some _ => return body
    | none => do
      match ← attempt (terminator clauseEnd) with
      | .error d => return ⟨body.items, some d⟩
      | .ok () => return body : Reader (Clause α)) c = .done cl c') : cl.items = body.items := by
  cases hproblem : body.problem with
  | some d =>
    rw [hproblem] at h
    cases h
    rfl
  | none =>
    rw [hproblem, bind_eq_done] at h
    obtain ⟨r, c₂, hr, h⟩ := h
    obtain ⟨_, rfl, -⟩ | ⟨d, rfl, -⟩ := attempt_eq_done hr
    · cases h
      rfl
    · cases h
      rfl

theorem occurs_clause (hitem : MovesOn item) {itemEnd close clauseEnd : String}
    (h : clause itemEnd close clauseEnd item c = .done cl c') :
    ∀ x ∈ cl.items, Occurs item x c := by
  rw [clause, bind_eq_done] at h
  obtain ⟨grouped, c₁, hgrouped, h⟩ := h
  obtain ⟨-, h⟩ | ⟨-, h⟩ := ite_eq_done h
  · rw [bind_eq_done] at h
    obtain ⟨body, c₂, hbody, h⟩ := h
    rw [items_clauseEnd h]
    exact fun x hx ↦ (occurs_group hitem hbody x hx).of_steps (eat_steps hgrouped)
  · rw [bind_eq_done] at h
    obtain ⟨body, c₂, hbody, h⟩ := h
    rw [items_clauseEnd h]
    exact fun x hx ↦ (occurs_singleItem hbody x hx).of_steps (eat_steps hgrouped)

def Declares (c : Cursor) (d : Decl) : Prop := Occurs typeSpec d c ∨ Occurs funcDecl d c

theorem declares_declClause {cl : Clause Decl} (h : declClause c = .done cl c') :
    ∀ d ∈ cl.items, Declares c d := by
  rw [declClause, bind_cursor] at h
  obtain ⟨-, h⟩ | ⟨-, h⟩ := ite_eq_done h
  · rw [typeClause, bind_eq_done] at h
    obtain ⟨_, c₁, heat, h⟩ := h
    have hall := occurs_clause (movesOn_of_readsItems readsItems_typeSpec) h
    exact fun d hd ↦ .inl ((hall d hd).of_steps (eat_steps heat))
  · obtain ⟨-, h⟩ | ⟨-, h⟩ := ite_eq_done h
    · exact fun d hd ↦ .inr (occurs_singleItem h d hd)
    · obtain ⟨-, h⟩ | ⟨-, h⟩ := ite_eq_done h
      · cases h
        exact List.forall_mem_nil _
      · cases h
        exact List.forall_mem_nil _

theorem Declares.of_steps {d : Decl} {c₁ : Cursor} (h : Declares c₁ d) (hsteps : c.Steps c₁) :
    Declares c d :=
  h.imp (·.of_steps hsteps) (·.of_steps hsteps)

theorem forall_mem_laterClauses {P : α → Prop} {first : Clause α}
  {later : Reader (List α × List Diagnostic)}
    {found : List α × List Diagnostic} (hfirst : ∀ x ∈ first.items, P x)
    (hlater : ∀ rest c₁, later c = .done rest c₁ → ∀ x ∈ rest.1, P x) (h : (do
      let (items, problems) ← later
      return (first.items ++ items, first.problem.toList ++ problems)) c =
        .done found c') : ∀ x ∈ found.1, P x := by
  simp only [bind_eq_done, pure_eq_done] at h
  obtain ⟨rest, c₁, hrest, rfl, rfl⟩ := h
  exact List.forall_mem_append.2 ⟨hfirst, hlater rest c₁ hrest⟩

theorem declares_clauses {m : Nat} {found : List Decl × List Diagnostic}
    (h : clauses (·.isAt .eof) declClause m c = .done found c') : ∀ d ∈ found.1, Declares c d := by
  induction m generalizing c found c' with
  | zero => cases h
  | succ m ih =>
    rw [clauses, bind_eq_done] at h
    obtain ⟨_, c₁, hskip, h⟩ := h
    cases hskip
    have hskip := steps_skipSemicolons c
    generalize Cursor.skipSemicolons c.lastStop c.tokens = c₁ at h hskip
    rw [bind_cursor] at h
    obtain ⟨-, h⟩ | ⟨hdone, h⟩ := ite_eq_done h
    · cases h
      exact List.forall_mem_nil _
    · rw [bind_eq_done] at h
      obtain ⟨first, c₂, hfirst, h⟩ := h
      have h₂ : c₁.Steps c₂ :=
        steps_of_runs (readsClauses_declClause c₁ (by simpa using hdone) False.elim) hfirst
      have hitems : ∀ d ∈ first.items, Declares c d :=
        fun d hd ↦ (declares_declClause hfirst d hd).of_steps hskip
      have hlater : ∀ {c₃ : Cursor}, c₂.Steps c₃ →
          ∀ rest c', clauses (·.isAt .eof) declClause m c₃ = .done rest c' →
          ∀ d ∈ rest.1, Declares c d :=
        fun h₃ rest c' h d hd ↦ (ih h d hd).of_steps (hskip.trans (h₂.trans h₃))
      obtain ⟨-, h⟩ | ⟨-, h⟩ := ite_eq_done h
      · rw [bind_eq_done] at h
        obtain ⟨_, c₃, hresume, h⟩ := h
        cases hresume
        exact forall_mem_laterClauses hitems (hlater (steps_resume c₂ 0)) h
      · exact forall_mem_laterClauses hitems (hlater .refl) h

theorem exists_package {name : String} (h : packageClause c = .done name c') :
    ∃ t ∈ c.tokens, t.kind = .ident ∧ name = t.text := by
  simp only [packageClause, bind_eq_done, pure_eq_done, ident_eq_done] at h
  obtain ⟨_, c₁, hskip, word, c₂, hword, _, c₃, ⟨t, ht, hkind, rfl⟩, -, -, -, rfl, -⟩ := h
  cases hskip
  exact ⟨t, ((steps_skipSemicolons c).trans (expect_steps hword)).mem_tokens ht, hkind, rfl⟩

theorem fileClauses_eq_done {package : String} (problems : List Diagnostic) {parsed : Parsed}
  (h : (do
      let (imports, importProblems) ← bounded (clauses (!·.isAt .importWord) importClause)
      let (decls, declProblems) ← bounded (clauses (·.isAt .eof) declClause)
      return (⟨⟨package, imports, decls⟩, problems ++ importProblems ++ declProblems⟩ : Parsed)) c =
        .done parsed c') : parsed.file.package = package ∧ (∀ d ∈ parsed.file.decls, Declares c d) ∧
      (parsed.diagnostics = [] → problems = []) := by
  have himport : ∀ c : Cursor, (!c.isAt .importWord) = false → c.isAt .eof = false := fun c h ↦
    isAt_eof_of_isAt (by simpa using h) (by decide)
  simp only [bind_eq_done, pure_eq_done] at h
  obtain ⟨imports, c₁, himports, decls, c₂, hdecls, rfl, rfl⟩ := h
  have hsteps : c.Steps c₁ := steps_of_runs
    (runs_bounded (runs_clauses himport readsClauses_importClause (Nat.lt_succ_self _) False.elim))
    himports
  refine ⟨rfl, fun d hd ↦ (declares_clauses hdecls d hd).of_steps hsteps, fun hnil ↦ ?_⟩
  exact (List.append_eq_nil_iff.1 (List.append_eq_nil_iff.1 hnil).1).1

theorem file_eq_done {parsed : Parsed} (h : file c = .done parsed c') :
    (∀ d ∈ parsed.file.decls, Declares c d) ∧
      (parsed.diagnostics = [] → ∃ t ∈ c.tokens, t.kind = .ident ∧
        parsed.file.package = t.text) := by
  rw [file, bind_eq_done] at h
  obtain ⟨r, c₁, hr, h⟩ := h
  obtain ⟨name, rfl, hname⟩ | ⟨d, rfl, hd⟩ := attempt_eq_done hr
  · obtain ⟨hpackage, hdecls, -⟩ := fileClauses_eq_done [] h
    have hsteps : c.Steps c₁ := steps_of_runs (runs_packageClause False.elim) hname
    refine ⟨fun d hd ↦ (hdecls d hd).of_steps hsteps, fun _ ↦ ?_⟩
    obtain ⟨t, ht, hkind, rfl⟩ := exists_package hname
    exact ⟨t, ht, hkind, hpackage⟩
  · rw [bind_eq_done] at h
    obtain ⟨_, c₂, hresume, h⟩ := h
    cases hresume
    obtain ⟨-, hdecls, hproblems⟩ := fileClauses_eq_done [d] h
    have hsteps := (steps_of_rejected (runs_packageClause False.elim) hd).trans (steps_resume c₁ 0)
    exact ⟨fun d hd ↦ (hdecls d hd).of_steps hsteps,
      fun hnil ↦ absurd (hproblems hnil) (List.cons_ne_nil _ _)⟩

end Reader

def Decl.signatures : Decl → List (SignatureExpr TypeExpr)
  | .type _ e _ => e.signatures
  | .func _ sig _ => sig.signatures

namespace Reader

variable {c : Cursor} {d : Decl}

theorem Declares.name (h : Declares c d) : ∃ t ∈ c.tokens, t.kind = .ident ∧ d.name = t.text := by
  rcases h with ⟨c₁, c₂, hsteps, h⟩ | ⟨c₁, c₂, hsteps, h⟩
  · simp only [typeSpec, bind_eq_done, pure_eq_done, ident_eq_done] at h
    obtain ⟨_, c₃, ⟨t, ht, hkind, rfl⟩, e, c₄, -, s, c₅, -, rfl, -⟩ := h
    exact ⟨t, hsteps.mem_tokens ht, hkind, rfl⟩
  · simp only [funcDecl, bind_eq_done, pure_eq_done, ident_eq_done] at h
    obtain ⟨word, c₃, hword, _, c₄, ⟨t, ht, hkind, rfl⟩, _, c₅, -, sig, c₆, -, _, c₇, -,
        s, c₈, -, _, c₉, -, rfl, -⟩ := h
    exact ⟨t, (hsteps.trans (expect_steps hword)).mem_tokens ht, hkind, rfl⟩

theorem noBody_eq_done {c' : Cursor} (h : noBody c = .done () c') : c' = c := by
  rw [noBody, bind_eq_done] at h
  obtain ⟨b, c₁, hb, h⟩ := h
  cases hb
  obtain ⟨-, h⟩ | ⟨-, h⟩ := ite_eq_done h
  · cases h
  · cases h
    rfl

theorem Declares.stands (h : Declares c d) : ∀ sig ∈ d.signatures, Stands sig c := by
  rcases h with ⟨c₁, c₂, hsteps, h⟩ | ⟨c₁, c₂, hsteps, h⟩
  · simp only [typeSpec, bind_eq_done, pure_eq_done, ident_eq_done] at h
    obtain ⟨_, c₃, ⟨t, ht, -, rfl⟩, e, c₄, he, s, c₅, -, rfl, -⟩ := h
    have hall := (IsTypeReader.whole.finds he).stands
    exact fun sig hsig ↦ (hall sig hsig).of_steps (hsteps.trans ht.steps)
  · simp only [funcDecl, bind_eq_done, pure_eq_done, ident_eq_done] at h
    obtain ⟨word, c₃, hword, _, c₄, ⟨t, ht, -, rfl⟩, _, c₅, hbody, sig, c₆, hsig, _, c₇,
        -, s, c₈, -, _, c₉, -, rfl,
      -⟩ := h
    obtain rfl := noBody_eq_done hbody
    have hall := (finds_signature IsTypeReader.whole.finds .whole hsig).stands
    exact fun sig hsig ↦ (hall sig hsig).of_steps
      (hsteps.trans ((expect_steps hword).trans ht.steps))

end Reader

/-- A source text that is read without a report. Its names are identifiers, and each signature in it
was read from it. -/
structure SourceFile.IsReadFrom (file : SourceFile) (source : String) : Prop where
  package : Token.isIdentifier file.package = true
  name : ∀ d ∈ file.decls, Token.isIdentifier d.name = true
  stands : ∀ d ∈ file.decls, ∀ sig ∈ d.signatures, Reader.Stands sig (.ofTokens (lex source).tokens)

theorem isReadFrom_readSource {source : String} {file : SourceFile}
    (h : (readSource source).file = some file) : file.IsReadFrom source := by
  unfold readSource at h
  dsimp only at h
  split at h
  · split at h
    · rename_i parsed hparsed
      split at h
      · rename_i hclean
        cases h
        unfold parse at hparsed
        split at hparsed
        · rename_i parsed' c' hfile
          cases hparsed
          obtain ⟨hdecls, hpackage⟩ := Reader.file_eq_done hfile
          have hident :
              ∀ {name : String}, (∃ t ∈ (lex source).tokens, t.kind = .ident ∧ name = t.text) →
              Token.isIdentifier name = true := by
            rintro name ⟨t, ht, hkind, rfl⟩
            exact isIdentifier_lex ht hkind
          exact ⟨hident (hpackage (by simpa using hclean)), fun d hd ↦ hident (hdecls d hd).name,
            fun d hd ↦ (hdecls d hd).stands⟩
        · cases hparsed
          simp at hclean
        · cases hparsed
      · cases h
    · cases h
  · cases h

end Understudy
