import Understudy.Proofs.ReadSpellings
import Understudy.Proofs.SpelledFiles
import Understudy.Proofs.SpellingDepths

namespace Understudy

open Reader

variable {α : Type} {c c' c₁ d : Cursor}

section Specs

theorem spelled_importSpec :
    Spelled importSpec fun ws i ↦ BeginsItem ws ∧ SpellsImport ws i.unplaced := by
  intro c i c' h
  have hpath {qualifier : Option String} {start : Nat} {c₁ : Cursor} (h : (do
      let literal ← expect .str "expected import path string"
      let path := Literal.string literal.text
      if path.isEmpty then rejectAt "import path is empty" literal.span
      else return (⟨qualifier, path, ← range start literal.span.stop⟩ : ImportSpec)) c₁ =
        .done i c') :
      ∃ literal, c₁.words = (.str, literal) :: c'.words ∧
        SpellsImport (qualifier.toList.map (.ident, ·) ++ [(.str, literal)]) i.unplaced := by
    obtain ⟨t, c₂, ht, h⟩ := bind_eq_done.1 h
    obtain ⟨-, h⟩ | ⟨hempty, h⟩ := ite_eq_done h
    · cases h
    · simp only [bind_eq_done, pure_eq_done] at h
      obtain ⟨s, c₃, hs, rfl, rfl⟩ := h
      obtain ⟨-, rfl⟩ := range_eq_done hs
      exact ⟨t.text, words_of_expect ht, .mk qualifier (by simpa using hempty)⟩
  rw [importSpec, bind_cursor] at h
  obtain ⟨-, h⟩ | ⟨-, h⟩ := ite_eq_done h
  · rw [bind_map_left] at h
    obtain ⟨word, c₁, hword, h⟩ := bind_eq_done.1 h
    obtain ⟨literal, hwords, hspells⟩ := hpath h
    exact ⟨[(.ident, word.1), (.str, literal)],
      by rw [words_of_ident hword, hwords]; rfl, ⟨_, _, rfl, rfl⟩, hspells⟩
  · obtain ⟨-, h⟩ | ⟨-, h⟩ := ite_eq_done h
    · cases h
    · rw [pure_bind] at h
      obtain ⟨literal, hwords, hspells⟩ := hpath h
      exact ⟨[(.str, literal)], hwords, ⟨_, _, rfl, rfl⟩, hspells⟩

theorem spelled_typeSpec :
    Spelled typeSpec fun ws decl ↦ BeginsItem ws ∧ SpellsSpec [ws] [ws] [decl.unplaced] := by
  intro c decl c' h
  simp only [typeSpec, bind_eq_done, pure_eq_done] at h
  obtain ⟨name, c₁, hname, e, c₂, he, s, c₃, hs, rfl, rfl⟩ := h
  obtain ⟨-, rfl⟩ := join_eq_done hs
  obtain ⟨ws, hwords, hspells⟩ := spelled_type he
  exact ⟨(.ident, name.1) :: ws,
    by rw [words_of_ident hname, hwords, List.cons_append], ⟨_, _, rfl, rfl⟩, .mk name.1 hspells⟩

theorem spelled_funcHead :
    Spelled funcHead fun ws decl ↦ BeginsItem ws ∧ SpellsDecls [ws] [ws] [decl.unplaced] := by
  intro c decl c' h
  simp only [funcHead, bind_eq_done, pure_eq_done] at h
  obtain ⟨word, c₁, hword, name, c₂, hname, _, c₃, hbody, sig, c₄, hsig, _, c₅, hbody', s,
      c₆, hs, rfl, rfl⟩ := h
  obtain rfl := noBody_eq_done hbody
  obtain rfl := noBody_eq_done hbody'
  obtain ⟨-, rfl⟩ := range_eq_done hs
  obtain ⟨ws, hwords, hspells⟩ := spelled_signature spelled_type hsig
  refine ⟨(.funcWord, word.text) :: (.ident, name.1) :: ws, ?_, ⟨_, _, rfl, rfl⟩,
    .func name.1 hspells⟩
  rw [words_of_expect hword, words_of_ident hname, hwords]
  rfl

end Specs

section Clauses

variable {item : Reader α} {itemEnd close clauseEnd : String} {P : List Word → α → Prop}

theorem takesItems_of_group (hitem : Spelled item fun ws x ↦ BeginsItem ws ∧ P ws x) {m : Nat}
    {xs : List α} (h : groupItems itemEnd item m c = .done ⟨xs, none⟩ c') :
    ∃ specs d, TakesItems c specs d ∧ d.skipped = c' ∧ List.Forall₂ P specs xs := by
  induction m generalizing c xs with
  | zero => cases h
  | succ m ih =>
    rw [groupItems, bind_done (show skipSemicolons c = .done () c.skipped from rfl),
      bind_cursor] at h
    obtain ⟨-, h⟩ | ⟨-, h⟩ := ite_eq_done h
    · cases h
      exact ⟨[], c, .nil c, rfl, .nil⟩
    · obtain ⟨r, c₁, hr, h⟩ := bind_eq_done.1 h
      obtain ⟨x, rfl, hx⟩ | ⟨problem, rfl, -⟩ := attempt_eq_done hr
      · obtain ⟨r, c₂, hr, h⟩ := bind_eq_done.1 h
        obtain ⟨_, rfl, hend⟩ | ⟨problem, rfl, -⟩ := attempt_eq_done hr
        · simp only [bind_eq_done, pure_eq_done] at h
          obtain ⟨later, c₃, hlater, hclause, rfl⟩ := h
          obtain ⟨items, problem⟩ := later
          cases hclause
          obtain ⟨ws, hwords, hbegins, hP⟩ := hitem hx
          obtain ⟨specs, d, htakes, hskip, hall⟩ := ih hlater
          exact ⟨ws :: specs, d, .cons hwords hbegins (endsItem_of_terminator hend) htakes,
            hskip, .cons hP hall⟩
        · cases h
      · cases h

theorem spelled_clauseHead (hitem : Spelled item fun ws x ↦ BeginsItem ws ∧ P ws x) {xs : List α}
    (word : TokenKind) (x : String) (h : clauseHead itemEnd close item c = .done ⟨xs, none⟩ c') :
    ∃ ws specs, c.words = ws ++ c'.words ∧ InClauses word specs [(word, x) :: ws] ∧
    List.Forall₂ P specs xs := by
  rw [clauseHead, bind_eq_done] at h
  obtain ⟨opened, c₁, hopen, h⟩ := h
  obtain ⟨rfl, t, ht, hkind⟩ | ⟨rfl, rfl, -⟩ := eat_eq_done hopen
  · rw [if_pos rfl, group, bind_eq_done] at h
    obtain ⟨⟨items, problem⟩, c₂, hbody, h⟩ := h
    cases problem with
    | some => cases h
    | none =>
      obtain ⟨closed, c₃, hclosed, h⟩ := bind_eq_done.1 h
      obtain ⟨u, rfl, hrparen⟩ | ⟨problem, rfl, -⟩ := attempt_eq_done hclosed
      · cases h
        obtain ⟨specs, d, htakes, rfl, hall⟩ := takesItems_of_group hitem hbody
        obtain ⟨body, hwords, hended⟩ := htakes.ended
        refine ⟨(.lparen, t.text) :: (body ++ [(.rparen, u.text)]), specs, ?_,
          inClauses_grouped hended x _ _, hall⟩
        rw [ht.words_kind hkind, hwords, words_of_expect hrparen]
        simp only [List.cons_append, List.append_assoc, List.nil_append]
      · cases h
  · rw [if_neg Bool.false_ne_true, singleItem, bind_eq_done] at h
    obtain ⟨r, c₂, hr, h⟩ := h
    obtain ⟨y, rfl, hy⟩ | ⟨problem, rfl, -⟩ := attempt_eq_done hr
    · cases h
      obtain ⟨ws, hwords, -, hP⟩ := hitem hy
      exact ⟨ws, [ws], hwords, .single ws .nil, .cons hP .nil⟩
    · cases h

/-- What a clause takes: its words, and then its end. -/
def TakesClause (c d : Cursor) (S : List Word → Prop) : Prop :=
  ∃ (ws : List Word) (e : Cursor), c.words = ws ++ e.words ∧ BeginsItem ws ∧ S ws ∧
    EndsItem e.words d.words

theorem takesClause_of_word (hitem : Spelled item fun ws x ↦ BeginsItem ws ∧
  P ws x) {xs : List α} {word : TokenKind}
    (hword : closesItems word = false) (hat : c.isAt word = true)
    (h : (do let _ ← eat word; clause itemEnd close clauseEnd item) c = .done ⟨xs, none⟩ d) :
    TakesClause c d fun ws ↦ ∃ specs, InClauses word specs [ws] ∧ List.Forall₂ P specs xs := by
  obtain ⟨taken, c₁, heat, h⟩ := bind_eq_done.1 h
  obtain ⟨e, hhead, hend⟩ := clause_eq_done.1 h
  obtain ⟨t, c₂, ht, hkind⟩ := exists_takes_of_isAt hat (by rintro rfl; cases hword)
  obtain ⟨ws, specs, hwords, hclauses, hall⟩ := spelled_clauseHead hitem word t.text hhead
  refine ⟨(word, t.text) :: ws, e, ?_, ⟨_, _, rfl, hword⟩, ⟨specs, hclauses, hall⟩,
    endsItem_of_terminator hend⟩
  rw [words_of_takes (eat_head_eq_done (by rw [ht.tokens]; rfl) hkind heat), hwords,
    List.cons_append]

theorem takesClause_importClause {xs : List ImportSpec} (hat : c.isAt .importWord = true)
    (h : importClause c = .done ⟨xs, none⟩ d) : TakesClause c d fun ws ↦
      ∃ specs, InClauses .importWord specs [ws] ∧
      List.Forall₂ (fun ws i ↦ SpellsImport ws i.unplaced) specs xs :=
  takesClause_of_word spelled_importSpec rfl hat h

theorem takesClause_declClause {xs : List Decl} (h : declClause c = .done ⟨xs, none⟩ d) :
    TakesClause c d fun ws ↦ SpellsDecls [ws] [ws] (xs.map Decl.unplaced) := by
  rw [declClause, bind_cursor] at h
  obtain ⟨hat, h⟩ | ⟨-, h⟩ := ite_eq_done h
  · obtain ⟨ws, e, hwords, hbegins, ⟨specs, hclauses, hall⟩, hend⟩ :=
      takesClause_of_word spelled_typeSpec rfl hat h
    have hspecs := InParts.of_forall₂ (P := SpellsSpec) (List.forall₂_map_right_iff.2 hall)
    rw [← List.flatMap_def, ← List.map_eq_flatMap] at hspecs
    exact ⟨ws, e, hwords, hbegins, .types hspecs hclauses hclauses, hend⟩
  · obtain ⟨-, h⟩ | ⟨-, h⟩ := ite_eq_done h
    · obtain ⟨r, c₁, hr, h⟩ := bind_eq_done.1 h
      obtain ⟨decl, rfl, hdecl⟩ | ⟨problem, rfl, -⟩ := attempt_eq_done hr
      · cases h
        rw [funcDecl_eq] at hdecl
        obtain ⟨_, e, hhead, hdecl⟩ := bind_eq_done.1 hdecl
        obtain ⟨_, d, hend, hdecl⟩ := bind_eq_done.1 hdecl
        cases hdecl
        obtain ⟨ws, hwords, hbegins, hspells⟩ := spelled_funcHead hhead
        exact ⟨ws, e, hwords, hbegins, hspells, endsItem_of_terminator hend⟩
      · cases h
    · obtain ⟨-, h⟩ | ⟨-, h⟩ := ite_eq_done h
      · cases h
      · cases h

theorem takesItems_of_readsOn {done : Cursor → Bool} {next : Reader (Clause α)}
    {S : List Word → List α → Prop}
    (hnext : ∀ {c d xs}, done c = false → next c = .done ⟨xs, none⟩ d → TakesClause c d (S · xs))
    {xs : List α} (h : ReadsOn done next c xs d) :
    ∃ clauses xss, TakesItems c clauses d ∧ List.Forall₂ S clauses xss ∧ xss.flatten = xs := by
  induction h with
  | nil c => exact ⟨[], [], .nil c, .nil, rfl⟩
  | cons hdone hclause _ ih =>
    obtain ⟨ws, e, hwords, hbegins, hS, hend⟩ := hnext hdone hclause
    obtain ⟨clauses, xss, htakes, hall, rfl⟩ := ih
    exact ⟨ws :: clauses, _ :: xss, .cons hwords hbegins hend htakes, .cons hS hall, rfl⟩

theorem InClauses.append {word : TokenKind} {specs others clauses later : List (List Word)}
    (h : InClauses word specs clauses) (h' : InClauses word others later) :
    InClauses word (specs ++ others) (clauses ++ later) := by
  induction h with
  | nil => exact h'
  | single spec _ ih => exact .single spec ih
  | group hbody _ ih =>
    rw [List.append_assoc]
    exact .group hbody ih

theorem spellsImports_of_clauses {clauses : List (List Word)} {xss : List (List ImportSpec)}
    (h : List.Forall₂ (fun ws xs ↦ ∃ specs, InClauses .importWord specs [ws] ∧
      List.Forall₂ (fun ws i ↦ SpellsImport ws i.unplaced) specs xs) clauses xss) :
    SpellsImports clauses clauses (xss.flatten.map ImportSpec.unplaced) := by
  induction h with
  | nil => exact .mk .nil .nil .nil
  | cons hclause _ ih =>
    obtain ⟨specs, hspecs, hall⟩ := hclause
    generalize hlater : List.map ImportSpec.unplaced _ = later at ih
    obtain ⟨hothers, hclauses, -⟩ := ih
    have happend := hspecs.append hclauses
    rw [List.flatten_cons, List.map_append, hlater]
    exact .mk (List.rel_append (List.forall₂_map_right_iff.2 hall) hothers) happend happend

end Clauses

section Files

variable {source source' : String} {file : SourceFile} {ws ws' : List Word}

def sourceWords (source : String) : List Word := (lex source).tokens.map Token.word

theorem parse_of_readSource (h : readSource source = ⟨some file, []⟩) :
    (lex source).diagnostics = [] ∧ parse (lex source).tokens = .ok ⟨file, []⟩ := by
  rw [readSource] at h
  split at h
  · rename_i hdiag
    refine ⟨by simpa using hdiag, ?_⟩
    split at h
    · rename_i parsed hparse
      split at h
      · rename_i hclean
        cases h
        rw [hparse, ← List.isEmpty_iff.1 hclean]
      · cases h
    · cases h
  · cases h

theorem spellsFile_of_file (h : Reader.file c = .done ⟨file, []⟩ d) :
    SpellsFile c.words c.words file.unplaced := by
  obtain ⟨c₁, c₂, c₃, hpackage, himports, -, hdecls, heof⟩ := readsOn_of_file h
  rw [packageClause_eq] at hpackage
  obtain ⟨package, e, hhead, hpackage⟩ := bind_eq_done.1 hpackage
  obtain ⟨_, c₁, hend, hpackage⟩ := bind_eq_done.1 hpackage
  obtain ⟨hname, rfl⟩ := pure_eq_done.1 hpackage
  simp only [packageHead, bind_eq_done, pure_eq_done] at hhead
  obtain ⟨_, e₁, hskip, word, e₂, hword, name, e₃, hident, rfl, rfl⟩ := hhead
  cases hskip
  have hfront : c.skipped.words = [(.packageWord, word.text), (.ident, name.1)] ++ e₃.words := by
    rw [words_of_expect hword, words_of_ident hident]
    rfl
  obtain ⟨is, importss, htakesImports, hallImports, himported⟩ :=
    takesItems_of_readsOn (fun hdone ↦ takesClause_importClause (by simpa using hdone)) himports
  obtain ⟨ds, declss, htakesDecls, hallDecls, hdeclared⟩ :=
    takesItems_of_readsOn (fun _ ↦ takesClause_declClause) hdecls
  have htakes := TakesItems.cons hfront ⟨_, _, rfl, rfl⟩ (endsItem_of_terminator hend)
    (htakesImports.append htakesDecls)
  obtain ⟨ws, hwords, hended⟩ := htakes.ended
  have hspelledImports := spellsImports_of_clauses hallImports
  have hspelledDecls :=
    InParts.of_forall₂ (P := SpellsDecls) (List.forall₂_map_right_iff.2 hallDecls)
  have hunplaced : file.unplaced = ⟨name.1, importss.flatten.map ImportSpec.unplaced,
      (declss.map (·.map Decl.unplaced)).flatten⟩ := by
    rw [SourceFile.unplaced, hname, himported, ← List.map_flatten, hdeclared]
  have hends : ∀ w ∈ c₃.skipped.words.head?, w.1 = .eof := by
    intro w hw
    cases hrest : c₃.skipped.words with
    | nil => simp [hrest] at hw
    | cons x rest =>
      obtain rfl : x = w := by simpa [hrest] using hw
      rw [Cursor.isAt_eq hrest] at heof
      exact beq_iff_eq.1 heof
  rw [hunplaced, hwords]
  exact .mk hspelledImports hspelledDecls hended hended hends hends

theorem SpellsFile.readSource_eq (h : SpellsFile (sourceWords source) ws' file)
    (hdiag : (lex source).diagnostics = []) :
    ∃ parsed, readSource source = ⟨some parsed, []⟩ ∧ parsed.unplaced = file := by
  obtain ⟨eof, hyields⟩ := h.yields
  exact readSource_of_yields hdiag (hyields.mono fun _ ↦ And.symm)

end Files

namespace Reader

section Variadic

variable {p : Reader TypeExpr} {x y : ParamExpr TypeExpr}
    {front back xs ps : List (ParamExpr TypeExpr)}

theorem shareTypes_tail {pending : List (String × Span)}
    (h : shareTypes pending (x :: xs) = .ok ps) :
    ∃ pending' qs, shareTypes pending' xs = .ok qs := by
  rw [shareTypes] at h
  split at h
  · split at h
    · cases h
    · split at h
      · cases h
      · exact ⟨_, _, ‹_›⟩
  · split at h
    · exact ⟨_, _, h⟩
    · cases h

theorem exists_error_of_shareTypes (hx : x.name = none) (hy : y.name ≠ none)
    (hvariadic : y.variadic = true) (pending : List (String × Span)) :
    ∃ d, shareTypes pending (front ++ x :: y :: back) = .error d := by
  cases hshares : shareTypes pending (front ++ x :: y :: back) with
  | error d => exact ⟨d, rfl⟩
  | ok ps =>
    exfalso
    induction front generalizing pending ps with
    | nil =>
      obtain ⟨name, hname⟩ := Option.ne_none_iff_exists'.1 hy
      rw [List.nil_append, shareTypes, hx] at hshares
      dsimp only at hshares
      split at hshares
      · rw [shareTypes, hname] at hshares
        simp [hvariadic] at hshares
      · cases hshares
    | cons z front ih =>
      obtain ⟨pending', qs, hrest⟩ := shareTypes_tail hshares
      exact ih pending' qs hrest

theorem exists_error_of_groupParams (hx : x.name = none) (hy : y.name ≠ none)
    (hvariadic : y.variadic = true) : ∃ d, groupParams (front ++ x :: y :: back) = .error d := by
  rw [groupParams]
  split
  · exact ⟨_, rfl⟩
  · split
    · rename_i hall
      exact absurd (by simpa using List.all_eq_true.1 hall y (by simp)) hy
    · exact exists_error_of_shareTypes hx hy hvariadic []

theorem exists_adjacent {β γ : Type} {S : β → γ → Prop} {a b : β} {as bs : List β} {ys : List γ}
    (h : List.Forall₂ S (as ++ a :: b :: bs) ys) :
    ∃ front x y back, ys = front ++ x :: y :: back ∧ S a x ∧ S b y := by
  induction as generalizing ys with
  | nil =>
    cases h with
    | cons ha h =>
    cases h with
    | cons hb h => exact ⟨[], _, _, _, rfl, ha, hb⟩
  | cons c as ih =>
    cases h with
    | cons hc h =>
    obtain ⟨front, x, y, back, rfl, ha, hb⟩ := ih h
    exact ⟨_ :: front, x, y, back, rfl, ha, hb⟩

/-- A list in which a name without a type stands in front of a name with an ellipsis, or in which an
ellipsis is not in the last entry. -/
def SharesEllipsis (entries : List EntryText) : Prop :=
  (∃ front e e' back, entries = front ++ e :: e' :: back ∧ e.name = none ∧ e'.name ≠ none ∧
    e'.ellipsis ≠ none) ∨
    ∃ e ∈ entries.dropLast, e.ellipsis ≠ none

theorem params_rejected {c c' : Cursor} {entries : List EntryText} (h : ListRead p c entries xs c')
    (hshares : SharesEllipsis entries) : ∃ d, params p c = .rejected d c' := by
  have hgroup : ∃ d, groupParams xs = .error d := by
    obtain ⟨front, e, e', back, rfl, he, he', hellipsis⟩ | hellipsis := hshares
    · obtain ⟨front', x, y, back', rfl, hx, hy⟩ := exists_adjacent h.means
      refine exists_error_of_groupParams (hx.name_eq_none.2 he)
        (fun hnone ↦ he' (hy.name_eq_none.1 hnone)) ?_
      rw [← Bool.not_eq_false]
      exact fun hfalse ↦ hellipsis (hy.variadic_eq_false.1 hfalse)
    · obtain ⟨x, hx, hvariadic⟩ := (exists_mem_iff (forall₂_dropLast h.means)
        fun e x he ↦ (not_congr he.variadic_eq_false).symm).1 hellipsis
      rw [groupParams]
      split
      · exact ⟨_, rfl⟩
      · rename_i hfind
        exact absurd (by simpa using List.find?_eq_none.1 hfind x hx) hvariadic
  obtain ⟨d, hd⟩ := hgroup
  exact ⟨d, by rw [params_of_entryList h.done, hd]⟩

end Variadic

end Reader

/-- Groups mean their expansions. The sources that are read as a file without a report are its
spellings, the places in the text apart, so when one spelling of a file is read without a report,
each other one is too, and as the same. In all four places a group and its expansion are spellings
of the same, for any number of names or specs. A name cannot share an ellipsis with others, in
either spelling. -/
theorem groups_mean_expansions :
    (∀ source file, (∃ parsed, readSource source = ⟨some parsed, []⟩ ∧ parsed.unplaced = file) ↔
      (lex source).diagnostics = [] ∧ SpellsFile (sourceWords source) (sourceWords source) file) ∧
    (∀ source source' file, readSource source = ⟨some file, []⟩ → (lex source').diagnostics = [] →
      Regroups (sourceWords source) (sourceWords source') ∨
      Regroups (sourceWords source') (sourceWords source) →
      ∃ file', readSource source' = ⟨some file', []⟩ ∧ file'.unplaced = file.unplaced) ∧
    (∀ names name t e, SpellsType t t e → SharedParams SpellsType (groupedEntries names name t)
      (ownEntries (names ++ [name]) t) ((names ++ [name]).map (⟨some ·, e, false, .nowhere⟩))) ∧
    (∀ names ns t e tag tags, NameList names ns → SpellsType t t e →
      SpellsFields SpellsType [ns ++ (t ++ tagWords tag)] (ownFields names t tags)
        (names.map (⟨some ·, e, .nowhere⟩))) ∧
    (∀ specs body decls x y z, InParts SpellsSpec specs specs decls → Ended specs body →
      SpellsDecls [groupClause .typeWord x y z body] (ownClauses .typeWord x specs) decls) ∧
    (∀ specs body imports x y z, List.Forall₂ SpellsImport specs imports → Ended specs body →
      SpellsImports [groupClause .importWord x y z body] (ownClauses .importWord x specs) imports) ∧
    ∀ p c entries xs c', Reader.ListRead p c entries xs c' → Reader.SharesEllipsis entries →
      ∃ d, Reader.params p c = .rejected d c' := by
  refine ⟨?_, ?_, ?_, ?_, ?_, ?_, fun p c entries xs c' ↦ params_rejected⟩
  · refine fun source file ↦ ⟨?_, fun ⟨hdiag, hspells⟩ ↦ hspells.readSource_eq hdiag⟩
    rintro ⟨parsed, h, rfl⟩
    obtain ⟨hdiag, hparse⟩ := parse_of_readSource h
    obtain ⟨d, hfile⟩ := file_eq_done_of_parse hparse
    exact ⟨hdiag, spellsFile_of_file hfile⟩
  · intro source source' file h hdiag hregroups
    obtain ⟨whole, hspells⟩ : Regroups (sourceWords source) (sourceWords source') := by
      obtain hregroups | ⟨whole, hspells⟩ := hregroups
      · exact hregroups
      · exact ⟨whole, hspells.symm⟩
    -- `whole` is what the first source is read as, since a source is read as one file only
    obtain ⟨hdiag', -⟩ := parse_of_readSource h
    obtain ⟨parsed, hparsed, rfl⟩ := hspells.readSource_eq hdiag'
    cases h.symm.trans hparsed
    exact hspells.symm.readSource_eq hdiag
  · exact fun names name t e ht ↦ sharedParams_expanded spellsType_name ht
  · exact fun names ns t e tag tags hns ht ↦ spellsFields_expanded hns ht tag tags
  · exact fun specs body decls x y z hspecs hbody ↦
      .types hspecs (inClauses_grouped hbody x y z) (inClauses_own .typeWord x specs)
  · exact fun specs body imports x y z hspecs hbody ↦
      .mk hspecs (inClauses_grouped hbody x y z) (inClauses_own .importWord x specs)

section Shop

def groupedShop : String :=
  "package shop; import (\"log\"; \"io\"); type (T int; U T); type Pair struct \x7bA, B T\x7d; func Join(a, b U);"

def ownShop : String :=
  "package shop; import \"log\"; import \"io\"; type T int; type U T; type Pair struct \x7bA T; B T\x7d;
    func Join(a U, b U);"

def sharedEllipsis : Cursor :=
  .ofTokens (numbered 0 [(.lparen, "("), (.ident, "a"), (.comma, ","), (.ident, "b"),
    (.ellipsis, "..."), (.ident, "T"), (.rparen, ")")])

theorem listRead_sharedEllipsis : ∃ entries xs c', ListRead type sharedEllipsis entries xs c' ∧
    SharesEllipsis entries := by
  let bare : EntryText := ⟨none, none, [⟨.ident, ⟨1, 1⟩, "a"⟩]⟩
  let variadic : EntryText :=
    ⟨some ⟨.ident, ⟨3, 3⟩, "b"⟩, some ⟨.ellipsis, ⟨4, 4⟩, "..."⟩, [⟨.ident, ⟨5, 5⟩, "T"⟩]⟩
  have hbare : bare.Means type ⟨none, .name none "a" ⟨1, 1⟩, false, ⟨1, 1⟩⟩ :=
    ⟨by simp [bare], rfl, by simp [bare], rfl, .ofTokens bare.type, _, rfl, rfl⟩
  have hvariadic : variadic.Means type ⟨some "b", .name none "T" ⟨5, 5⟩, true, ⟨3, 5⟩⟩ :=
    ⟨by simp [variadic], rfl, by simp [variadic], rfl, .ofTokens variadic.type, _, rfl, rfl⟩
  refine ⟨[bare, variadic], _, _, ⟨rfl, ?_, .cons hbare (.cons hvariadic .nil)⟩, ?_⟩
  · exact ⟨_, _, _, rfl, rfl, rfl, .cons bare rfl (.last variadic)⟩
  · exact .inl ⟨[], bare, variadic, [], rfl, rfl, by simp [variadic], by simp [variadic]⟩

theorem exists_readSource_groupedShop : ∃ file, readSource groupedShop = ⟨some file, []⟩ := by
  have hclean : (readSource groupedShop).file.isSome ∧
      (readSource groupedShop).diagnostics = [] := by
    decide +kernel
  generalize readSource groupedShop = parsed at hclean
  obtain ⟨hfile, hdiagnostics⟩ := hclean
  obtain ⟨file, diagnostics⟩ := parsed
  obtain ⟨file, rfl⟩ := Option.isSome_iff_exists.1 hfile
  exact ⟨file, by rw [← hdiagnostics]⟩

theorem groups_mean_expansions_shop : (∃ file file', readSource groupedShop = ⟨some file, []⟩ ∧
    readSource ownShop = ⟨some file', []⟩ ∧ file'.unplaced = file.unplaced ∧
      SpellsFile (sourceWords ownShop) (sourceWords ownShop) file.unplaced) ∧
    ∃ d c', params type sharedEllipsis = .rejected d c' := by
  obtain ⟨hspelled, hsame, hparams, hfields, htypes, himports, hrejected⟩ := groups_mean_expansions
  have himported :
      SpellsImports _
        (ownClauses .importWord "import" [[(.str, "\"log\"")], [(.str, "\"io\"")]]) _ :=
    himports _ _ _ "import" "(" ")"
      (.cons (.mk none (by decide +kernel)) (.cons (.mk none (by decide +kernel)) .nil))
      (.cons _ (w := (.semicolon, ";")) rfl (.last _))
  have hspecs :=
    InParts.cons (SpellsSpec.mk "T" (spellsType_name "int"))
      (.cons (.mk "U" (spellsType_name "T")) .nil)
  have hgroup := htypes _ _ _ "type" "(" ")" hspecs (.cons _ (w := (.semicolon, ";")) rfl (.last _))
  have hnames : NameList ["A", "B"] [(.ident, "A"), (.comma, ","), (.ident, "B")] :=
    .cons "A" (.last "B")
  have hfield := hfields _ _ _ _ none (fun _ ↦ none) hnames (spellsType_name "T")
  have hstruct : SpellsType
      [(.structWord, "struct"), (.lbrace, "\x7b"), (.ident, "A"), (.comma, ","), (.ident, "B"),
        (.ident, "T"), (.rbrace, "\x7d")]
      [(.structWord, "struct"), (.lbrace, "\x7b"), (.ident, "A"), (.ident, "T"), (.semicolon, ";"),
        (.ident, "B"), (.ident, "T"), (.rbrace, "\x7d")] _ :=
    spellsType_iff.2 (.struct (.last _) (.cons [_, _] rfl (.last _)) (InParts.cons hfield .nil))
  have hpair :=
    SpellsDecls.types (InParts.cons (.mk "Pair" hstruct) .nil) (.single (x := "type") _ .nil)
    (.single (x := "type") _ .nil)
  have hparam := InParts.cons (hparams ["a"] "b" _ _ (spellsType_name "U")) .nil
  have hjoin : SpellsSignature SpellsType
      [(.lparen, "("), (.ident, "a"), (.comma, ","), (.ident, "b"), (.ident, "U"), (.rparen, ")")]
      [(.lparen, "("), (.ident, "a"), (.ident, "U"), (.comma, ","), (.ident, "b"), (.ident, "U"),
        (.rparen, ")")] _ :=
    .mk (.mk (.cons _ (.last _)) (.cons _ (.last _)) (.named (.plain hparam))) .none
  have heof : ∀ w ∈ [((.eof, "") : Word)].head?, w.1 = .eof := by simp
  have hfile := SpellsFile.mk (x := "package") himported (.cons hgroup (.cons hpair (.cons
    (.func (x := "func") "Join" hjoin) .nil))) (ended_flatMap ([_, (.ident, "shop")] :: _))
      (ended_flatMap _) heof heof
  have hregroups : Regroups (sourceWords groupedShop) (sourceWords ownShop) := by
    rw [show sourceWords groupedShop = _ from ?_, show sourceWords ownShop = _ from ?_]
    · exact ⟨_, hfile⟩
    · decide +kernel
    · decide +kernel
  obtain ⟨file, hread⟩ := exists_readSource_groupedShop
  obtain ⟨file', hread', hunplaced⟩ := hsame _ _ file hread (by decide +kernel) (.inl hregroups)
  obtain ⟨entries, xs, c', hlist, hshares⟩ := listRead_sharedEllipsis
  obtain ⟨d, hd⟩ := hrejected _ _ _ _ _ hlist hshares
  exact ⟨⟨file, file', hread, hread', hunplaced, ((hspelled _ _).1 ⟨file', hread', hunplaced⟩).2⟩,
    d, c', hd⟩

end Shop

end Understudy
