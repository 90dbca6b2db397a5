import Understudy.Proofs.DisplayedFiles
import Understudy.Proofs.RecoveredFiles
import Understudy.Proofs.SpelledTypes

namespace Understudy

open Reader

variable {α : Type} {item : Reader α} {f : α → α} {itemEnd close clauseEnd : String}

theorem Reader.EndsItem.stopsType {ws after : List Word} (h : EndsItem ws after) :
    StopsType ws := by
  cases h with
  | semicolon hw => exact stopsType_cons (by rw [hw]; rfl) _
  | closing h =>
    intro w hw
    have hkind := h w hw
    obtain ⟨kind, text⟩ := w
    cases kind <;> first | rfl | cases hkind

section Specs

def opensSpec : TokenKind → Bool
  | .ident | .str => true
  | _ => false

/-- From these words, in a clause, this spec is read. -/
structure SpecReads (item : Reader α) (f : α → α) (ws : List Word) (x : α) : Prop where
  opens : ∃ w rest, ws = w :: rest ∧ opensSpec w.1 = true
  reads : ∀ tail rest, EndsItem tail rest → Yields item (ws ++ tail) tail (f · = x)

theorem SpellsImport.reads {ws : List Word} {i : ImportSpec} (h : SpellsImport ws i) :
    SpecReads importSpec ImportSpec.unplaced ws i := by
  obtain ⟨qualifier, hpath⟩ := h
  refine ⟨by cases qualifier <;> exact ⟨_, _, rfl, rfl⟩, fun tail rest _ ↦ ?_⟩
  rw [List.append_assoc, List.singleton_append]
  refine (yields_importSpec_literal qualifier hpath).mono ?_
  rintro i ⟨rfl, hi⟩
  rw [ImportSpec.unplaced, hi]

theorem SpellsSpec.reads {specs specs' : List (List Word)} {decls : List Decl}
    (h : InParts SpellsSpec specs specs' decls) :
    List.Forall₂ (SpecReads typeSpec Decl.unplaced) specs decls := by
  induction h with
  | nil => exact .nil
  | cons h _ ih =>
    obtain ⟨name, h⟩ := h
    refine .cons ⟨⟨_, _, rfl, rfl⟩, fun tail rest hend ↦ ?_⟩ ih
    refine (yields_typeSpec (h.typeReads.reads tail hend.stopsType)).mono ?_
    rintro d ⟨e, s, rfl, he⟩
    rw [Decl.unplaced, he]

section Groups

variable {m : Nat} {w : Word} {ws tail rest after : List Word}

theorem yields_groupItems_nil {text : String} :
    Yields (groupItems itemEnd item (m + 1)) ((.rparen, text) :: after)
    ((.rparen, text) :: after) (· = ⟨[], none⟩) := by
  refine yields_skipSemicolons_bind (by simp)
    (yields_cursor_bind fun c hc ↦ yields_if_pos ?_ (yields_pure rfl))
  simp [Cursor.isAt_eq hc]

theorem yields_groupItems_cons {P : α → Prop} {Q R : Clause α → Prop} (hw : opensSpec w.1 = true)
    (h : Yields item (w :: ws ++ tail) tail P) (hend : EndsItem tail rest)
    (hlater : Yields (groupItems itemEnd item m) rest after Q)
    (hR : ∀ x later, P x → Q later → R ⟨x :: later.items, later.problem⟩) :
    Yields (groupItems itemEnd item (m + 1)) (w :: ws ++ tail) after R := by
  have hsemicolon : w.1 ≠ .semicolon := by
    intro hk
    simp [hk, opensSpec] at hw
  refine yields_skipSemicolons_bind (by simpa using hsemicolon)
    (yields_cursor_bind fun c hc ↦ yields_if_neg ?_ ?_)
  · obtain ⟨kind, _⟩ := w
    rw [Cursor.isAt_eq hc, Cursor.isAt_eq hc]
    cases kind <;> first | rfl | cases hw
  · refine h.attempt.bind fun r hr ↦ ?_
    obtain ⟨x, rfl, hx⟩ := hr
    refine hend.yields.attempt.bind fun r hr ↦ ?_
    obtain ⟨-, rfl, -⟩ := hr
    exact hlater.bind fun later hl ↦ yields_pure (hR x later hx hl)

def IsRead (f : α → α) (xs : List α) (c : Clause α) : Prop := c.items.map f = xs ∧ c.problem = none

theorem yields_groupItems {specs : List (List Word)} {xs : List α} (h : Ended specs ws)
    (hspecs : List.Forall₂ (SpecReads item f) specs xs) (hm : ws.length < m) {text : String} :
    Yields (groupItems itemEnd item m) (ws ++ (.rparen, text) :: after) ((.rparen, text) :: after)
      (IsRead f xs) := by
  have hcons {x : α} {xs : List α} (c : α) (later : Clause α) (hc : f c = x)
      (hlater : IsRead f xs later) : IsRead f (x :: xs) ⟨c :: later.items, later.problem⟩ :=
    ⟨by rw [List.map_cons, hc, hlater.1], hlater.2⟩
  have hnil (m : Nat) : Yields (groupItems itemEnd item (m + 1)) ((.rparen, text) :: after)
      ((.rparen, text) :: after)
      (IsRead f []) := yields_groupItems_nil.mono fun c hc ↦ hc ▸ ⟨rfl, rfl⟩
  induction h generalizing xs m with
  | nil =>
    cases hspecs
    obtain ⟨m, rfl⟩ : ∃ k, m = k + 1 := ⟨m - 1, by omega⟩
    exact hnil m
  | skip hw h ih =>
    obtain ⟨m, rfl⟩ : ∃ k, m = k + 1 := ⟨m - 1, by omega⟩
    exact yields_skip hw (ih hspecs (m := m + 1) (by simp at hm; omega))
  | last spec =>
    cases hspecs with
    | cons hspec hspecs =>
    cases hspecs
    obtain ⟨w, rest, rfl, hopens⟩ := hspec.opens
    obtain ⟨m, rfl⟩ : ∃ k, m = k + 2 := ⟨m - 2, by simp at hm; omega⟩
    have hend : EndsItem ((.rparen, text) :: after) ((.rparen, text) :: after) :=
      .closing (by simp [closesItems])
    exact yields_groupItems_cons hopens (hspec.reads _ _ hend) hend (hnil m) fun c later hc ↦
      hcons c later hc
  | @cons w' spec specs ws hw' h ih =>
    cases hspecs with
    | @cons _ x _ xs hspec hspecs =>
    obtain ⟨w, rest, rfl, hopens⟩ := hspec.opens
    obtain ⟨m, rfl⟩ : ∃ k, m = k + 1 := ⟨m - 1, by omega⟩
    rw [List.append_assoc]
    have hend : EndsItem (w' :: (ws ++ (.rparen, text) :: after)) _ := .semicolon hw' _
    have hm' : ws.length < m := by
      simp at hm
      omega
    exact yields_groupItems_cons hopens (hspec.reads _ _ hend) hend (ih hspecs hm') fun c later hc ↦
      hcons c later hc

theorem yields_clause_group {specs : List (List Word)} {xs : List α} (h : Ended specs ws)
    (hspecs : List.Forall₂ (SpecReads item f) specs xs) (hend : EndsItem tail rest) {x y : String} :
    Yields (clause itemEnd close clauseEnd item) ((.lparen, x) :: (ws ++ (.rparen, y) :: tail)) rest
      (IsRead f xs) := by
  have hclose : Yields (expect .rparen close) ((.rparen, y) :: tail) tail fun _ ↦ True := by
    intro c hc
    obtain ⟨t, ts, last, rfl, ht, hts⟩ := exists_cons hc
    exact .inr ⟨t, _, expect_cons (congrArg Prod.fst ht) close, hts, trivial⟩
  have hgroup : Yields (group itemEnd close item) (ws ++ (.rparen, y) :: tail) tail
      (IsRead f xs) := by
    have hlength : ws.length < (ws ++ (.rparen, y) :: tail).length := by
      rw [List.length_append, List.length_cons]
      omega
    refine (yields_bounded (yields_groupItems h hspecs (by omega))).bind fun body hread ↦ ?_
    obtain ⟨items, _⟩ := body
    obtain ⟨hitems, rfl⟩ := hread
    refine hclose.attempt.bind fun r hr ↦ ?_
    obtain ⟨t, rfl, -⟩ := hr
    exact yields_pure ⟨hitems, rfl⟩
  refine yields_eat_bind (hgroup.bind fun body hread ↦ ?_)
  obtain ⟨items, _⟩ := body
  obtain ⟨hitems, rfl⟩ := hread
  refine hend.yields.attempt.bind fun r hr ↦ ?_
  obtain ⟨-, rfl, -⟩ := hr
  exact yields_pure ⟨hitems, rfl⟩

end Groups

end Specs

section Clauses

variable {done : Cursor → Bool} {next : Reader (Clause α)} {ws after : List Word} {xs : List α}

/-- From these words the loop sees whether it ends in front of them. -/
def Decides (done : Cursor → Bool) (ends : Bool) (ws : List Word) : Prop :=
  ∃ w rest, ws = w :: rest ∧ w.1 ≠ .semicolon ∧ ∀ (c : Cursor) (more : List Word), c.words =
    w :: more → done c = ends

/-- From these words, in a file, this clause is read. -/
structure ClauseReads (done : Cursor → Bool) (next : Reader (Clause α)) (f : α → α) (ws : List Word)
    (xs : List α) : Prop where
  goes : Decides done false ws
  reads : ∀ tail rest, EndsItem tail rest → Yields next (ws ++ tail) rest (IsRead f xs)

def AreRead (f : α → α) (xs : List α) (r : List α × List Diagnostic) : Prop :=
  r.1.map f = xs ∧ r.2 = []

variable {loop : Reader (List α × List Diagnostic)} (hloop : loop = clauseRound done next loop)

include hloop

theorem yields_loop_end (hne : ∀ w ∈ ws.head?, w.1 ≠ .semicolon)
    (hdone : ∀ c : Cursor, c.words = ws → done c = true) : Yields loop ws ws (AreRead f []) := by
  rw [hloop]
  exact yields_skipSemicolons_bind hne
    (yields_cursor_bind fun c hc ↦ yields_if_pos (hdone c hc) (yields_pure ⟨rfl, rfl⟩))

theorem yields_loop_cons {clause tail rest : List Word} {ys : List α}
    (h : ClauseReads done next f clause xs) (hend : EndsItem tail rest)
    (hlater : Yields loop rest after (AreRead f ys)) :
    Yields loop (clause ++ tail) after (AreRead f (xs ++ ys)) := by
  obtain ⟨w, more, rfl, hw, hdone⟩ := h.goes
  rw [hloop]
  refine yields_skipSemicolons_bind (by simpa using hw)
    (yields_cursor_bind fun c hc ↦ yields_if_neg (hdone c _ hc) ?_)
  refine (h.reads tail rest hend).bind fun first hfirst ↦ ?_
  obtain ⟨items, _⟩ := first
  obtain ⟨hitems, rfl⟩ := hfirst
  refine hlater.bind fun r hr ↦ ?_
  obtain ⟨others, _⟩ := r
  obtain ⟨hothers, rfl⟩ := hr
  exact yields_pure ⟨by rw [List.map_append, hitems, hothers], rfl⟩

theorem yields_loop (heof : ∀ w ∈ after.head?, w.1 = .eof)
    (hafter : ∀ c : Cursor, c.words = after → done c = true)
    {first later clauses : List (List Word)} {xss : List (List α)} (h : Ended clauses ws)
    (hclauses : clauses = first ++ later)
    (hfirst : List.Forall₂ (ClauseReads done next f) first xss)
    (hlater : ∀ clause ∈ later, Decides done true clause) :
    ∃ us, Ended later us ∧ (later = [] → us = []) ∧
    Yields loop (ws ++ after) (us ++ after) (AreRead f xss.flatten) := by
  have hend : EndsItem after after := .closing fun w hw ↦ by rw [heof w hw]; rfl
  have hnil : Yields loop after after (AreRead f []) :=
    yields_loop_end hloop (fun w hw hk ↦ by simp [heof w hw] at hk) hafter
  have hstop {clause : List Word} (hclause : Decides done true clause) (more : List Word) :
      Yields loop (clause ++ more) (clause ++ more) (AreRead f []) := by
    obtain ⟨w, rest, rfl, hw, hdone⟩ := hclause
    exact yields_loop_end hloop (by simpa using hw) fun c hc ↦ hdone c _ hc
  -- on the text of all clauses: the loop stops at the first clause of `later`, and what it leaves
  -- is the text from there
  induction h generalizing first xss with
  | nil =>
    obtain ⟨rfl, rfl⟩ := List.append_eq_nil_iff.1 hclauses.symm
    cases hfirst
    exact ⟨[], .nil, fun _ ↦ rfl, hnil⟩
  | skip hw h ih =>
    obtain ⟨us, hus, hempty, hread⟩ := ih hclauses hfirst
    refine ⟨us, hus, hempty, ?_⟩
    -- a round of its own is not needed for the semicolon, the next round skips it
    rw [hloop] at hread ⊢
    exact yields_skip hw hread
  | last clause =>
    cases hfirst with
    | nil =>
      subst hclauses
      exact ⟨clause, .last clause, nofun, hstop (hlater clause (List.mem_singleton_self _)) after⟩
    | cons hclause hfirst =>
      obtain ⟨rfl, hrest⟩ := List.cons.inj hclauses
      obtain ⟨rfl, rfl⟩ := List.append_eq_nil_iff.1 hrest.symm
      cases hfirst
      exact ⟨[], .nil, fun _ ↦ rfl, yields_loop_cons hloop hclause hend hnil⟩
  | @cons w clause clauses ws hw h ih =>
    rw [List.append_assoc, List.cons_append]
    cases hfirst with
    | nil =>
      subst hclauses
      refine ⟨clause ++ w :: ws, .cons clause hw h, nofun, ?_⟩
      rw [List.append_assoc, List.cons_append]
      exact hstop (hlater clause (List.mem_cons_self ..)) _
    | cons hclause hfirst =>
      obtain ⟨rfl, hrest⟩ := List.cons.inj hclauses
      obtain ⟨us, hus, hempty, hread⟩ := ih hrest hfirst
      exact ⟨us, hus, hempty, yields_loop_cons hloop hclause (.semicolon hw _) hread⟩

end Clauses

section Files

variable {after tail rest ws ws' : List Word}

theorem InClauses.exists_clauses {done : Cursor → Bool} {next : Reader (Clause α)}
    {word : TokenKind} {specs clauses : List (List Word)} {xs : List α}
    (h : InClauses word specs clauses) (hword : word ≠ .semicolon)
    (hdone : ∀ (c : Cursor) (x : String) (more : List Word), c.words = (word, x) :: more →
      done c = false)
    (hnext : ∀ (x : String) (ws after : List Word) (P : Clause α → Prop),
      Yields (clause itemEnd close clauseEnd item) ws after P →
      Yields next ((word, x) :: ws) after P) (hspecs : List.Forall₂ (SpecReads item f) specs xs) :
    ∃ xss, List.Forall₂ (ClauseReads done next f) clauses xss ∧ xss.flatten = xs := by
  induction h generalizing xs with
  | nil =>
    cases hspecs
    exact ⟨[], .nil, rfl⟩
  | @single x spec specs clauses h ih =>
    cases hspecs with
    | @cons _ y _ ys hspec hspecs =>
    obtain ⟨xss, hxss, rfl⟩ := ih hspecs
    refine ⟨[y] :: xss, .cons ⟨⟨_, _, rfl, hword, fun c ↦ hdone c x⟩, fun tail rest hend ↦ ?_⟩ hxss,
      rfl⟩
    obtain ⟨w, more, rfl, hopens⟩ := hspec.opens
    have hlparen : w.1 ≠ .lparen := by
      intro hk
      simp [hk, opensSpec] at hopens
    refine hnext _ _ _ _
      ((yields_clause (by simpa using hlparen) (hspec.reads tail rest hend) hend).mono ?_)
    rintro _ ⟨a, ha, rfl⟩
    exact ⟨by rw [List.map_singleton, ha], rfl⟩
  | @group x y z group specs clauses body hbody h ih =>
    have hgroup := List.forall₂_take group.length hspecs
    have hrest := List.forall₂_drop group.length hspecs
    rw [List.take_left] at hgroup
    rw [List.drop_left] at hrest
    obtain ⟨xss, hxss, hflat⟩ := ih hrest
    refine ⟨xs.take group.length :: xss, .cons ?_ hxss,
      by rw [List.flatten_cons, hflat, List.take_append_drop]⟩
    refine ⟨⟨_, _, rfl, hword, fun c ↦ hdone c x⟩, fun tail rest hend ↦ ?_⟩
    simp only [List.cons_append, List.append_assoc, List.nil_append]
    exact hnext _ _ _ _ (yields_clause_group hbody hgroup hend)

section Functions

variable {sig : SignatureExpr TypeExpr} {name x : String}

theorem yields_noBody (hne : ∀ w ∈ ws.head?, w.1 ≠ .lbrace) : Yields noBody ws ws fun _ ↦ True := by
  intro c hc
  have hat : c.isAt .lbrace = false := Cursor.isAt_eq_false hc hne nofun
  refine .inr ⟨(), c, ?_, hc, trivial⟩
  rw [noBody, bind_done (show Reader.isAt .lbrace c = .done false c by rw [Reader.isAt, hat])]
  rfl

theorem SpellsSignature.yields_funcDecl (h : SpellsSignature SpellsType ws ws' sig)
    (hend : EndsItem tail rest) :
    Yields funcDecl ((.funcWord, x) :: (.ident, name) :: (ws ++ tail)) rest
      (·.unplaced = .func name sig .nowhere) := by
  have hread := h.yields (fun _ _ _ ↦ SpellsType.typeReads) hend.stopsType
  obtain ⟨y, more, rfl⟩ := h.opens
  refine yields_expect_bind fun word _ ↦ yields_ident_bind fun s ↦ ?_
  refine (yields_noBody (by simp)).bind fun _ _ ↦ hread.bind fun sig hsig ↦ ?_
  refine (yields_noBody (hend.stopsType.ne rfl)).bind fun _ _ ↦ yields_range_bind fun s ↦ ?_
  exact hend.yields.bind fun _ _ ↦ yields_pure (by rw [Decl.unplaced, hsig])

end Functions

theorem isAt_eof_of_words {c : Cursor} {kind : TokenKind} (hkind : kind ≠ .eof) (x : String)
    (more : List Word) (h : c.words = (kind, x) :: more) : c.isAt .eof = false := by
  rw [Cursor.isAt_eq h]
  exact beq_false_of_ne hkind

theorem SpellsDecls.exists_clauses {clauses clauses' : List (List Word)} {decls : List Decl}
    (h : SpellsDecls clauses clauses' decls) :
    ∃ xss, List.Forall₂ (ClauseReads (·.isAt .eof) declClause Decl.unplaced)
      clauses xss ∧ xss.flatten = decls := by
  cases h with
  | @func x name ws ws' sig h =>
    have hgoes (c : Cursor) := @isAt_eof_of_words c .funcWord nofun x
    refine ⟨[[_]], .cons ⟨⟨_, _, rfl, nofun, hgoes⟩, fun tail rest hend ↦ ?_⟩ .nil, rfl⟩
    refine yields_cursor_bind fun c hc ↦ yields_if_neg ?_ (yields_if_pos ?_ ?_)
    · rw [Cursor.isAt_eq hc]
      rfl
    · rw [Cursor.isAt_eq hc]
      rfl
    · refine (yields_singleItem (h.yields_funcDecl hend)).mono ?_
      rintro _ ⟨d, hd, rfl⟩
      exact ⟨by rw [List.map_singleton, hd], rfl⟩
  | types hspecs h h' =>
    have hnext (x : String) (ws after : List Word) (P : Clause Decl → Prop)
      (hread : Yields (clause "type declaration"
        "expected `)` to close type group" "type declaration" typeSpec) ws after P) :
        Yields declClause ((.typeWord, x) :: ws) after P := by
      refine yields_cursor_bind fun c hc ↦ yields_if_pos ?_ (yields_eat_bind hread)
      rw [Cursor.isAt_eq hc]
      rfl
    exact h.exists_clauses nofun (fun c ↦ @isAt_eof_of_words c .typeWord nofun) hnext
      (SpellsSpec.reads hspecs)

theorem SpellsImports.exists_clauses {clauses clauses' : List (List Word)}
    {imports : List ImportSpec} (h : SpellsImports clauses clauses' imports) :
    ∃ xss, List.Forall₂
      (ClauseReads (!·.isAt .importWord) importClause ImportSpec.unplaced) clauses xss ∧
      xss.flatten = imports := by
  obtain ⟨hspecs, h, -⟩ := h
  refine h.exists_clauses nofun (fun c x more hc ↦ ?_)
    (fun x ws after P hread ↦ yields_eat_bind hread)
    (hspecs.imp fun _ _ ↦ SpellsImport.reads)
  rw [Cursor.isAt_eq hc]
  rfl

theorem InClauses.exists_cons {word : TokenKind} {specs clauses : List (List Word)}
    (h : InClauses word specs clauses) :
    ∀ clause ∈ clauses, ∃ x rest, clause = (word, x) :: rest := by
  induction h with
  | nil => exact List.forall_mem_nil _
  | single spec h ih => exact List.forall_mem_cons.2 ⟨⟨_, _, rfl⟩, ih⟩
  | group hbody h ih => exact List.forall_mem_cons.2 ⟨⟨_, _, rfl⟩, ih⟩

theorem SpellsDecls.decides {clauses clauses' : List (List Word)} {decls : List Decl}
    (h : InParts SpellsDecls clauses clauses' decls) :
    ∀ clause ∈ clauses, Decides (!·.isAt .importWord) true clause := by
  have hends (kind : TokenKind) (hk : (kind == .importWord) = false)
      (hsemicolon : kind ≠ .semicolon) (x : String)
      (rest : List Word) : Decides (!·.isAt .importWord) true ((kind, x) :: rest) :=
    ⟨_, rest, rfl, hsemicolon, fun c more hc ↦ by simp only [Cursor.isAt_eq hc, hk, Bool.not_false]⟩
  induction h with
  | nil => exact List.forall_mem_nil _
  | cons h _ ih =>
    refine List.forall_mem_append.2 ⟨?_, ih⟩
    cases h with
    | func name h => exact List.forall_mem_singleton.2 (hends .funcWord rfl nofun _ _)
    | types hspecs h h' =>
      intro clause hclause
      obtain ⟨x, rest, rfl⟩ := h.exists_cons clause hclause
      exact hends .typeWord rfl nofun x rest

theorem yields_skips {β : Type} {g : Unit → Reader β} {skipped : List Word} {Q : β → Prop}
    (hskipped : ∀ w ∈ skipped, w.1 = .semicolon) (h : Yields (skipSemicolons >>= g) ws after Q) :
    Yields (skipSemicolons >>= g) (skipped ++ ws) after Q := by
  induction skipped with
  | nil => exact h
  | cons w skipped ih =>
    obtain ⟨hw, hrest⟩ := List.forall_mem_cons.1 hskipped
    exact yields_skip hw (ih hrest)

theorem Ended.exists_first {item : List Word} {items : List (List Word)}
    (h : Ended (item :: items) ws) (hafter : ∀ w ∈ after.head?, closesItems w.1 = true) :
    ∃ skipped tail rest, (∀ w ∈ skipped, w.1 = .semicolon) ∧
      ws ++ after = skipped ++ (item ++ tail) ∧ EndsItem tail (rest ++ after) ∧
      Ended items rest := by
  generalize hl : item :: items = l at h
  induction h with
  | nil => cases hl
  | skip hw h ih =>
    obtain ⟨skipped, tail, rest, hskipped, htext, hend, hrest⟩ := ih hl
    refine ⟨_ :: skipped, tail, rest, List.forall_mem_cons.2 ⟨hw, hskipped⟩, ?_, hend, hrest⟩
    rw [List.cons_append, htext, List.cons_append]
  | last item =>
    cases hl
    exact ⟨[], after, [], List.forall_mem_nil _, rfl, .closing hafter, .nil⟩
  | @cons w item items ws hw h ih =>
    cases hl
    exact ⟨[], w :: ws ++ after, ws, List.forall_mem_nil _, by simp, .semicolon hw _, h⟩

/-- The words of one spelling of a file are read as this file. -/
theorem SpellsFile.yields {file : SourceFile} (h : SpellsFile ws ws' file) :
    ∃ eof, Yields Reader.file ws eof fun parsed ↦ parsed.file.unplaced = file ∧
    parsed.diagnostics = [] := by
  obtain @⟨x, package, imports, decls, is, is', ds, ds', ws, ws', eof, eof', himports, hdecls,
      hws, -, heof, -⟩ := h
  have hcloses : ∀ w ∈ eof.head?, closesItems w.1 = true := fun w hw ↦ by rw [heof w hw]; rfl
  have himport : ∀ w ∈ eof.head?, w.1 ≠ .importWord := fun w hw hk ↦ by simp [heof w hw] at hk
  have hdone (c : Cursor) (hc : c.words = eof) : c.isAt .eof = true := by
    cases eof with
    | nil =>
      obtain ⟨tokens, last⟩ := c
      obtain rfl : tokens = [] := List.map_eq_nil_iff.1 hc
      rfl
    | cons w rest => rw [Cursor.isAt_eq hc, heof w rfl]; rfl
  obtain ⟨skipped, tail, rest, hskipped, htext, hend, hrest⟩ := hws.exists_first hcloses
  obtain ⟨importss, hclauses, rfl⟩ := himports.exists_clauses
  obtain ⟨declss, hdecls', rfl⟩ := hdecls.exists_items fun _ _ _ ↦ SpellsDecls.exists_clauses
  obtain ⟨us, hus, -, himportsRead⟩ := yields_loop importLoop_unfolds heof
    (fun c hc ↦ by rw [Cursor.isAt_eq_false hc himport nofun]; rfl) hrest rfl hclauses
    (SpellsDecls.decides hdecls)
  obtain ⟨vs, hvs, hempty, hdeclsRead⟩ :=
    yields_loop declLoop_unfolds heof hdone hus (List.append_nil ds).symm hdecls'
    (List.forall_mem_nil _)
  obtain rfl := hempty rfl
  refine ⟨eof, ?_⟩
  rw [htext]
  refine (yields_skips hskipped (yields_packageClause hend)).attempt.bind fun r hr ↦ ?_
  obtain ⟨_, rfl, rfl⟩ := hr
  dsimp only
  rw [pure_bind]
  refine himportsRead.bind fun r hr ↦ ?_
  obtain ⟨imports, _⟩ := r
  obtain ⟨himports, rfl⟩ := hr
  refine hdeclsRead.bind fun r hr ↦ ?_
  obtain ⟨decls, _⟩ := r
  obtain ⟨hdecls, rfl⟩ := hr
  exact yields_pure ⟨by rw [SourceFile.unplaced, himports, hdecls], rfl⟩

end Files

end Understudy
