import Understudy.Proofs.FileSpans
import Understudy.Proofs.TypeFile
import Understudy.Proofs.WordReading

namespace Understudy

namespace Literal

theorem dropWhile_of_head? {text : List Char} (h : ∀ c ∈ text.head?, c ≠ '"') :
    text.dropWhile (· = '"') = text := by
  cases text with
  | nil => rfl
  | cons c rest => simp [h c rfl]

theorem unescape_plain_cons {c : Char} (h : c ≠ '\\') (rest : List Char) :
    unescape (c :: rest) = c :: unescape rest := by
  rw [unescape]
  · rintro rfl
    exact absurd rfl h
  · rintro _ _ rfl
    exact absurd rfl h

theorem unescape_plain {text : List Char} (h : ∀ c ∈ text, c ≠ '\\') : unescape text = text := by
  induction text with
  | nil => rfl
  | cons c rest ih =>
    rw [List.forall_mem_cons] at h
    rw [unescape_plain_cons h.1, ih h.2]

theorem string_quoted {path : String} (h : ∀ c ∈ path.toList, c ≠ '"' ∧ c ≠ '\\') :
    string (String.ofList (ImportRegistry.quoted path)) = path := by
  have hq : ∀ c ∈ path.toList.head?, c ≠ '"' := fun c hc ↦ (h c (List.mem_of_mem_head? hc)).1
  have hrev : ∀ c ∈ path.toList.reverse.head?, c ≠ '"' := fun c hc ↦
    (h c (List.mem_reverse.1 (List.mem_of_mem_head? hc))).1
  have hdrop : dropQuotes (ImportRegistry.quoted path) = path.toList := by
    have hfront : (ImportRegistry.quoted path).dropWhile (· = '"') = if path.toList =
        [] then [] else
        path.toList ++ ['"'] := by
      rw [ImportRegistry.quoted, List.dropWhile_cons, if_pos (by decide), List.dropWhile_append,
        dropWhile_of_head? hq]
      simp [List.isEmpty_iff]
    rw [dropQuotes, hfront]
    split
    · rename_i hnil
      rw [hnil]
      rfl
    · rw [List.reverse_append, List.reverse_singleton, List.singleton_append, List.dropWhile_cons,
        if_pos (by decide), dropWhile_of_head? hrev, List.reverse_reverse]
  have hback : inBackquotes? (ImportRegistry.quoted path) = none := rfl
  rw [string, String.toList_ofList, hback, hdrop, unescape_plain fun c hc ↦ (h c hc).2,
    String.ofList_toList]

end Literal

namespace Reader

section Clauses

variable {α : Type} {before middle after ws : List Word} {text text' package name : String}

theorem yields_packageClause (h : EndsItem ws after) :
    Yields packageClause ((.packageWord, text) :: (.ident, package) :: ws) after (· = package) :=
  yields_skipSemicolons_bind (by simp) <| yields_expect_bind fun _ _ ↦ yields_ident_bind fun _ ↦
    h.yields.bind fun _ _ ↦ yields_pure rfl

theorem yields_importSpec_literal (qualifier : Option String)
    (h : (Literal.string text).isEmpty = false) :
    Yields importSpec (qualifier.toList.map (TokenKind.ident, ·) ++ (.str, text) :: ws) ws
      fun i ↦ i.qualifier = qualifier ∧ i.path = Literal.string text := by
  refine yields_cursor_bind fun c hc ↦ ?_
  have hpath (qualifier : Option String) : Yields (do
      let literal ← expect .str "expected import path string"
      let path := Literal.string literal.text
      if path.isEmpty then rejectAt "import path is empty" literal.span
      else return (⟨qualifier, path, ← range c.start literal.span.stop⟩ : ImportSpec))
        ((.str, text) :: ws) ws
      fun i ↦ i.qualifier = qualifier ∧ i.path = Literal.string text := by
    refine yields_expect_bind fun t ht ↦ ?_
    obtain ⟨-, rfl⟩ := Prod.mk.inj ht
    exact yields_if_neg h (yields_range_bind fun s ↦ yields_pure ⟨rfl, rfl⟩)
  cases qualifier with
  | none =>
    refine yields_if_neg ?_ (yields_if_neg ?_ (hpath none))
    all_goals
      rw [Cursor.isAt_eq hc]
      rfl
  | some name =>
    refine yields_if_pos ?_ ?_
    · rw [Cursor.isAt_eq hc]
      rfl
    · rw [bind_map_left]
      exact yields_ident_bind fun s ↦ hpath (some name)

theorem yields_typeSpec {P : TypeExpr → Prop} (h : Yields type ws after P) :
    Yields typeSpec ((.ident, name) :: ws) after fun d ↦ ∃ e s, d = .type name e s ∧ P e :=
  yields_ident_bind fun _ ↦ h.bind fun e he ↦ yields_join_bind fun s ↦ yields_pure ⟨e, s, rfl, he⟩

variable {item : Reader α} {P : α → Prop} {itemEnd close clauseEnd : String}

theorem yields_singleItem (h : Yields item before after P) :
    Yields (singleItem item) before after fun c ↦ ∃ a, P a ∧ c = ⟨[a], none⟩ := by
  refine h.attempt.bind fun r hr ↦ ?_
  obtain ⟨a, rfl, ha⟩ := hr
  exact yields_pure ⟨a, ha, rfl⟩

theorem yields_clause (hne : ∀ w ∈ before.head?, w.1 ≠ .lparen) (h : Yields item before middle P)
    (hend : EndsItem middle after) :
    Yields (clause itemEnd close clauseEnd item) before after fun c ↦ ∃ a, P a ∧
    c = ⟨[a], none⟩ := by
  refine yields_eat_other hne ((yields_singleItem h).bind fun c hc ↦ ?_)
  obtain ⟨a, ha, rfl⟩ := hc
  refine hend.yields.attempt.bind fun r hr ↦ ?_
  obtain ⟨-, rfl, -⟩ := hr
  exact yields_pure ⟨a, ha, rfl⟩

variable {done : Cursor → Bool} {next : Reader (Clause α)} {n : Nat}

theorem yields_clauses_nil (hne : ∀ w ∈ ws.head?, w.1 ≠ .semicolon)
    (hdone : ∀ c : Cursor, c.words = ws → done c = true) :
    Yields (clauses done next (n + 1)) ws ws (· = ([], [])) :=
  yields_skipSemicolons_bind hne <| yields_cursor_bind fun c hc ↦ yields_if_pos (hdone c hc)
    (yields_pure rfl)

theorem yields_clauses_cons {Q : List α → Prop} (hne : ∀ w ∈ before.head?, w.1 ≠ .semicolon)
    (hdone : ∀ c : Cursor, c.words = before → done c = false)
    (h : Yields next before middle fun c ↦ ∃ a, P a ∧ c = ⟨[a], none⟩)
    (hlater : Yields (clauses done next n) middle after fun r ↦ ∃ as, Q as ∧ r = (as, [])) :
    Yields (clauses done next (n + 1)) before after fun r ↦ ∃ a as, P a ∧ Q as ∧
    r = (a :: as, []) := by
  refine yields_skipSemicolons_bind hne <| yields_cursor_bind fun c hc ↦
    yields_if_neg (hdone c hc) ?_
  refine h.bind fun c hc ↦ ?_
  obtain ⟨a, ha, rfl⟩ := hc
  refine hlater.bind fun r hr ↦ ?_
  obtain ⟨as, has, rfl⟩ := hr
  exact yields_pure ⟨a, as, ha, has, rfl⟩

theorem yields_typeClause {P : TypeExpr → Prop}
    (h : Yields type (ws ++ (.semicolon, text') :: after) ((.semicolon, text') :: after) P) :
    Yields declClause
      ((.typeWord, text) :: (.ident, name) :: (ws ++ (.semicolon, text') :: after)) after
      fun c ↦ ∃ d : Decl, (∃ e s, d = .type name e s ∧ P e) ∧ c = ⟨[d], none⟩ := by
  refine yields_cursor_bind fun c hc ↦ yields_if_pos ?_ ?_
  · simp [Cursor.isAt_eq hc]
  · exact yields_eat_bind (yields_clause (by simp) (yields_typeSpec h) (.semicolon rfl after))

def importLineWords (i : Option String × String) : List Word :=
  (.importWord,
    "import") :: (i.1.toList.map (TokenKind.ident, ·) ++ [(.str, i.2), (.semicolon, "")])

theorem yields_importLine {i : Option String × String} (h : (Literal.string i.2).isEmpty = false) :
    Yields importClause (importLineWords i ++ ws) ws fun c ↦ ∃ spec : ImportSpec,
      (spec.qualifier = i.1 ∧ spec.path = Literal.string i.2) ∧ c = ⟨[spec], none⟩ := by
  obtain ⟨qualifier, literal⟩ := i
  have hspec :
      Yields importSpec
        (qualifier.toList.map (TokenKind.ident, ·) ++ (.str, literal) :: (.semicolon, "") :: ws)
      ((.semicolon, "") :: ws) _ := yields_importSpec_literal qualifier h
  rw [importLineWords, List.cons_append, List.append_assoc]
  refine yields_eat_bind (yields_clause ?_ hspec (.semicolon rfl ws))
  cases qualifier <;> simp

theorem yields_importLines {is : List (Option String × String)}
    (h : ∀ i ∈ is, (Literal.string i.2).isEmpty = false) {w : Word} (hw : w.1 = .typeWord) {n : Nat}
    (hn : (is.flatMap importLineWords).length < n) :
    Yields (clauses (!·.isAt .importWord) importClause n)
      (is.flatMap importLineWords ++ w :: ws) (w :: ws) fun r ↦ ∃ specs : List ImportSpec,
        specs.map (fun s ↦ (s.qualifier, s.path)) = is.map (fun i ↦ (i.1, Literal.string i.2)) ∧
        r = (specs, []) := by
  induction is generalizing n with
  | nil =>
    obtain ⟨n, rfl⟩ : ∃ m, n = m + 1 := ⟨n - 1, by omega⟩
    refine (yields_clauses_nil (by simp [hw]) ?_).mono fun r hr ↦ ⟨[], rfl, hr⟩
    intro c hc
    rw [Cursor.isAt_eq hc, hw]
    rfl
  | cons i is ih =>
    obtain ⟨n, rfl⟩ : ∃ m, n = m + 1 := ⟨n - 1, by omega⟩
    rw [List.forall_mem_cons] at h
    rw [List.flatMap_cons, List.length_append, importLineWords, List.length_cons] at hn
    rw [List.flatMap_cons, List.append_assoc]
    have hlater := ih h.2 (n := n) (by omega)
    refine (yields_clauses_cons ?_ ?_ (yields_importLine h.1) hlater).mono ?_
    · simp [importLineWords]
    · intro c hc
      rw [importLineWords, List.cons_append] at hc
      rw [Cursor.isAt_eq hc]
      rfl
    · rintro r ⟨spec, specs, ⟨hqualifier, hpath⟩, hspecs, rfl⟩
      exact ⟨spec :: specs, by rw [List.map_cons, List.map_cons, hqualifier, hpath, hspecs], rfl⟩

end Clauses

theorem yields_file (package name : String) {is : List (Option String × String)}
    (h : ∀ i ∈ is, (Literal.string i.2).isEmpty = false) {ws : List Word} {P : TypeExpr → Prop}
    (htype : Yields type (ws ++ [(.semicolon, ""), (.eof, "")]) [(.semicolon, ""), (.eof, "")] P) :
    Yields file ((.packageWord, "package") :: (.ident, package) :: (.semicolon,
      "") :: (is.flatMap importLineWords ++
        (.typeWord, "type") :: (.ident, name) :: (ws ++ [(.semicolon, ""), (.eof, "")])))
          [(.eof, "")] fun parsed ↦
      ∃ specs e s, parsed = ⟨⟨package, specs, [.type name e s]⟩, []⟩ ∧
        specs.map (fun s ↦ (s.qualifier, s.path)) = is.map (fun i ↦ (i.1, Literal.string i.2)) ∧
        P e := by
  have hend (n : Nat) : Yields (clauses (·.isAt .eof) declClause (n + 1)) [(.eof, "")] [(.eof, "")]
      fun r ↦ ∃ as, as = [] ∧ r = (as, []) :=
    (yields_clauses_nil (by simp) fun c hc ↦ by simp [Cursor.isAt_eq hc]).mono
      fun r hr ↦ ⟨[], rfl, hr⟩
  refine (yields_packageClause (.semicolon rfl _)).attempt.bind fun r hr ↦ ?_
  obtain ⟨_, rfl, rfl⟩ := hr
  dsimp only
  rw [pure_bind]
  refine (yields_bounded (yields_importLines h rfl (by rw [List.length_append]; omega))).bind
    fun r hr ↦ ?_
  obtain ⟨specs, hspecs, rfl⟩ := hr
  refine (yields_bounded (yields_clauses_cons (by simp) ?_ (yields_typeClause htype) (hend _))).bind
    fun r hr ↦ ?_
  · intro c hc
    rw [Cursor.isAt_eq hc]
    rfl
  · obtain ⟨_, _, ⟨e, s, rfl, he⟩, rfl, rfl⟩ := hr
    exact yields_pure ⟨specs, e, s, rfl, hspecs, he⟩

/-- The imports that the entries of a registry are written down as. -/
def Imports (is : List Import) (specs : List ImportSpec) : Prop :=
  specs.map (fun s ↦ (s.qualifier, s.path)) = is.map fun i ↦ (some i.qualifier, i.path)

end Reader

section Source

/-- In a text no stretch is reversed, so what is read from its words is read from it. -/
theorem readSource_of_yields {source : String} {eof : List Word} {P : SourceFile → Prop}
    (hdiag : (lex source).diagnostics = [])
    (h : Reader.Yields Reader.file ((lex source).tokens.map Token.word) eof fun parsed ↦
      parsed.diagnostics = [] ∧ P parsed.file) :
    ∃ file, readSource source = ⟨some file, []⟩ ∧ P file := by
  obtain ⟨parsed, hparse, -⟩ := exists_parse (inOrder_lex _) (stop_le_lex source)
  obtain hfault | ⟨⟨file, diagnostics⟩, c, hdone, -, rfl, hfile⟩ :=
    h (.ofTokens (lex source).tokens) rfl
  · rw [parse, hfault] at hparse
    cases hparse
  · refine ⟨file, ?_, hfile⟩
    simp [readSource, hdiag, parse, hdone]

theorem readSource_of_words {source package name : String} {is : List (Option String × String)}
    {ws : List Word} {P : TypeExpr → Prop} (hdiag : (lex source).diagnostics = [])
    (hwords : (lex source).tokens.map Token.word =
      (.packageWord, "package") :: (.ident, package) :: (.semicolon,
        "") :: (is.flatMap Reader.importLineWords ++ (.typeWord, "type") :: (.ident,
          name) :: (ws ++ [(.semicolon, ""), (.eof, "")])))
    (his : ∀ i ∈ is, (Literal.string i.2).isEmpty = false)
    (htype : Reader.Yields Reader.type (ws ++ [(.semicolon, ""), (.eof, "")]) [(.semicolon, ""),
      (.eof, "")] P) :
    ∃ specs e s, readSource source = ⟨some ⟨package, specs, [.type name e s]⟩, []⟩ ∧
      specs.map (fun s ↦ (s.qualifier, s.path)) = is.map (fun i ↦ (i.1, Literal.string i.2)) ∧
      P e := by
  have hread := Reader.yields_file package name his htype
  rw [← hwords] at hread
  obtain ⟨_, hfile, specs, e, s, rfl, hspecs, he⟩ := readSource_of_yields hdiag
    (P := fun file ↦ ∃ specs e s, file = ⟨package, specs, [.type name e s]⟩ ∧
      specs.map (fun s ↦ (s.qualifier, s.path)) = is.map (fun i ↦ (i.1, Literal.string i.2)) ∧ P e)
    (hread.mono fun _ ⟨specs, e, s, hparsed, h⟩ ↦
      ⟨by rw [hparsed], specs, e, s, by rw [hparsed], h⟩)
  exact ⟨specs, e, s, hfile, hspecs, he⟩

variable {deps : ModuleSet} {r : ImportRegistry} {package name : String} {t : Ty}

theorem Import.IsWritable.string_quoted {i : Import} (h : i.IsWritable deps) :
    Literal.string (String.ofList (ImportRegistry.quoted i.path)) = i.path :=
  Literal.string_quoted fun c hc ↦ ⟨(h.plain c hc).1, (h.plain c hc).2.1⟩

theorem readSource_typeFile (hr : r.IsWritable deps) (hp : Token.isIdentifier package = true)
    (hn : Token.isIdentifier name = true) (ht : t.MadeOf (Ty.Spellable r.qualifier?)) :
    ∃ specs x s, readSource (r.typeFile package name t) =
      ⟨some ⟨package, specs, [.type name x s]⟩, []⟩ ∧
      Reader.Imports r.entries specs ∧ x.Writes r.qualifier? t.readBack := by
  have hpieces := ImportRegistry.pieces_typeFile hr hp hn ht
  have hdiag : (lex (r.typeFile package name t)).diagnostics = [] := by
    rw [lex, hpieces]
    exact ImportRegistry.diagnostics_typeFile ht package name
  have hwords := map_word_lex (r.typeFile package name t)
  rw [hpieces, ImportRegistry.words_typeFile ht] at hwords
  let line (i : Import) : Option String × String :=
    (some i.qualifier, String.ofList (ImportRegistry.quoted i.path))
  have hlines : r.entries.flatMap ImportRegistry.importWords =
      (r.entries.map line).flatMap Reader.importLineWords := by
    rw [List.flatMap_map]
    rfl
  have hpaths : ∀ i ∈ r.entries.map line, (Literal.string i.2).isEmpty = false := by
    rw [List.forall_mem_map]
    intro i hi
    rw [(hr.entry i hi).string_quoted]
    exact String.isEmpty_eq_false_iff.2 (hr.entry i hi).path_ne
  rw [hlines] at hwords
  have htype : Reader.Yields Reader.type (t.words r.qualifier? ++ [(.semicolon, ""), (.eof, "")])
      [(.semicolon, ""), (.eof, "")] _ :=
        Reader.yields_bounded (Reader.yields_words ht (by simp; omega) (by simp))
  obtain ⟨specs, x, s, hread, hspecs, hx⟩ := readSource_of_words hdiag hwords hpaths htype
  refine ⟨specs, x, s, hread, ?_, hx⟩
  rw [List.map_map] at hspecs
  refine hspecs.trans (List.map_congr_left fun i hi ↦ ?_)
  rw [Function.comp_apply, (hr.entry i hi).string_quoted]

end Source

end Understudy
