import Understudy.Proofs.DisplayedTypes
import Understudy.Proofs.FileReading

namespace Understudy

open Piece Reader

def joinLines : List String → String
  | [] => ""
  | line :: rest => line ++ "\n" ++ joinLines rest

def importLine (path : String) : String := "import " ++ String.ofList (ImportRegistry.quoted path)

def displayLines (modules : List String) (package name : String) (t : Ty) : List String :=
  ("package " ++ package) :: modules.map importLine ++ ["type " ++ name ++ " " ++ t.display]

/-- A file of `package` that imports modules by their paths and declares `name` as the text of
`t`. -/
def displayFile (modules : List String) (package name : String) (t : Ty) : String :=
  joinLines (displayLines modules package name t)

section Lines

def HasLine (line : String) (ws : List Word) : Prop := Cuts line ws ∧ Completes ws

def endLines (wss : List (List Word)) : List Word := wss.flatMap (· ++ [(.semicolon, "")])

theorem endLines_cons (ws : List Word) (wss : List (List Word)) :
    endLines (ws :: wss) = ws ++ (.semicolon, "") :: endLines wss := by simp [endLines]

variable {line : String} {lines : List String} {ws : List Word} {wss : List (List Word)}

theorem pieces_line (h : Cuts line ws) (rest : String) :
    ∃ ps, (∀ p ∈ ps, p.IsPlain) ∧ ps.filterMap Piece.word? = ws ∧
      pieces (line ++ "\n" ++ rest).toList = ps ++ ⟨.newline, ['\n']⟩ :: pieces rest.toList := by
  obtain ⟨ps, hps, hws, hcut⟩ := h ('\n' :: rest.toList) (Breaks.cons (by decide) rest.toList)
  refine ⟨ps, hps, hws, ?_⟩
  rw [pieces_newline] at hcut
  rw [String.toList_append, String.toList_append, List.append_assoc]
  exact hcut

theorem words_joinLines (h : List.Forall₂ HasLine lines wss) {last : Option TokenKind}
    (hlast : last.any TokenKind.completesLine = false) :
    Piece.words last (pieces (joinLines lines).toList) = endLines wss ++ [(.eof, "")] := by
  induction h generalizing last with
  | nil =>
    rw [joinLines, String.toList_empty, pieces, Piece.words, hlast]
    rfl
  | @cons line ws lines wss hline h ih =>
    obtain ⟨ps, hps, hws, hcut⟩ := pieces_line hline.1 (joinLines lines)
    obtain ⟨init, w, rfl, hw⟩ := hline.2
    have hlater : Piece.words (some .semicolon) (pieces (joinLines lines).toList) = _ := ih rfl
    rw [joinLines, hcut, words_plain hps, hws]
    simp [words_newline hw, hlater, endLines_cons]

theorem problems_joinLines (h : List.Forall₂ HasLine lines wss) :
    ∀ p ∈ pieces (joinLines lines).toList, ∀ pos, p.problems pos = [] := by
  induction h with
  | nil => simp [joinLines, pieces]
  | @cons line ws lines wss hline h ih =>
    obtain ⟨ps, hps, -, hcut⟩ := pieces_line hline.1 (joinLines lines)
    intro p hp pos
    rw [joinLines, hcut] at hp
    obtain hp | hp := List.mem_append.1 hp
    · exact (hps p hp).problems pos
    · obtain rfl | hp := List.mem_cons.1 hp
      · rfl
      · exact ih p hp pos

theorem lex_joinLines (h : List.Forall₂ HasLine lines wss) :
    (lex (joinLines lines)).diagnostics = [] ∧
      (lex (joinLines lines)).tokens.map Token.word = endLines wss ++ [(.eof, "")] :=
  ⟨diagnostics_eq_nil (problems_joinLines h) 0, (map_word_lex _).trans (words_joinLines h rfl)⟩

end Lines

section Paths

variable {path : String} (h : Token.isIdentifier path = true)

include h

theorem Token.plain_of_isIdentifier : ∀ c ∈ path.toList, c ≠ '"' ∧ c ≠ '\\' ∧ c ≠ '\n' := by
  intro c hc
  have hword := inWord_of_isIdentifier h c hc
  refine ⟨?_, ?_, ?_⟩ <;>
  · rintro rfl
    exact absurd hword (by decide)

theorem string_quoted_of_isIdentifier :
    Literal.string (String.ofList (ImportRegistry.quoted path)) = path := by
  have hplain := Token.plain_of_isIdentifier h
  exact Literal.string_quoted fun c hc ↦ ⟨(hplain c hc).1, (hplain c hc).2.1⟩

theorem isEmpty_of_isIdentifier : path.isEmpty = false := by
  rw [String.isEmpty_eq_false_iff]
  rintro rfl
  exact absurd h (by decide)

end Paths

section Clauses

theorem sealed_wordSpace (word : String) (h : Token.isWord word = true) :
    Sealed (word ++ " ") [(TokenKind.ofWord word, word)] := by
  simpa using (cuts_word word h).append_sealed sealed_space ⟨' ', [], rfl, rfl⟩

theorem hasLine_package {package : String} (h : Token.isIdentifier package = true) :
    HasLine ("package " ++ package) [(.packageWord, "package"), (.ident, package)] :=
  ⟨(sealed_wordSpace "package" (by decide)).append_cuts (cuts_identifier h), [_], _, rfl, rfl⟩

theorem sealed_quoted {path : String} (h : Token.isIdentifier path = true) :
    Sealed (String.ofList (ImportRegistry.quoted path))
      [(.str, String.ofList (ImportRegistry.quoted path))] := by
  intro rest
  apply cutsBefore_token
  simpa [ImportRegistry.quoted] using pieces_quoted (Token.plain_of_isIdentifier h)

def importWords (path : String) : List Word :=
  [(.importWord, "import"), (.str, String.ofList (ImportRegistry.quoted path))]

theorem hasLine_import {path : String} (h : Token.isIdentifier path = true) :
    HasLine (importLine path) (importWords path) :=
  ⟨(sealed_wordSpace "import" (by decide)).append_cuts (sealed_quoted h).cuts, [_], _, rfl, rfl⟩

theorem hasLine_type {ctx : NameContext} {name : String} (hname : Token.isIdentifier name = true)
    {t : Ty} {ws : List Word} (h : HasWords ctx t ws) :
    HasLine ("type " ++ name ++ " " ++ t.display)
      ((.typeWord, "type") :: (.ident, name) :: ws) := by
  have hfront := (sealed_wordSpace "type" (by decide)).append_cuts (cuts_identifier hname)
  have hmark := hfront.append_sealed sealed_space ⟨' ', [], rfl, rfl⟩
  exact ⟨hmark.append_cuts h.cuts, h.completes.append_left [(.typeWord, "type"), (.ident, name)]⟩

end Clauses

namespace Reader

/-- Imports of these paths, each by the name of its module. -/
def ImportsOf (modules : List String) (specs : List ImportSpec) : Prop :=
  List.Forall₂ (fun path i ↦ i.qualifier = none ∧ i.path = path) modules specs

def pathLine (path : String) : Option String × String :=
  (none, String.ofList (ImportRegistry.quoted path))

theorem importsOf_of_lines {modules : List String} (h : ∀ m ∈ modules, Token.isIdentifier m = true)
    {specs : List ImportSpec} (hspecs : specs.map (fun s ↦ (s.qualifier, s.path)) =
      (modules.map pathLine).map fun i ↦ (i.1, Literal.string i.2)) : ImportsOf modules specs := by
  have hpaths : (modules.map pathLine).map (fun i ↦ (i.1, Literal.string i.2)) =
      modules.map fun m ↦ (none, m) := by
    rw [List.map_map]
    refine List.map_congr_left fun m hm ↦ ?_
    rw [Function.comp_apply, pathLine, string_quoted_of_isIdentifier (h m hm)]
  rw [hpaths, eq_comm, ← List.forall₂_eq_eq_eq, List.forall₂_map_left_iff,
    List.forall₂_map_right_iff] at hspecs
  refine hspecs.imp fun m s hs ↦ ?_
  obtain ⟨hqualifier, hpath⟩ := Prod.mk.inj hs
  exact ⟨hqualifier.symm, hpath.symm⟩

def fileWords (modules : List String) (package name : String) (ws : List Word) : List (List Word) :=
  [(.packageWord, "package"), (.ident, package)] :: modules.map importWords ++
    [(.typeWord, "type") :: (.ident, name) :: ws]

theorem endLines_fileWords (modules : List String) (package name : String) (ws : List Word) :
    endLines (fileWords modules package name ws) ++ [(.eof, "")] =
      (.packageWord, "package") :: (.ident, package) :: (.semicolon, "") ::
        ((modules.map pathLine).flatMap importLineWords ++
          (.typeWord, "type") :: (.ident, name) :: (ws ++ [(.semicolon, ""), (.eof, "")])) := by
  simp [fileWords, endLines, importWords, pathLine, importLineWords, List.flatMap_map]

end Reader

section Source

variable {ctx : NameContext} {modules : List String} {package name : String} {t : Ty}
    {ws : List Word}

theorem hasLines_displayLines (hmodules : ∀ m ∈ modules, Token.isIdentifier m = true)
    (hp : Token.isIdentifier package = true) (hn : Token.isIdentifier name = true)
    (h : HasWords ctx t ws) :
    List.Forall₂ HasLine (displayLines modules package name t)
      (fileWords modules package name ws) := by
  refine List.rel_append (.cons (hasLine_package hp) ?_) (.cons (hasLine_type hn h) .nil)
  rw [List.forall₂_map_left_iff, List.forall₂_map_right_iff, List.forall₂_same]
  exact fun m hm ↦ hasLine_import (hmodules m hm)

theorem readSource_displayFile (hmodules : ∀ m ∈ modules, Token.isIdentifier m = true)
    (hp : Token.isIdentifier package = true) (hn : Token.isIdentifier name = true)
    (h : HasWords ctx t ws) :
    ∃ specs e s, readSource (displayFile modules package name t) =
      ⟨some ⟨package, specs, [.type name e s]⟩, []⟩ ∧
      ImportsOf modules specs ∧ ctx.typeOf e = .ok t := by
  obtain ⟨hdiag, hwords⟩ : (lex (displayFile modules package name t)).diagnostics = [] ∧ _ :=
    lex_joinLines (hasLines_displayLines hmodules hp hn h)
  rw [endLines_fileWords] at hwords
  have hpaths : ∀ i ∈ modules.map pathLine, (Literal.string i.2).isEmpty = false := by
    rw [List.forall_mem_map]
    intro m hm
    rw [pathLine, string_quoted_of_isIdentifier (hmodules m hm)]
    exact isEmpty_of_isIdentifier (hmodules m hm)
  have htype :
      Yields type (ws ++ [(.semicolon, ""), (.eof, "")]) [(.semicolon, ""), (.eof, "")] _ :=
    yields_bounded (h.reads _ _ (by simp; omega) (ends_cons rfl _))
  obtain ⟨specs, e, s, hread, hspecs, he⟩ := readSource_of_words hdiag hwords hpaths htype
  exact ⟨specs, e, s, hread, importsOf_of_lines hmodules hspecs, he⟩

end Source

end Understudy
