import Understudy.Syntax.File
import Understudy.Proofs.Registration
import Understudy.Proofs.TypeReading

namespace Understudy

namespace ImportRegistry

def importLines : List Import → String
  | [] => ""
  | i :: rest => "import " ++ i.qualifier ++ " \"" ++ i.path ++ "\"\n" ++ importLines rest

/-- The file of a package that imports each registered path under its qualifier and declares `name`
as `t`. -/
def typeFile (r : ImportRegistry) (package name : String) (t : Ty) : String :=
  "package " ++ package ++ "\n" ++ importLines r.entries ++ "type " ++ name ++ " " ++
    r.render t ++ "\n"

section Cutting

open Piece

def spacePiece : Piece := ⟨.blank, [' ']⟩

def newlinePiece : Piece := ⟨.newline, ['\n']⟩

def quoted (path : String) : List Char := '"' :: (path.toList ++ ['"'])

def packagePieces (package : String) : List Piece :=
  [⟨.token .packageWord, "package".toList⟩, spacePiece,
    ⟨.token .ident, package.toList⟩, newlinePiece]

def importPieces (i : Import) : List Piece :=
  [⟨.token .importWord, "import".toList⟩, spacePiece,
    ⟨.token .ident, i.qualifier.toList⟩, spacePiece, ⟨.token .str, quoted i.path⟩, newlinePiece]

def typePieces (r : ImportRegistry) (name : String) (t : Ty) : List Piece :=
  ⟨.token .typeWord, "type".toList⟩ :: spacePiece :: ⟨.token .ident, name.toList⟩ :: spacePiece ::
    (t.pieces r.qualifier? ++ [newlinePiece])

theorem pieces_spaced {word : String} (h : Token.isWord word = true) (rest : List Char) :
    pieces (word.toList ++ ' ' :: rest) =
      ⟨.token (TokenKind.ofWord word), word.toList⟩ :: spacePiece :: pieces rest := by
  rw [pieces_word h (Breaks.cons (by decide) rest), pieces_space]
  rfl

theorem pieces_package {package : String} (h : Token.isIdentifier package = true)
    (rest : List Char) : pieces ("package".toList ++ ' ' :: (package.toList ++ '\n' :: rest)) =
      packagePieces package ++ pieces rest := by
  rw [pieces_spaced (by decide), pieces_identifier h (Breaks.cons (by decide) _), pieces_newline]
  rfl

theorem pieces_import {deps : ModuleSet} {i : Import} (h : i.IsWritable deps) (rest : List Char) :
    pieces ("import".toList ++
      ' ' :: (i.qualifier.toList ++ ' ' :: (quoted i.path ++ '\n' :: rest))) =
      importPieces i ++ pieces rest := by
  have hpath : pieces ('"' :: (i.path.toList ++ '"' :: '\n' :: rest)) =
      ⟨.token .str, quoted i.path⟩ :: pieces ('\n' :: rest) := pieces_quoted h.plain
  rw [pieces_newline] at hpath
  rw [pieces_spaced (by decide), pieces_identifier h.isIdentifier (Breaks.cons (by decide) _),
    pieces_space, quoted, List.cons_append, List.append_assoc, List.singleton_append, hpath]
  rfl

theorem pieces_type {name : String} (h : Token.isIdentifier name = true) {r : ImportRegistry}
    {t : Ty} (ht : t.MadeOf (Ty.Spellable r.qualifier?)) (rest : List Char) :
    pieces ("type".toList ++ ' ' :: (name.toList ++ ' ' :: ((r.render t).toList ++ '\n' :: rest))) =
      r.typePieces name t ++ pieces rest := by
  rw [pieces_spaced (by decide), pieces_identifier h (Breaks.cons (by decide) _), pieces_space,
    toList_render ht, Ty.pieces_text ht (Breaks.cons (by decide) _), pieces_newline]
  simp [typePieces, spacePiece, newlinePiece]
  rfl

theorem pieces_importLines {deps : ModuleSet} {is : List Import} (h : ∀ i ∈ is, i.IsWritable deps)
    (rest : List Char) :
    pieces ((importLines is).toList ++ rest) = is.flatMap importPieces ++ pieces rest := by
  induction is with
  | nil => rfl
  | cons i is ih =>
    have hline := pieces_import (h i (List.mem_cons_self ..)) ((importLines is).toList ++ rest)
    rw [ih fun j hj ↦ h j (List.mem_cons_of_mem _ hj)] at hline
    simpa [importLines, quoted] using hline

theorem pieces_typeFile {deps : ModuleSet} {r : ImportRegistry} (hr : r.IsWritable deps)
    {package name : String}
    (hp : Token.isIdentifier package = true) (hn : Token.isIdentifier name = true) {t : Ty}
    (ht : t.MadeOf (Ty.Spellable r.qualifier?)) : pieces (r.typeFile package name t).toList =
      packagePieces package ++ (r.entries.flatMap importPieces ++ r.typePieces name t) := by
  have htype := pieces_type hn ht []
  have himports := pieces_importLines hr.entry
    ("type".toList ++ ' ' :: (name.toList ++ ' ' :: ((r.render t).toList ++ ['\n'])))
  have hpackage := pieces_package hp ((importLines r.entries).toList ++
    ("type".toList ++ ' ' :: (name.toList ++ ' ' :: ((r.render t).toList ++ ['\n']))))
  rw [himports, htype] at hpackage
  unfold typeFile
  simpa [pieces] using hpackage

end Cutting

section Words

def importWords (i : Import) : List (TokenKind × String) :=
  [(.importWord, "import"), (.ident, i.qualifier), (.str, String.ofList (quoted i.path)),
    (.semicolon, "")]

theorem words_imports (is : List Import) (rest : List Piece) :
    Piece.words (some .semicolon) (is.flatMap importPieces ++ rest) =
      is.flatMap importWords ++ Piece.words (some .semicolon) rest := by
  induction is with
  | nil => rfl
  | cons i is ih =>
    simp only [List.flatMap_cons, importPieces, spacePiece, newlinePiece, importWords,
      List.cons_append, List.nil_append, Piece.words_token, Piece.words_blank, String.ofList_toList]
    rw [Piece.words_newline rfl, ih]

theorem words_type {r : ImportRegistry} {t : Ty} (ht : t.MadeOf (Ty.Spellable r.qualifier?))
    (name : String) : Piece.words (some .semicolon) (r.typePieces name t) =
      (.typeWord, "type") :: (.ident,
        name) :: (t.words r.qualifier? ++ [(.semicolon, ""), (.eof, "")]) := by
  simp [typePieces, spacePiece, newlinePiece, Ty.words_pieces ht, Piece.words, Piece.endsLine,
    TokenKind.completesLine]

theorem words_typeFile {r : ImportRegistry} {t : Ty} (ht : t.MadeOf (Ty.Spellable r.qualifier?))
    (package name : String) :
    Piece.words none
      (packagePieces package ++ (r.entries.flatMap importPieces ++ r.typePieces name t)) =
      (.packageWord, "package") :: (.ident, package) :: (.semicolon,
        "") :: (r.entries.flatMap importWords ++
        (.typeWord, "type") :: (.ident,
          name) :: (t.words r.qualifier? ++ [(.semicolon, ""), (.eof, "")])) := by
  rw [← words_type ht, ← words_imports]
  simp only [packagePieces, spacePiece, newlinePiece, List.cons_append, List.nil_append,
    Piece.words_token, Piece.words_blank, String.ofList_toList]
  rw [Piece.words_newline rfl]

theorem diagnostics_typeFile {r : ImportRegistry} {t : Ty}
    (ht : t.MadeOf (Ty.Spellable r.qualifier?)) (package name : String) : Piece.diagnostics 0
      (packagePieces package ++ (r.entries.flatMap importPieces ++ r.typePieces name t)) = [] := by
  apply Piece.diagnostics_eq_nil
  intro p hp
  simp only [List.mem_append, List.mem_flatMap] at hp
  rcases hp with hp | ⟨i, -, hp⟩ | hp
  · simp only [packagePieces, List.mem_cons, List.not_mem_nil, or_false] at hp
    rcases hp with rfl | rfl | rfl | rfl <;> exact fun _ ↦ rfl
  · simp only [importPieces, List.mem_cons, List.not_mem_nil, or_false] at hp
    rcases hp with rfl | rfl | rfl | rfl | rfl | rfl <;> exact fun _ ↦ rfl
  · simp only [typePieces, List.mem_cons, List.mem_append, List.not_mem_nil, or_false] at hp
    rcases hp with rfl | rfl | rfl | rfl | hp | rfl
    · exact fun _ ↦ rfl
    · exact fun _ ↦ rfl
    · exact fun _ ↦ rfl
    · exact fun _ ↦ rfl
    · exact Ty.problems_pieces ht p hp
    · exact fun _ ↦ rfl

end Words

end ImportRegistry

end Understudy
