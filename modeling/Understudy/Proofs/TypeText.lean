import Understudy.Ty.Display
import Understudy.Proofs.Lexemes

namespace Understudy

def Piece.word? (p : Piece) : Option (TokenKind × String) :=
  match p.shape with
  | .token kind => some (kind, String.ofList p.text)
  | _ => none

theorem BasicKind.isIdentifier_name (kind : BasicKind) : Token.isIdentifier kind.name = true := by
  cases kind <;> decide +kernel

namespace Ty

/-- Types made of basic types and of certain names, with pointers, slices, arrays, maps and
channels. -/
inductive MadeOf (names : TypeName → Prop) : Ty → Prop
  | basic (kind : BasicKind) : MadeOf names (.basic kind)
  | named {name : TypeName} (h : names name) : MadeOf names (.named (some name))
  | pointer {elem : Ty} (h : MadeOf names elem) : MadeOf names (.pointer elem)
  | slice {elem : Ty} (h : MadeOf names elem) : MadeOf names (.slice elem)
  | array (length : UInt64) {elem : Ty} (h : MadeOf names elem) : MadeOf names (.array length elem)
  | map {key elem : Ty} (hk : MadeOf names key) (h : MadeOf names elem) :
      MadeOf names (.map key elem)
  | chan (dir : ChanDir) {elem : Ty} (h : MadeOf names elem) : MadeOf names (.chan dir elem)

theorem MadeOf.mono {names names' : TypeName → Prop} (hn : ∀ name, names name → names' name)
    {t : Ty} (h : t.MadeOf names) : t.MadeOf names' := by
  induction h with
  | basic kind => exact .basic kind
  | named h => exact .named (hn _ h)
  | pointer _ ih => exact .pointer ih
  | slice _ ih => exact .slice ih
  | array length _ ih => exact .array length ih
  | map _ _ ihk ih => exact .map ihk ih
  | chan dir _ ih => exact .chan dir ih

variable (q : TypeName → Option String)

def namePieces (name : TypeName) : List Piece :=
  match q name with
  | some qualifier =>
    [⟨.token .ident, qualifier.toList⟩, ⟨.token .dot, ['.']⟩, ⟨.token .ident, name.name.toList⟩]
  | none => [⟨.token .ident, name.name.toList⟩]

def arrowPiece : Piece := ⟨.token .arrow, ['<', '-']⟩

def chanPiece : Piece := ⟨.token .chanWord, "chan".toList⟩

def chanPieces : ChanDir → List Piece
  | .both => [chanPiece, ⟨.blank, [' ']⟩]
  | .send => [chanPiece, arrowPiece, ⟨.blank, [' ']⟩]
  | .recv => [arrowPiece, chanPiece, ⟨.blank, [' ']⟩]

def lengthPieces (length : UInt64) : List Piece :=
  [⟨.token .lbracket, ['[']⟩, ⟨.token .int, Nat.toDigits 10 length.toNat⟩,
    ⟨.token .rbracket, [']']⟩]

@[simp]
def pieces : Ty → List Piece
  | .basic kind => [⟨.token .ident, kind.name.toList⟩]
  | .named (some name) => namePieces q name
  | .pointer elem => ⟨.token .star, ['*']⟩ :: pieces elem
  | .slice elem => ⟨.token .lbracket, ['[']⟩ :: ⟨.token .rbracket, [']']⟩ :: pieces elem
  | .array length elem => lengthPieces length ++ pieces elem
  | .map key elem =>
    ⟨.token .mapWord, "map".toList⟩ :: ⟨.token .lbracket, ['[']⟩ ::
      (pieces key ++ ⟨.token .rbracket, [']']⟩ :: pieces elem)
  | .chan dir elem => chanPieces dir ++ pieces elem
  | _ => []

/-- A name that can be written down with its qualifier. -/
def Spellable (name : TypeName) : Prop :=
  Token.isIdentifier name.name = true ∧ ∀ qualifier ∈ q name, Token.isIdentifier qualifier = true

section Cutting

variable {q : TypeName → Option String}

open Piece

theorem pieces_namePieces {name : TypeName} (h : Spellable q name) {rest : List Char}
    (hr : Breaks rest) :
    Piece.pieces ((namePieces q name).flatMap (·.text) ++ rest) =
      namePieces q name ++ Piece.pieces rest := by
  cases hq : q name with
  | none =>
    simp only [namePieces, hq, List.flatMap_singleton]
    exact pieces_identifier h.1 hr
  | some qualifier =>
    obtain ⟨c, tail, hname, hc, -⟩ := Token.isWord_iff.1 (Token.isIdentifier_iff.1 h.1).1
    have hdot : c ≠ '.' := by
      rintro rfl
      exact absurd hc (by decide)
    have hlast := pieces_identifier h.1 hr
    have hmark := pieces_dot hdot (tail ++ rest)
    rw [← List.cons_append, ← hname, hlast] at hmark
    have hfirst := pieces_identifier (h.2 qualifier hq)
      (Breaks.cons (c := '.') (by decide) (name.name.toList ++ rest))
    rw [hmark] at hfirst
    simpa [namePieces, hq] using hfirst

theorem pieces_chanPiece {rest : List Char} (hr : Breaks rest) :
    Piece.pieces (chanPiece.text ++ rest) = chanPiece :: Piece.pieces rest :=
  pieces_word (by decide) hr

theorem pieces_chanPieces (dir : ChanDir) (rest : List Char) :
    Piece.pieces ((chanPieces dir).flatMap (·.text) ++ rest) =
      chanPieces dir ++ Piece.pieces rest := by
  cases dir with
  | both =>
    have h := pieces_chanPiece (Breaks.cons (c := ' ') (by decide) rest)
    rwa [pieces_space] at h
  | send =>
    have h := pieces_chanPiece (Breaks.cons (c := '<') (by decide) ('-' :: ' ' :: rest))
    rwa [pieces_arrow, pieces_space] at h
  | recv =>
    have h := pieces_chanPiece (Breaks.cons (c := ' ') (by decide) rest)
    have ha := pieces_arrow (chanPiece.text ++ ' ' :: rest)
    rwa [h, pieces_space] at ha

theorem pieces_lengthPieces (length : UInt64) (rest : List Char) :
    Piece.pieces ((lengthPieces length).flatMap (·.text) ++ rest) =
      lengthPieces length ++ Piece.pieces rest := by
  have hd : ∀ c ∈ Nat.toDigits 10 length.toNat, c.isDigit = true := fun c hc ↦
    Nat.isDigit_of_mem_toDigits (by decide) (by decide) hc
  have h := pieces_number Nat.toDigits_ne_nil hd (Breaks.cons (c := ']') (by decide) rest)
  rw [pieces_rbracket] at h
  have hl := pieces_lbracket (Nat.toDigits 10 length.toNat ++ ']' :: rest)
  rw [h] at hl
  simpa [lengthPieces] using hl

theorem pieces_text {t : Ty} (ht : t.MadeOf (Spellable q)) {rest : List Char} (hr : Breaks rest) :
    Piece.pieces ((t.pieces q).flatMap (·.text) ++ rest) = t.pieces q ++ Piece.pieces rest := by
  induction ht generalizing rest with
  | basic kind =>
    simp only [pieces, List.flatMap_singleton]
    exact pieces_identifier kind.isIdentifier_name hr
  | named h => exact pieces_namePieces h hr
  | @pointer elem h ih =>
    have hp := pieces_star ((elem.pieces q).flatMap (·.text) ++ rest)
    rwa [ih hr] at hp
  | @slice elem h ih =>
    have hp := pieces_rbracket ((elem.pieces q).flatMap (·.text) ++ rest)
    have hl := pieces_lbracket (']' :: ((elem.pieces q).flatMap (·.text) ++ rest))
    rwa [hp, ih hr] at hl
  | @array length elem h ih =>
    rw [pieces, List.flatMap_append, List.append_assoc, pieces_lengthPieces, ih hr,
      List.append_assoc]
  | @map key elem hk h ihk ih =>
    have hb := pieces_rbracket ((elem.pieces q).flatMap (·.text) ++ rest)
    have hkey := ihk (Breaks.cons (c := ']') (by decide) ((elem.pieces q).flatMap (·.text) ++ rest))
    have hl := pieces_lbracket
      ((key.pieces q).flatMap (·.text) ++ ']' :: ((elem.pieces q).flatMap (·.text) ++ rest))
    have hw := pieces_word (show Token.isWord "map" = true by decide)
      (Breaks.cons (c := '[') (by decide)
      ((key.pieces q).flatMap (·.text) ++ ']' :: ((elem.pieces q).flatMap (·.text) ++ rest)))
    rw [hl, hkey, hb, ih hr, show TokenKind.ofWord "map" = .mapWord by decide] at hw
    simpa using hw
  | @chan dir elem h ih =>
    rw [pieces, List.flatMap_append, List.append_assoc, pieces_chanPieces, ih hr, List.append_assoc]

def words (q : TypeName → Option String) (t : Ty) : List (TokenKind × String) :=
  (t.pieces q).filterMap Piece.word?

section Forms

variable (q : TypeName → Option String)

theorem words_basic (kind : BasicKind) : words q (.basic kind) = [(.ident, kind.name)] := by
  simp [words, Piece.word?]

theorem words_bare {name : TypeName} (h : q name = none) :
    words q (.named (some name)) = [(.ident, name.name)] := by
  simp [words, namePieces, h, Piece.word?]

theorem words_qualified {name : TypeName} {qualifier : String} (h : q name = some qualifier) :
    words q (.named (some name)) = [(.ident, qualifier), (.dot, "."), (.ident, name.name)] := by
  simp [words, namePieces, h, Piece.word?]

theorem words_pointer (elem : Ty) : words q (.pointer elem) = (.star, "*") :: words q elem := rfl

theorem words_slice (elem : Ty) :
    words q (.slice elem) = (.lbracket, "[") :: (.rbracket, "]") :: words q elem := rfl

theorem words_array (length : UInt64) (elem : Ty) : words q (.array length elem) =
    (.lbracket, "[") :: (.int, String.ofList (Nat.toDigits 10 length.toNat)) :: (.rbracket, "]") ::
      words q elem := rfl

theorem words_map (key elem : Ty) : words q (.map key elem) =
    (.mapWord, "map") :: (.lbracket, "[") :: (words q key ++ (.rbracket, "]") :: words q elem) := by
  simp [words, Piece.word?]

theorem words_both (elem : Ty) : words q (.chan .both elem) = (.chanWord, "chan") :: words q elem :=
  rfl

theorem words_send (elem : Ty) :
    words q (.chan .send elem) = (.chanWord, "chan") :: (.arrow, "<-") :: words q elem := rfl

theorem words_recv (elem : Ty) :
    words q (.chan .recv elem) = (.arrow, "<-") :: (.chanWord, "chan") :: words q elem := rfl

end Forms

theorem words_pieces {t : Ty} (ht : t.MadeOf (Spellable q)) (last : Option TokenKind)
    (rest : List Piece) :
    Piece.words last (t.pieces q ++ rest) = t.words q ++ Piece.words (some .ident) rest := by
  induction ht generalizing last rest with
  | basic kind => rfl
  | @named name h =>
    rw [words, pieces, namePieces]
    cases q name <;> rfl
  | pointer _ ih | slice _ ih => simp [words, Piece.word?, ih]
  | array length _ ih => simp [lengthPieces, words, Piece.word?, ih]
  | map _ _ ihk ih => simp [words, Piece.word?, ihk, ih]
  | chan dir _ ih =>
    cases dir <;>
      simp [chanPieces, chanPiece, arrowPiece, words, Piece.word?, List.filterMap_cons, ih]

theorem problems_pieces {t : Ty} (ht : t.MadeOf (Spellable q)) :
    ∀ p ∈ t.pieces q, ∀ pos, p.problems pos = [] := by
  induction ht with
  | basic kind => simp [problems]
  | @named name h => cases hq : q name <;> simp [namePieces, hq, problems]
  | pointer _ ih | slice _ ih => simpa [problems] using ih
  | array length _ ih => simpa [lengthPieces, problems] using ih
  | map _ _ ihk ih =>
    simp only [pieces, List.mem_cons, List.mem_append]
    rintro p (rfl | rfl | hp | rfl | hp) pos
    · rfl
    · rfl
    · exact ihk p hp pos
    · rfl
    · exact ih p hp pos
  | chan dir _ ih =>
    cases dir <;> simpa [chanPieces, chanPiece, arrowPiece, problems] using ih

end Cutting

end Ty

end Understudy
