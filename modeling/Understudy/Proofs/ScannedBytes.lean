import Understudy.Proofs.CharacterBytes
import Understudy.Proofs.PieceEnds
import Understudy.Token.Scanner

namespace Understudy

open Piece (byteCount byteCount_append utf8Size_eq_one_iff_toNat)

namespace Scanner

section Classes

variable {c : Char}

theorem IsWide.isBlank (h : IsWide c) : Piece.isBlank c = false := by
  simp [Piece.isBlank, h.ne (show ' '.toNat < 128 by decide),
    h.ne (show '\t'.toNat < 128 by decide),
    h.ne (show '\r'.toNat < 128 by decide), h.ne (show '\x0c'.toNat < 128 by decide)]

theorem IsWide.isDigit (h : IsWide c) : c.isDigit = false := by
  rw [← Bool.not_eq_true, Char.isDigit_iff_toNat]
  change ¬(48 ≤ c.toNat ∧ c.toNat ≤ 57)
  rw [IsWide] at h
  omega

theorem IsWide.isAlpha (h : IsWide c) : c.isAlpha = false := by
  rw [← Bool.not_eq_true, Piece.isAlpha_iff_toNat]
  rw [IsWide] at h
  omega

theorem IsWide.startsWord (h : IsWide c) : Piece.startsWord c = false := by
  simp [Piece.startsWord, h.isAlpha, h.ne (show '_'.toNat < 128 by decide)]

theorem IsWide.inWord (h : IsWide c) : Piece.inWord c = false := by
  simp [Piece.inWord, Char.isAlphanum, h.isAlpha, h.isDigit, h.ne (show '_'.toNat < 128 by decide)]

theorem IsWide.inNumber (h : IsWide c) : Piece.inNumber c = false := by
  simp [Piece.inNumber, h.isDigit, h.ne (show '_'.toNat < 128 by decide)]

end Classes

section Places

variable {source : String} {bytes : Array UInt8} {i n : Nat} {c e : Char} {text rest : List Char}
  {P Q : Char → Prop}

theorem charAt?_eq_some_iff :
    charAt? bytes i = some e ↔ ∃ h : i < bytes.size, Char.ofUInt8 bytes[i] = e := by
  rw [charAt?, Option.map_eq_some_iff]
  constructor
  · rintro ⟨b, hb, rfl⟩
    obtain ⟨h, rfl⟩ := Array.getElem?_eq_some_iff.1 hb
    exact ⟨h, rfl⟩
  · rintro ⟨h, rfl⟩
    exact ⟨_, Array.getElem?_eq_getElem h, rfl⟩

def AllAt (bytes : Array UInt8) (P : Char → Prop) (i n : Nat) : Prop :=
  ∀ k < n, ∃ e, charAt? bytes (i + k) = some e ∧ P e

theorem AllAt.imp (h : AllAt bytes P i n) (himp : ∀ e, P e → Q e) : AllAt bytes Q i n := fun k hk ↦
  (h k hk).imp fun e he ↦ he.imp_right (himp e)

theorem AllAt.head (h : AllAt bytes P i (n + 1)) : ∃ e, charAt? bytes i = some e ∧ P e :=
  h 0 n.succ_pos

theorem AllAt.tail (h : AllAt bytes P i (n + 1)) : AllAt bytes P (i + 1) n := by
  intro k hk
  rw [Nat.add_assoc, Nat.add_comm 1]
  exact h (k + 1) (Nat.succ_lt_succ hk)

theorem RestAt.code {k : Nat} (h : RestAt source i (c :: rest))
    (hk : k < (String.utf8EncodeChar c).length) :
    charAt? source.toUTF8.data (i + k) = some (Char.ofUInt8 (String.utf8EncodeChar c)[k]) := by
  have hbytes := h.drop_bytes
  rw [List.flatMap_cons] at hbytes
  rw [charAt?, ← Array.getElem?_toList, ← List.getElem?_drop, hbytes, List.getElem?_append_left hk,
    List.getElem?_eq_getElem hk, Option.map_some]

theorem RestAt.alike (h : RestAt source i (c :: rest)) :
    AllAt source.toUTF8.data (Alike c) i c.utf8Size := by
  intro k hk
  rw [← String.length_utf8EncodeChar] at hk
  exact ⟨_, h.code hk, alike_of_mem (List.getElem_mem hk)⟩

theorem RestAt.head (h : RestAt source i (c :: rest)) :
    ∃ e, charAt? source.toUTF8.data i = some e ∧ Alike c e := h.alike 0 c.utf8Size_pos

theorem RestAt.inside (h : RestAt source i (c :: rest)) :
    AllAt source.toUTF8.data IsWide (i + 1) (c.utf8Size - 1) := by
  intro k hk
  rw [Nat.add_assoc, Nat.add_comm 1]
  obtain ⟨e, he, rfl | ⟨-, hwide⟩⟩ := h.alike (k + 1) (by omega)
  · refine ⟨c, he, Nat.le_of_not_lt fun hc ↦ ?_⟩
    have hone := utf8Size_eq_one_iff_toNat.2 hc
    omega
  · exact ⟨e, he, hwide⟩

theorem RestAt.charAt?_eq_iff (h : RestAt source i rest) (he : e.toNat < 128) :
    charAt? source.toUTF8.data i = some e ↔ rest.head? = some e := by
  cases rest with
  | nil =>
    have hsize := h.size_eq
    rw [charAt?_eq_some_iff]
    refine iff_of_false ?_ (by simp)
    rintro ⟨hlt, -⟩
    rw [hsize] at hlt
    exact absurd hlt (Nat.lt_irrefl _)
  | cons c rest =>
    obtain ⟨d, hd, halike⟩ := h.head
    rw [hd, List.head?_cons, Option.some_inj, Option.some_inj]
    exact halike.eq_iff he

end Places

section Ends

variable {source : String} {bytes : Array UInt8} {i n : Nat} {c e quote : Char} {rest : List Char}
  {p : Char → Bool}

theorem skipWhile_of_charAt? (h : charAt? bytes i = some e) :
    skipWhile bytes p i = if p e then skipWhile bytes p (i + 1) else i := by
  obtain ⟨hi, rfl⟩ := charAt?_eq_some_iff.1 h
  rw [skipWhile, dif_pos hi]

theorem skipWhile_run (h : AllAt bytes (p · = true) i n) :
    skipWhile bytes p i = skipWhile bytes p (i + n) := by
  induction n generalizing i with
  | zero => rfl
  | succ n ih =>
    obtain ⟨e, he, hp⟩ := h.head
    rw [skipWhile_of_charAt? he, if_pos hp, ih h.tail, Nat.add_assoc, Nat.add_comm 1]

/-- A class that all longer characters belong to, or none of them, ends in front of a character. -/
theorem skipWhile_eq {wide : Bool} (hp : ∀ c, IsWide c → p c = wide) (h : RestAt source i rest) :
    skipWhile source.toUTF8.data p i = i + byteCount (rest.takeWhile p) := by
  induction rest generalizing i with
  | nil =>
    rw [skipWhile, dif_neg (by rw [h.size_eq]; exact Nat.lt_irrefl _)]
    rfl
  | cons c rest ih =>
    have hall : AllAt source.toUTF8.data (p · = p c) i c.utf8Size := by
      refine h.alike.imp fun e he ↦ ?_
      obtain rfl | ⟨hc, he⟩ := he
      · rfl
      · exact (hp e he).trans (hp c hc).symm
    rw [List.takeWhile_cons]
    cases hc : p c with
    | true =>
      rw [hc] at hall
      rw [skipWhile_run hall, ih h.tail, if_pos rfl, byteCount, Nat.add_assoc]
    | false =>
      obtain ⟨e, he : charAt? source.toUTF8.data i = some e, hpe⟩ := hall 0 c.utf8Size_pos
      rw [skipWhile_of_charAt? he, hpe, hc, if_neg Bool.false_ne_true, if_neg Bool.false_ne_true]
      rfl

/-- The end of a literal or comment of which this many characters are left, if it has one. -/
def endOf (i : Nat) (text : List Char) : Bool × Nat → Except Nat Nat
  | (true, n) => .ok (i + byteCount (text.take n))
  | (false, n) => .error (i + byteCount (text.take n))

theorem endOf_cons (i : Nat) (c : Char) (text : List Char) (closed : Bool) (n : Nat) :
    endOf i (c :: text) (closed, n + 1) = endOf (i + c.utf8Size) text (closed, n) := by
  cases closed <;> rw [endOf, endOf, List.take_succ_cons, byteCount, Nat.add_assoc]

def IsPlain (quote e : Char) : Prop := e ≠ quote ∧ (quote = '"' → e ≠ '\\' ∧ e ≠ '\n')

theorem literalEnd_of_charAt? (h : charAt? bytes i = some e) : literalEnd bytes quote i =
    if e = '\\' ∧ quote = '"' then literalEnd bytes quote (i + 2)
    else if e = '\n' ∧ quote = '"' then .error i
    else if e = quote then .ok (i + 1)
    else literalEnd bytes quote (i + 1) := by
  obtain ⟨hi, rfl⟩ := charAt?_eq_some_iff.1 h
  rw [literalEnd, dif_pos hi]

theorem literalEnd_run (h : AllAt bytes (IsPlain quote) i n) :
    literalEnd bytes quote i = literalEnd bytes quote (i + n) := by
  induction n generalizing i with
  | zero => rfl
  | succ n ih =>
    obtain ⟨e, he, hquote, hplain⟩ := h.head
    rw [literalEnd_of_charAt? he, if_neg fun h ↦ (hplain h.2).1 h.1,
      if_neg fun h ↦ (hplain h.2).2 h.1, if_neg hquote, ih h.tail, Nat.add_assoc, Nat.add_comm 1]

theorem IsWide.isPlain (h : IsWide e) (hquote : quote.toNat < 128) : IsPlain quote e :=
  ⟨h.ne hquote, fun _ ↦ ⟨h.ne (by decide), h.ne (by decide)⟩⟩

theorem RestAt.plain (h : RestAt source i (c :: rest)) (hquote : quote.toNat < 128)
    (hc : IsPlain quote c) :
    literalEnd source.toUTF8.data quote i = literalEnd source.toUTF8.data quote
      (i + c.utf8Size) := by
  refine literalEnd_run (h.alike.imp fun e he ↦ ?_)
  obtain rfl | ⟨-, he⟩ := he
  · exact hc
  · exact he.isPlain hquote

theorem literalEnd_size (hle : bytes.size ≤ i) : literalEnd bytes quote i = .error bytes.size := by
  rw [literalEnd, dif_neg (Nat.not_lt.2 hle)]

theorem RestAt.literalEnd_nil (h : RestAt source i []) :
    literalEnd source.toUTF8.data quote i = .error i := by
  have hsize : source.toUTF8.data.size = i := h.size_eq
  rw [literalEnd_size (Nat.le_of_eq hsize), hsize]

/-- The byte that a backslash takes with it may be the first one of a longer character. The others
of that character do not end the literal either. -/
theorem RestAt.escaped (h : RestAt source i ('\\' :: c :: rest)) :
    literalEnd source.toUTF8.data '"' i =
    literalEnd source.toUTF8.data '"' (i + '\\'.utf8Size + c.utf8Size) := by
  have hslash : charAt? source.toUTF8.data i = some '\\' := (h.charAt?_eq_iff (by decide)).2 rfl
  have hnext : RestAt source (i + 1) (c :: rest) := h.tail
  have hplain : AllAt source.toUTF8.data (IsPlain '"') (i + 2) (c.utf8Size - 1) :=
    hnext.inside.imp fun e he ↦ he.isPlain (by decide)
  have hinside := literalEnd_run hplain
  have hend : i + 2 + (c.utf8Size - 1) = i + '\\'.utf8Size + c.utf8Size := by
    have hone : '\\'.utf8Size = 1 := rfl
    have hpos := c.utf8Size_pos
    omega
  rw [literalEnd_of_charAt? hslash, if_pos ⟨rfl, rfl⟩, hinside, hend]

theorem literalEnd_quoted (h : RestAt source i rest) :
    literalEnd source.toUTF8.data '"' i = endOf i rest (Piece.quotedTail rest) := by
  fun_induction Piece.quotedTail rest generalizing i with
  | case1 => rw [h.literalEnd_nil]; rfl
  | case2 later =>
    rw [literalEnd_of_charAt? ((h.charAt?_eq_iff (by decide)).2 rfl)]
    rfl
  | case3 later =>
    rw [literalEnd_of_charAt? ((h.charAt?_eq_iff (by decide)).2 rfl)]
    rfl
  | case4 c later closed n hn ih =>
    rw [h.escaped, ih h.tail.tail, hn, endOf_cons, endOf_cons]
  | case5 c later hquote hline hescape closed n hn ih =>
    rw [endOf_cons, ← hn, ← ih h.tail]
    by_cases hc : c = '\\'
    · -- Nothing is left for the backslash to take, and it leads behind the last byte.
      have hlater : later = [] := by
        cases later with
        | nil => rfl
        | cons d later => exact (hescape d later hc rfl).elim
      subst hc hlater
      have hsize : source.toUTF8.data.size = i + 1 := h.size_eq
      rw [h.tail.literalEnd_nil, literalEnd_of_charAt? ((h.charAt?_eq_iff (by decide)).2 rfl),
        if_pos ⟨rfl, rfl⟩, literalEnd_size (by omega), hsize]
      rfl
    · exact h.plain (by decide) ⟨by simpa using hquote, fun _ ↦ ⟨hc, by simpa using hline⟩⟩

theorem literalEnd_raw (h : RestAt source i rest) :
    literalEnd source.toUTF8.data '\x60' i = endOf i rest (Piece.rawTail rest) := by
  fun_induction Piece.rawTail rest generalizing i with
  | case1 => rw [h.literalEnd_nil]; rfl
  | case2 later =>
    rw [literalEnd_of_charAt? ((h.charAt?_eq_iff (by decide)).2 rfl)]
    rfl
  | case3 c later hc closed n hn ih =>
    rw [endOf_cons, ← hn, ← ih h.tail]
    exact h.plain (by decide) ⟨hc, fun hmark ↦ absurd hmark (by decide)⟩

theorem commentEnd_of_ne (h : charAt? bytes i ≠ some '*' ∨ charAt? bytes (i + 1) ≠ some '/') :
    commentEnd bytes i = commentEnd bytes (i + 1) := by
  rw [commentEnd]
  split
  · rw [if_neg fun hmark ↦ h.elim (· hmark.1) (· hmark.2)]
  · rw [commentEnd, if_neg (by omega)]

theorem commentEnd_run (h : AllAt bytes (· ≠ '*') i n) :
    commentEnd bytes i = commentEnd bytes (i + n) := by
  induction n generalizing i with
  | zero => rfl
  | succ n ih =>
    obtain ⟨e, he, hstar⟩ := h.head
    have hne : charAt? bytes i ≠ some '*' := by
      rw [he, ne_eq, Option.some_inj]
      exact hstar
    rw [commentEnd_of_ne (.inl hne), ih h.tail, Nat.add_assoc, Nat.add_comm 1]

theorem commentEnd_eq (h : RestAt source i rest) :
    commentEnd source.toUTF8.data i = endOf i rest (Piece.blockTail rest) := by
  fun_induction Piece.blockTail rest generalizing i with
  | case1 =>
    have hsize : source.toUTF8.data.size = i := h.size_eq
    rw [commentEnd, if_neg (by omega), hsize]
    rfl
  | case2 later =>
    have hstar := (h.charAt?_eq_iff (e := '*') (by decide)).2 rfl
    have hslash := (h.tail.charAt?_eq_iff (e := '/') (by decide)).2 rfl
    have hsize := h.size_eq
    have hlt : i + 1 < source.toUTF8.data.size := (charAt?_eq_some_iff.1 hslash).1
    rw [commentEnd, if_pos hlt, if_pos ⟨hstar, hslash⟩]
    rfl
  | case3 c later hmark closed n hn ih =>
    rw [endOf_cons, ← hn, ← ih h.tail]
    by_cases hc : c = '*'
    · subst hc
      refine commentEnd_of_ne (.inr ?_)
      have hnext : RestAt source (i + 1) later := h.tail
      rw [ne_eq, hnext.charAt?_eq_iff (by decide)]
      intro hhead
      obtain ⟨after, rfl⟩ := List.head?_eq_some_iff.1 hhead
      exact hmark after rfl rfl
    · refine commentEnd_run (h.alike.imp fun e he ↦ ?_)
      rwa [ne_eq, he.eq_iff (by decide)]

theorem RestAt.commentEnd_block {closed : Bool} (h : RestAt source (i + 1) rest)
    (hstar : rest.head? = some '*') (hn : Piece.blockTail rest.tail = (closed, n)) :
    commentEnd source.toUTF8.data (i + 2) = endOf (i + 1) rest (closed, n + 1) := by
  obtain ⟨later, rfl⟩ := List.head?_eq_some_iff.1 hstar
  have hlater : RestAt source (i + 2) later := h.tail
  rw [List.tail_cons] at hn
  rw [commentEnd_eq hlater, hn, endOf_cons]
  rfl

theorem mark?_nil (c : Char) : Piece.mark? c [] = (markOf? c).map (·, 0) := by
  unfold markOf?
  split
  all_goals try rfl
  unfold Piece.mark?
  split <;> simp_all

theorem RestAt.tail_of_not_isWide (h : RestAt source i (c :: rest)) (hc : ¬IsWide c) :
    RestAt source (i + 1) rest := by
  have htail := h.tail
  rwa [utf8Size_eq_one_iff_toNat.2 (Nat.lt_of_not_le hc)] at htail

theorem RestAt.dash_iff (h : RestAt source i rest) :
    charAt? source.toUTF8.data i = some '-' ↔ ['-'] <+: rest := by
  rw [h.charAt?_eq_iff (by decide), Piece.prefix_singleton_iff]

theorem RestAt.dots_iff (h : RestAt source i rest) :
    charAt? source.toUTF8.data i = some '.' ∧ charAt? source.toUTF8.data (i + 1) = some '.' ↔
      ['.', '.'] <+: rest := by
  rw [h.charAt?_eq_iff (by decide)]
  cases rest with
  | nil => simp
  | cons c rest =>
    rw [List.head?_cons, Option.some_inj, List.cons_prefix_cons, eq_comm]
    refine and_congr_right ?_
    rintro rfl
    have hnext : RestAt source (i + 1) rest := h.tail
    rw [hnext.charAt?_eq_iff (by decide), Piece.prefix_singleton_iff]

theorem mark?_eq (h : RestAt source i (c :: rest)) (hc : ¬IsWide c) : mark? source.toUTF8.data c i =
    (Piece.mark? c rest).map fun found ↦ (found.1, i + 1 + byteCount (rest.take found.2)) := by
  have hnext := h.tail_of_not_isWide hc
  rw [Piece.mark?_eq, mark?]
  simp only [hnext.dots_iff, hnext.dash_iff]
  split
  · rename_i hdots
    obtain ⟨later, rfl⟩ := hdots.2
    rfl
  split
  · rename_i hdash
    obtain ⟨later, rfl⟩ := hdash.2
    rfl
  · rw [mark?_nil, Option.map_map]
    rfl

end Ends

section Pieces

variable {source : String} {bytes : Array UInt8} {i n stop : Nat} {c e : Char}
    {text rest : List Char} {shape : Shape}

theorem RestAt.text? (h : RestAt source i (text ++ rest)) :
    text? source i (i + byteCount text) = some (String.ofList text) := by
  rw [Scanner.text?, if_pos ⟨h.isValid, h.drop.isValid⟩, h.slice]

theorem look_str (hc : c = '"' ∨ c = '\x60') (h : literalEnd bytes c (i + 1) = .ok stop) :
    look source bytes c i = some (.token .str, stop) := by
  obtain rfl | rfl := hc <;> simp [look, Piece.isBlank, Piece.startsWord, h]

theorem look_openString (hc : c = '"' ∨ c = '\x60') (h : literalEnd bytes c (i + 1) = .error stop) :
    look source bytes c i = some (.openString, stop) := by
  obtain rfl | rfl := hc <;> simp [look, Piece.isBlank, Piece.startsWord, h]

theorem look_line (h : charAt? bytes (i + 1) = some '/') :
    look source bytes '/' i = some (.comment, skipWhile bytes (· ≠ '\n') (i + 2)) := by
  simp [look, Piece.isBlank, Piece.startsWord, h]

theorem look_block (hmark : charAt? bytes (i + 1) = some '*')
    (h : commentEnd bytes (i + 2) = .ok stop) :
    look source bytes '/' i = some (.comment, stop) := by
  simp [look, Piece.isBlank, Piece.startsWord, hmark, h]

theorem look_openBlock (hmark : charAt? bytes (i + 1) = some '*')
    (h : commentEnd bytes (i + 2) = .error stop) :
    look source bytes '/' i = some (.openComment, stop) := by
  simp [look, Piece.isBlank, Piece.startsWord, hmark, h]

theorem look_mark {kind : TokenKind} (hc : Piece.mark? c rest = some (kind, n))
    (h : mark? bytes c i = some (kind, stop)) :
    look source bytes c i = some (.token kind, stop) := by
  obtain ⟨hline, hblank, hword, hdigit, hquote, hraw, hslash⟩ := Piece.ne_of_mark? hc
  simp [look, hline, hblank, hword, hdigit, hquote, hraw, hslash, h]

theorem not_isWide_of_mark? {kind : TokenKind} (h : Piece.mark? c rest = some (kind, n)) :
    ¬IsWide c := by
  intro hc
  unfold Piece.mark? at h
  split at h
  case h_13 => cases h
  all_goals exact hc.ne (by decide) rfl

theorem not_isWide_of_extends (h : Piece.Extends c rest n shape) (hne : shape ≠ .unknown) :
    ¬IsWide c := by
  intro hc
  cases h with
  | newline h => exact hc.ne (by decide) h
  | blank h => exact absurd h (by simp [hc.isBlank])
  | word h => exact absurd h (by simp [hc.startsWord])
  | number h => exact absurd h (by simp [hc.isDigit])
  | quoted h | raw h | openQuoted h | openRaw h | line h | block h | openBlock h =>
    exact hc.ne (by decide) h
  | mark h => exact not_isWide_of_mark? h hc
  | unknown => exact hne rfl

theorem skipWhile_take {wide : Bool} {p : Char → Bool} (hp : ∀ c, IsWide c → p c = wide)
    (h : RestAt source i rest) (hn : (rest.takeWhile p).length = n) :
    skipWhile source.toUTF8.data p i = i + byteCount (rest.take n) := by
  rw [skipWhile_eq hp h, ← hn, Piece.take_takeWhile_length]

/-- What starts with a character that has a meaning ends where the piece of it does. -/
theorem look_eq (h : RestAt source i (c :: rest)) (hx : Piece.Extends c rest n shape)
    (hne : shape ≠ .unknown) :
    look source source.toUTF8.data c i = some (shape, i + byteCount (c :: rest.take n)) := by
  have hc := not_isWide_of_extends hx hne
  have hnext := h.tail_of_not_isWide hc
  have hhead : ∀ e : Char, e.toNat < 128 → rest.head? = some e →
      charAt? source.toUTF8.data (i + 1) = some e := fun e he ↦ (hnext.charAt?_eq_iff he).2
  have hsize : i + byteCount (c :: rest.take n) = i + 1 + byteCount (rest.take n) := by
    rw [byteCount, utf8Size_eq_one_iff_toNat.2 (Nat.lt_of_not_le hc), Nat.add_assoc]
  cases hx with
  | newline hc hn =>
    subst hc hn
    rfl
  | blank hc hn =>
    subst hn
    rw [look, if_neg (Piece.ne_of_isBlank hc), if_pos hc, hsize]
    rfl
  | word hc hn hkind =>
    obtain ⟨hline, hblank⟩ := Piece.isBlank_of_inWord (Piece.inWord_of_startsWord hc)
    have hword : text? source i (i + byteCount (c :: rest.take n)) =
        some (String.ofList (c :: rest.take n)) := by
      have hsplit : RestAt source i ((c :: rest.take n) ++ rest.drop n) := by
        rwa [List.cons_append, List.take_append_drop]
      exact hsplit.text?
    rw [look, if_neg hline, hblank, if_neg Bool.false_ne_true, if_pos hc]
    dsimp only
    rw [skipWhile_take (fun _ ↦ IsWide.inWord) hnext hn, ← hsize, hword, ← hkind, Option.map_some]
  | number hc hn =>
    obtain ⟨hline, hblank⟩ := Piece.isBlank_of_inWord (Piece.inWord_of_isDigit hc)
    have hdigits : ((c :: rest).takeWhile Piece.inNumber).length = n + 1 := by
      rw [List.takeWhile_cons, if_pos (inNumber_of_isDigit hc), List.length_cons, hn]
    rw [look, if_neg hline, hblank, if_neg Bool.false_ne_true, Piece.startsWord_of_isDigit hc,
      if_neg Bool.false_ne_true, if_pos hc, skipWhile_take (fun _ ↦ IsWide.inNumber) h hdigits]
    rfl
  | quoted hc hn =>
    refine look_str (.inl hc) ?_
    rw [hc, literalEnd_quoted hnext, hn, endOf, ← hsize, hc]
  | openQuoted hc hn =>
    refine look_openString (.inl hc) ?_
    rw [hc, literalEnd_quoted hnext, hn, endOf, ← hsize, hc]
  | raw hc hn =>
    refine look_str (.inr hc) ?_
    rw [hc, literalEnd_raw hnext, hn, endOf, ← hsize, hc]
  | openRaw hc hn =>
    refine look_openString (.inr hc) ?_
    rw [hc, literalEnd_raw hnext, hn, endOf, ← hsize, hc]
  | line hc hrest hn =>
    subst hc
    rw [look_line (hhead '/' (by decide) hrest)]
    obtain ⟨later, rfl⟩ := List.head?_eq_some_iff.1 hrest
    have hrun : ∀ c, IsWide c → decide (c ≠ '\n') = true := fun c hc ↦
      decide_eq_true (hc.ne (by decide))
    have hlater : RestAt source (i + 2) later := hnext.tail
    rw [List.takeWhile_cons, if_pos (by decide), List.length_cons] at hn
    rw [skipWhile_take hrun hlater rfl, hsize, ← hn, List.take_succ_cons,
      byteCount, ← Nat.add_assoc]
    rfl
  | block hc hrest hk hn =>
    subst hc hn
    refine look_block (hhead '*' (by decide) hrest) ?_
    rw [hnext.commentEnd_block hrest hk, endOf, hsize]
  | openBlock hc hrest hk hn =>
    subst hc hn
    refine look_openBlock (hhead '*' (by decide) hrest) ?_
    rw [hnext.commentEnd_block hrest hk, endOf, hsize]
  | mark hmark =>
    refine look_mark hmark ?_
    rw [mark?_eq h hc, hmark, hsize, Option.map_some]
  | unknown => exact absurd rfl hne

theorem look_wide (h : IsWide c) : look source bytes c i = some (.unknown, i + 1) := by
  have hmark : mark? bytes c i = none := by
    unfold mark? markOf?
    rw [if_neg fun hc ↦ h.ne (by decide) hc.1, if_neg fun hc ↦ h.ne (by decide) hc.1]
    split
    case h_11 => rfl
    all_goals exact absurd rfl (h.ne (by decide))
  have hne : ∀ d : Char, d.toNat < 128 → c ≠ d := fun d hd ↦ h.ne hd
  simp [look, hne, h.isBlank, h.startsWord, h.isDigit, hmark]

theorem look_unknown (h : RestAt source i (c :: rest)) (hx : Piece.Extends c rest n .unknown)
    (hc : ¬IsWide c) : look source source.toUTF8.data c i = some (.unknown, i + 1) := by
  have hnext := h.tail_of_not_isWide hc
  have hat := fun e he ↦ hnext.charAt?_eq_iff (e := e) he
  cases hx with
  | unknown hspace hword hdigit hliteral hline hblock hmark hn =>
    rw [← hat '/' (by decide)] at hline
    rw [← hat '*' (by decide)] at hblock
    have hmark : mark? source.toUTF8.data c i = none := by
      rw [mark?_eq h hc, hmark, Option.map_none]
    rw [look, if_neg hspace.1, hspace.2, hword, hdigit, if_neg (not_or.2 hliteral), if_neg hline,
      if_neg hblock, hmark]
    rfl

end Pieces

section Scans

variable {source : String} {bytes : Array UInt8} {s : Lexed} {i n stop : Nat} {c e : Char}
  {text rest : List Char} {shape : Shape} {ps : List Piece}

theorem scan_of_look (he : charAt? bytes i = some e)
    (h : look source bytes e i = some (shape, stop)) : scan source bytes s i =
      if shape.isOpen then some (finish bytes (keep source bytes s e i shape stop))
      else scan source bytes (keep source bytes s e i shape stop) stop := by
  obtain ⟨hi, rfl⟩ := charAt?_eq_some_iff.1 he
  rw [scan, dif_pos hi]
  split
  · rename_i hnone
    cases hnone.symm.trans h
  · rename_i found place hfound
    cases hfound.symm.trans h
    split <;> rfl

theorem not_isOpen_unknown : ¬Shape.unknown.isOpen = true := Bool.false_ne_true

theorem scan_size (hi : bytes.size ≤ i) : scan source bytes s i = some (finish bytes s) := by
  rw [scan, dif_neg (Nat.not_lt.2 hi)]

theorem scan_run {codes : List UInt8} (hcodes : ∀ k (hk : k < codes.length),
      charAt? bytes (i + k) = some (Char.ofUInt8 codes[k]) ∧
        look source bytes (Char.ofUInt8 codes[k]) (i + k) = some (.unknown, i + k + 1)) :
    scan source bytes s i = scan source bytes
      { s with diagnostics := s.diagnostics ++ Piece.unknownBytes i codes } (i + codes.length) := by
  induction codes generalizing s i with
  | nil => rw [Piece.unknownBytes, List.append_nil]; rfl
  | cons b codes ih =>
    obtain ⟨hat, hlook⟩ := hcodes 0 (Nat.succ_pos _)
    have hlater : ∀ k (hk : k < codes.length),
        charAt? bytes (i + 1 + k) = some (Char.ofUInt8 codes[k]) ∧
        look source bytes (Char.ofUInt8 codes[k]) (i + 1 + k) = some (.unknown, i + 1 + k + 1) := by
      intro k hk
      rw [Nat.add_assoc i, Nat.add_comm 1]
      exact hcodes (k + 1) (Nat.succ_lt_succ hk)
    rw [Nat.add_zero] at hat hlook
    rw [scan_of_look hat hlook, if_neg not_isOpen_unknown, List.getElem_cons_zero, ih hlater, keep,
      report, List.append_assoc, Piece.unknownBytes, ofNat_toNat_eq,
      List.length_cons, Nat.add_assoc, Nat.add_comm 1]
    rfl

theorem RestAt.scan_unknown (h : RestAt source i (c :: rest))
    (hx : Piece.Extends c rest n .unknown) :
    scan source source.toUTF8.data s i = scan source source.toUTF8.data
      { s with diagnostics := s.diagnostics ++ Piece.unknownBytes i (String.utf8EncodeChar c) }
      (i + c.utf8Size) := by
  rw [← String.length_utf8EncodeChar]
  refine scan_run fun k hk ↦ ⟨h.code hk, ?_⟩
  by_cases hc : IsWide c
  · exact look_wide (isWide_of_mem_utf8EncodeChar hc (List.getElem_mem hk))
  · obtain hcode | ⟨hwide, -⟩ := alike_of_mem (List.getElem_mem hk)
    · have hzero : k = 0 := by
        rw [String.length_utf8EncodeChar, utf8Size_eq_one_iff_toNat.2 (Nat.lt_of_not_le hc)] at hk
        exact Nat.lt_one_iff.1 hk
      rw [← hcode, hzero]
      exact look_unknown h hx hc
    · exact absurd hwide hc

theorem RestAt.contains_newline (h : RestAt source i (text ++ rest)) :
    (source.toUTF8.data.extract i (i + byteCount text)).contains '\n'.toUInt8 =
      text.contains '\n' := by
  rw [Bool.eq_iff_iff, Array.contains_iff_mem, ← Array.mem_toList_iff, h.extract,
    newline_mem_flatMap_iff, List.contains_iff_mem]

/-- What was scanned, and behind it the tokens and reports of further pieces. -/
def extend (size : Nat) (s : Lexed) (i : Nat) (ps : List Piece) : Lexed :=
  ⟨s.tokens ++ Piece.tokens size (s.tokens.getLast?.map (·.kind)) i ps,
    s.diagnostics ++ Piece.diagnostics i ps⟩

theorem endLine_append (size pos : Nat) (ts : List Token) (place : Nat) (ps : List Piece) :
    endLine ts place ++ Piece.tokens size ((endLine ts place).getLast?.map (·.kind)) pos ps =
      ts ++ if (ts.getLast?.map (·.kind)).any TokenKind.completesLine then
        ⟨.semicolon, ⟨place, place⟩, ""⟩ :: Piece.tokens size (some .semicolon) pos ps
      else Piece.tokens size (ts.getLast?.map (·.kind)) pos ps := by
  unfold endLine
  split
  · rw [List.getLast?_concat, List.append_assoc]
    rfl
  · rfl

theorem finish_eq : finish bytes s = extend bytes.size s i [] := by
  rw [finish, endLine, extend, Piece.diagnostics, List.append_nil, Piece.tokens]
  split
  · rw [List.append_assoc]; rfl
  · rfl

theorem extend_unknown {size : Nat} : extend size
      { s with diagnostics := s.diagnostics ++ Piece.unknownBytes i (String.utf8EncodeChar c) }
      (i + c.utf8Size) ps =
    extend size s i (⟨.unknown, [c]⟩ :: ps) := by
  simp [extend, Piece.tokens, Piece.diagnostics, Piece.problems, Piece.endsLine,
    Piece.size, byteCount]

theorem RestAt.extend_keep {size : Nat} (h : RestAt source i (text ++ rest))
    (hopen : shape.isOpen = false) (hne : shape ≠ .unknown) :
    extend size (keep source source.toUTF8.data s c i shape (i + byteCount text))
      (i + byteCount text) ps = extend size s i (⟨shape, text⟩ :: ps) := by
  cases shape with
  | blank =>
    simp [extend, keep, Piece.tokens, Piece.diagnostics, Piece.problems, Piece.endsLine, Piece.size]
  | newline =>
    simp [extend, keep, endLine_append, Piece.tokens, Piece.diagnostics, Piece.problems,
      Piece.endsLine, Piece.size]
  | comment =>
    rw [keep, h.contains_newline]
    have hends : (Piece.mk .comment text).endsLine = text.contains '\n' := rfl
    cases hline : text.contains '\n' with
    | true | false =>
      rw [hline] at hends
      simp [extend, endLine_append, Piece.tokens, Piece.diagnostics, Piece.problems,
        hends, Piece.size]
  | token kind =>
    simp [extend, keep, Piece.tokens, Piece.diagnostics, Piece.problems, Piece.size,
      Token.ofSource, h.slice]
  | unknown => exact absurd rfl hne
  | openString | openComment => cases hopen

theorem finish_keep (hopen : shape.isOpen = true) :
    finish bytes (keep source bytes s c i shape (i + byteCount text)) =
      extend bytes.size s i [⟨shape, text⟩] := by
  rw [finish_eq (i := i + byteCount text)]
  cases shape with
  | openString | openComment =>
    simp only [keep, report, extend, List.append_assoc]
    rfl
  | _ => cases hopen

theorem scan_eq (h : RestAt source i rest) : scan source source.toUTF8.data s i =
    some (extend source.toUTF8.data.size s i (Piece.pieces rest)) := by
  fun_induction Piece.pieces rest generalizing s i with
  | case1 =>
    have hsize : source.toUTF8.data.size = i := h.size_eq
    rw [scan_size (Nat.le_of_eq hsize), finish_eq]
  | case2 c rest shape n hextent ih =>
    have hx := Piece.extent_eq_iff.1 hextent
    by_cases hne : shape = .unknown
    · subst hne
      have hn : n = 0 := by
        cases hx with
        | unknown _ _ _ _ _ _ _ hn => exact hn
      subst hn
      rw [h.scan_unknown hx, if_neg not_isOpen_unknown, List.take_zero, ← extend_unknown]
      exact ih h.tail
    · have hc := not_isWide_of_extends hx hne
      have hlook := look_eq h hx hne
      have hat : charAt? source.toUTF8.data i = some c :=
        (h.charAt?_eq_iff (Nat.lt_of_not_le hc)).2 rfl
      rw [scan_of_look hat hlook]
      cases hopen : shape.isOpen with
      | true => rw [if_pos rfl, if_pos rfl, finish_keep hopen]
      | false =>
        have htext : RestAt source i ((c :: rest.take n) ++ rest.drop n) := by
          rwa [List.cons_append, List.take_append_drop]
        rw [if_neg Bool.false_ne_true, if_neg Bool.false_ne_true, ← htext.extend_keep hopen hne]
        exact ih htext.drop

theorem lex?_eq (source : String) : lex? source = some (lex source) := by
  have h : RestAt source 0 source.toList := ⟨[], rfl, rfl⟩
  rw [lex?, scan_eq h, extend, lex]
  rfl

end Scans

end Scanner

end Understudy
