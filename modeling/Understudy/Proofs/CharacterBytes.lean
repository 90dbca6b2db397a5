import Mathlib.Data.String.Basic
import Understudy.Proofs.Lexemes
import Understudy.Proofs.MethodOrder

namespace Understudy

namespace Piece

theorem length_flatMap_utf8EncodeChar (text : List Char) :
    (text.flatMap String.utf8EncodeChar).length = byteCount text := by
  induction text with
  | nil => rfl
  | cons c rest ih => simp [byteCount, ih, String.length_utf8EncodeChar]

theorem utf8Size_eq_one_iff_toNat {c : Char} : c.utf8Size = 1 ↔ c.toNat < 128 := by
  rw [Char.utf8Size_eq_one_iff, UInt32.le_iff_toNat_le]
  exact Nat.lt_succ_iff.symm

end Piece

open Piece (byteCount byteCount_append utf8Size_eq_one_iff_toNat)

namespace Scanner

section Codes

variable {b : UInt8} {c d e : Char} {text : List Char}

/-- A character that has more than one byte, or that has the byte of such a one as its code. -/
def IsWide (c : Char) : Prop := 128 ≤ c.toNat

theorem toNat_ofUInt8 (b : UInt8) : (Char.ofUInt8 b).toNat = b.toNat := rfl

theorem ofNat_toNat_eq (b : UInt8) : Char.ofNat b.toNat = Char.ofUInt8 b := by
  rw [← toNat_ofUInt8, Char.ofNat_toNat]

theorem utf8EncodeChar_of_not_isWide (h : ¬IsWide c) :
    ∃ b, String.utf8EncodeChar c = [b] ∧ Char.ofUInt8 b = c := by
  have hc : c.toNat < 128 := Nat.lt_of_not_le h
  refine ⟨_, String.utf8EncodeChar_eq_singleton (utf8Size_eq_one_iff_toNat.2 hc), ?_⟩
  apply Char.toNat_inj.1
  rw [toNat_ofUInt8, UInt32.toNat_toUInt8]
  exact Nat.mod_eq_of_lt (Nat.lt_trans hc (by decide))

theorem isWide_of_mem_utf8EncodeChar (h : IsWide c) (hb : b ∈ String.utf8EncodeChar c) :
    IsWide (Char.ofUInt8 b) := by
  rw [IsWide, toNat_ofUInt8]
  have hc : 128 ≤ c.val.toNat := h
  have hbound : c.val.toNat < 1114112 := by
    rcases c.valid with hc | hc <;> omega
  unfold String.utf8EncodeChar at hb
  dsimp only at hb
  generalize c.val.toNat = v at hb hc hbound
  split_ifs at hb
  all_goals
    simp only [List.mem_cons, List.not_mem_nil, or_false, ← UInt8.toNat_inj,
      UInt8.toNat_ofNat'] at hb
    omega

/-- Both are one character of one byte, or neither has a meaning of its own to a scanner. -/
def Alike (c d : Char) : Prop := c = d ∨ IsWide c ∧ IsWide d

theorem alike_of_mem (hb : b ∈ String.utf8EncodeChar c) : Alike c (Char.ofUInt8 b) := by
  by_cases hc : IsWide c
  · exact .inr ⟨hc, isWide_of_mem_utf8EncodeChar hc hb⟩
  · obtain ⟨b', hbytes, hcode⟩ := utf8EncodeChar_of_not_isWide hc
    rw [hbytes, List.mem_singleton] at hb
    exact .inl (hb ▸ hcode.symm)

theorem IsWide.ne (h : IsWide c) (hd : d.toNat < 128) : c ≠ d := by
  rintro rfl
  exact absurd hd (Nat.not_lt.2 h)

theorem Alike.eq_iff (h : Alike c d) (he : e.toNat < 128) : d = e ↔ c = e := by
  obtain rfl | ⟨hc, hd⟩ := h
  · rfl
  · exact iff_of_false (hd.ne he) (hc.ne he)

theorem newline_mem_utf8EncodeChar_iff : '\n'.toUInt8 ∈ String.utf8EncodeChar c ↔ c = '\n' := by
  constructor
  · intro hmem
    exact ((alike_of_mem hmem).eq_iff (by decide)).1 rfl
  · rintro rfl
    decide

theorem newline_mem_flatMap_iff :
    '\n'.toUInt8 ∈ text.flatMap String.utf8EncodeChar ↔ '\n' ∈ text := by
  simp [newline_mem_utf8EncodeChar_iff]

end Codes

section Places

variable {source : String} {i : Nat} {c : Char} {text rest : List Char}

/-- From byte `i` on the text is `rest`. -/
def RestAt (source : String) (i : Nat) (rest : List Char) : Prop :=
  ∃ before, source.toList = before ++ rest ∧ byteCount before = i

theorem RestAt.drop (h : RestAt source i (text ++ rest)) :
    RestAt source (i + byteCount text) rest := by
  obtain ⟨before, hsource, rfl⟩ := h
  exact ⟨before ++ text, by rw [hsource, List.append_assoc], byteCount_append before text⟩

theorem RestAt.tail (h : RestAt source i (c :: rest)) : RestAt source (i + c.utf8Size) rest :=
  have hfirst : RestAt source i ([c] ++ rest) := h
  hfirst.drop

theorem RestAt.drop_bytes (h : RestAt source i rest) :
    source.toUTF8.data.toList.drop i = rest.flatMap String.utf8EncodeChar := by
  obtain ⟨before, hsource, rfl⟩ := h
  rw [← Text.bytes, Text.bytes_eq, hsource,
    List.flatMap_append, ← Piece.length_flatMap_utf8EncodeChar, List.drop_left]

theorem RestAt.size_eq (h : RestAt source i rest) :
    source.toUTF8.data.size = i + byteCount rest := by
  obtain ⟨before, hsource, rfl⟩ := h
  rw [← Array.length_toList, ← Text.bytes, Text.bytes_eq,
    Piece.length_flatMap_utf8EncodeChar, hsource, byteCount_append]

theorem RestAt.isValid (h : RestAt source i rest) : (⟨i⟩ : String.Pos.Raw).IsValid source := by
  obtain ⟨before, hsource, rfl⟩ := h
  rw [String.Pos.Raw.isValid_iff_exists_append]
  refine ⟨String.ofList before, String.ofList rest, ?_, ?_⟩
  · rw [← String.ofList_append, ← hsource, String.ofList_toList]
  · exact String.Pos.Raw.ext (Piece.byteCount_eq before)

theorem RestAt.slice (h : RestAt source i (text ++ rest)) :
    Token.slice source ⟨i, i + byteCount text⟩ = String.ofList text := by
  have hbytes : ∀ text, byteCount text = String.utf8Len text := fun text ↦
    (Piece.byteCount_eq text).trans (String.utf8ByteSize_ofList text)
  rw [Token.slice, if_pos ⟨Nat.le_add_right .., h.isValid, h.drop.isValid⟩]
  obtain ⟨before, hsource, rfl⟩ := h
  have hsource : String.ofList (before ++ text ++ rest) = source := by
    rw [List.append_assoc, ← hsource, String.ofList_toList]
  rw [hbytes before, hbytes text]
  exact hsource ▸ String.extract_of_valid before text rest

theorem RestAt.extract (h : RestAt source i (text ++ rest)) :
    (source.toUTF8.data.extract i (i + byteCount text)).toList =
      text.flatMap String.utf8EncodeChar := by
  rw [Array.toList_extract, List.extract_eq_take_drop, h.drop_bytes, List.flatMap_append,
    Nat.add_sub_cancel_left, ← Piece.length_flatMap_utf8EncodeChar, List.take_left]

end Places

end Scanner

end Understudy
