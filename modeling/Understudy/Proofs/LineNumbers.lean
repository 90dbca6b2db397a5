import Mathlib.Data.List.GetD
import Understudy.Proofs.CharacterBytes
import Understudy.SourceMap

namespace Understudy

def newlinesBefore (source : String) (offset : Nat) : Nat :=
  ((Text.bytes source).take offset).count 10

namespace FileLines

section Newlines

theorem countP_newlineEnds (pos : Nat) (text : List Char) (offset : Nat) :
    (newlineEnds pos text).countP (· ≤ offset) =
      ((text.flatMap String.utf8EncodeChar).take (offset - pos)).count 10 := by
  induction text generalizing pos with
  | nil => simp [newlineEnds]
  | cons c rest ih =>
    rw [List.flatMap_cons, List.take_append, List.count_append,
      String.length_utf8EncodeChar, newlineEnds, Nat.sub_sub]
    by_cases hc : c = '\n'
    · subst hc
      rw [if_pos rfl, List.countP_cons, ih, Nat.add_comm]
      congr 1
      have hbyte : String.utf8EncodeChar '\n' = [10] := by decide
      have hsize : '\n'.utf8Size = 1 := by decide
      rw [hbyte, hsize]
      by_cases hle : pos + 1 ≤ offset
      · obtain ⟨n, hn⟩ : ∃ n, offset - pos = n + 1 := ⟨offset - pos - 1, by omega⟩
        simp [hle, hn]
      · have hn : offset - pos = 0 := by omega
        simp [hle, hn]
    · have hnone : ((String.utf8EncodeChar c).take (offset - pos)).count 10 = 0 :=
        List.count_eq_zero.2 fun hmem ↦
          hc (Scanner.newline_mem_utf8EncodeChar_iff.1 (List.mem_of_mem_take hmem))
      rw [if_neg hc, ih, hnone, Nat.zero_add]

theorem line_ofSource (path source : String) (offset : Nat) :
    (ofSource path source).line offset = 1 + newlinesBefore source offset := by
  rw [line, ofSource, List.countP_cons_of_pos (by simp), countP_newlineEnds, newlinesBefore,
    Text.bytes_eq, Nat.sub_zero, Nat.add_comm]

end Newlines

section Search

theorem pairwise_newlineEnds (pos : Nat) (text : List Char) :
    (pos :: newlineEnds pos text).Pairwise (· < ·) := by
  induction text generalizing pos with
  | nil => simp [newlineEnds]
  | cons c rest ih =>
    have hnext : pos < pos + c.utf8Size := Nat.lt_add_of_pos_right c.utf8Size_pos
    have hrest := List.pairwise_cons.1 (ih (pos + c.utf8Size))
    have hlater : ∀ stop ∈ newlineEnds (pos + c.utf8Size) rest, pos < stop :=
      fun stop hstop ↦ hnext.trans (hrest.1 stop hstop)
    rw [newlineEnds]
    split
    · refine List.pairwise_cons.2 ⟨?_, ih _⟩
      exact List.forall_mem_cons.2 ⟨hnext, hlater⟩
    · exact List.pairwise_cons.2 ⟨hlater, hrest.2⟩

/-- Looks for the end of the lines that begin at an offset or before it; it lies between `lo` and
`hi`. -/
def search (starts : List Nat) (offset lo hi : Nat) : Nat :=
  if lo < hi then
    let mid := (lo + hi) / 2
    if starts.getD mid 0 ≤ offset then search starts offset (mid + 1) hi
      else search starts offset lo mid
  else lo
termination_by hi - lo

variable {starts : List Nat} {offset lo hi : Nat}

theorem getD_lt_getD (h : starts.Pairwise (· < ·)) {m n : Nat} (hmn : m < n)
    (hn : n < starts.length) : starts.getD m 0 < starts.getD n 0 := by
  have hm : m < starts.length := hmn.trans hn
  rw [List.getD_eq_getElem _ _ hm, List.getD_eq_getElem _ _ hn]
  exact List.pairwise_iff_getElem.1 h m n hm hn hmn

theorem countP_eq_of_border (hlo : lo ≤ starts.length) (hbelow : ∀ n < lo, starts.getD n 0 ≤ offset)
    (habove : ∀ n, lo ≤ n → n < starts.length → offset < starts.getD n 0) :
    starts.countP (· ≤ offset) = lo := by
  have hfront : (starts.take lo).countP (· ≤ offset) = (starts.take lo).length := by
    rw [List.countP_eq_length]
    intro start hstart
    obtain ⟨n, hn, rfl⟩ := List.mem_take_iff_getElem.1 hstart
    have hwithin := hbelow n (by omega)
    rw [List.getD_eq_getElem _ _ (by omega)] at hwithin
    simpa using hwithin
  have hback : (starts.drop lo).countP (· ≤ offset) = 0 := by
    rw [List.countP_eq_zero]
    intro start hstart
    obtain ⟨n, hn, rfl⟩ := List.mem_drop_iff_getElem.1 hstart
    have hbehind := habove (lo + n) (by omega) (by omega)
    rw [List.getD_eq_getElem _ _ (by omega)] at hbehind
    simpa using hbehind
  rw [← List.take_append_drop lo starts, List.countP_append, hfront, hback, List.length_take]
  omega

/-- Each halving keeps the border between the two bounds. -/
theorem search_eq_countP (hsorted : starts.Pairwise (· < ·)) (hle : lo ≤ hi)
    (hhi : hi ≤ starts.length) (hbelow : ∀ n < lo, starts.getD n 0 ≤ offset)
    (habove : ∀ n, hi ≤ n → n < starts.length → offset < starts.getD n 0) :
    search starts offset lo hi = starts.countP (· ≤ offset) := by
  fun_induction search starts offset lo hi with
  | case1 lo hi hlt mid hmid ih =>
    refine ih (by omega) hhi (fun n hn ↦ ?_) habove
    rcases Nat.lt_succ_iff_lt_or_eq.1 hn with hn | rfl
    · have := getD_lt_getD hsorted hn (by omega)
      omega
    · exact hmid
  | case2 lo hi hlt mid hmid ih =>
    refine ih (by omega) (by omega) hbelow fun n hn hlength ↦ ?_
    rcases Nat.eq_or_lt_of_le hn with rfl | hn
    · omega
    · have := getD_lt_getD hsorted hn hlength
      omega
  | case3 lo hi hge =>
    obtain rfl : lo = hi := by omega
    exact (countP_eq_of_border hhi hbelow habove).symm

theorem search_ofSource (path source : String) (offset : Nat) :
    search (ofSource path source).starts offset 0 (ofSource path source).starts.length =
      (ofSource path source).line offset := by
  refine search_eq_countP (pairwise_newlineEnds 0 source.toList) (Nat.zero_le _) le_rfl ?_ ?_
  · intro n hn
    omega
  · intro n hn hlength
    omega

end Search

end FileLines

end Understudy
