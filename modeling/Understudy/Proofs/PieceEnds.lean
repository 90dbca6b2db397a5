import Understudy.Proofs.Lexemes

namespace Understudy

namespace Piece

def fillsLine (p : Piece) : Bool := p.shape = .comment && p.text[1]? == some '/'

def isSpace (c : Char) : Bool := isBlank c || c == '\n'

def StartsSpace (text : List Char) : Prop := ∀ d ∈ text.head?, isSpace d = true

theorem startsSpace_nil : StartsSpace [] := nofun

theorem startsSpace_cons {d : Char} {text : List Char} (hd : isSpace d = true) :
    StartsSpace (d :: text) := by
  rintro _ ⟨⟩
  exact hd

theorem inWord_of_isSpace {d : Char} (h : isSpace d = true) : inWord d = false := by
  cases hw : inWord d with
  | false => rfl
  | true =>
    obtain ⟨hnl, hblank⟩ := isBlank_of_inWord hw
    simp [isSpace, hnl, hblank] at h

theorem inNumber_of_isSpace {d : Char} (h : isSpace d = true) : inNumber d = false := by
  have hword := inWord_of_isSpace h
  simp only [inWord, Char.isAlphanum, Bool.or_eq_false_iff] at hword
  simp [inNumber, hword.1.2, hword.2]

theorem ne_of_isSpace {d x : Char} (h : isSpace d = true) (hx : isSpace x = false) : d ≠ x := by
  rintro rfl
  simp [h] at hx

theorem takeWhile_eq {p : Char → Bool} {tail rest : List Char}
    (h : ((tail ++ rest).takeWhile p).length = tail.length) :
    (∀ x ∈ tail, p x = true) ∧ ∀ x ∈ rest.head?, p x = false := by
  have htail : (tail ++ rest).takeWhile p = tail :=
    (List.prefix_of_prefix_length_le (List.takeWhile_prefix p) (List.prefix_append tail _)
      (Nat.le_of_eq h)).eq_of_length h
  have hall : ∀ x ∈ tail, p x = true := by
    rw [← htail]
    exact List.all_eq_true.1 List.all_takeWhile
  refine ⟨hall, fun x hx ↦ ?_⟩
  rw [List.takeWhile_append_of_pos hall, List.append_right_eq_self] at htail
  obtain ⟨rest, rfl⟩ := List.head?_eq_some_iff.1 hx
  simpa [List.takeWhile_cons] using htail

theorem takeWhile_space {p : Char → Bool} {tail u v w : List Char}
    (h : ((tail ++ (u ++ v)).takeWhile p).length = tail.length)
    (hw : u = [] → ∀ d ∈ w.head?, p d = false) :
    (tail ++ (u ++ v)).takeWhile p = tail ∧ (tail ++ (u ++ w)).takeWhile p = tail := by
  obtain ⟨hall, hend⟩ := takeWhile_eq h
  refine ⟨takeWhile_of_breaks hall hend, takeWhile_of_breaks hall ?_⟩
  cases u with
  | nil => exact hw rfl
  | cons x u => exact hend

theorem quotedTail_take {text : List Char} {n : Nat} (h : quotedTail text = (true, n))
    (rest : List Char) : quotedTail (text.take n ++ rest) = (true, n) := by
  fun_induction quotedTail text generalizing n with
  | case1 => cases h
  | case2 =>
    cases h
    rfl
  | case3 => cases h
  | case4 x text closed k hk ih =>
    cases h
    simp [quotedTail, ih hk]
  | case5 x text hquote hline hescape closed k hk ih =>
    cases h
    have hx : x ≠ '\\' := by
      rintro rfl
      cases text with
      | nil => cases hk
      | cons y text => exact hescape y text rfl rfl
    rw [List.take_succ_cons, List.cons_append, quotedTail, ih hk]
    · exact hquote
    · exact hline
    · exact fun _ _ h ↦ absurd h hx

theorem rawTail_take {text : List Char} {n : Nat} (h : rawTail text = (true, n))
    (rest : List Char) : rawTail (text.take n ++ rest) = (true, n) := by
  fun_induction rawTail text generalizing n with
  | case1 => cases h
  | case2 =>
    cases h
    simp [rawTail]
  | case3 x text hx closed k hk ih =>
    cases h
    simp [rawTail, hx, ih hk]

theorem pos_of_blockTail {text : List Char} {n : Nat} (h : blockTail text = (true, n)) : 0 < n := by
  fun_induction blockTail text generalizing n with
  | case1 => cases h
  | case2 =>
    cases h
    decide
  | case3 x text hend closed k hk ih =>
    cases h
    exact Nat.succ_pos k

theorem blockTail_take {text : List Char} {n : Nat} (h : blockTail text = (true, n))
    (rest : List Char) : blockTail (text.take n ++ rest) = (true, n) := by
  fun_induction blockTail text generalizing n with
  | case1 => cases h
  | case2 =>
    cases h
    rfl
  | case3 x text hend closed k hk ih =>
    cases h
    rw [List.take_succ_cons, List.cons_append, blockTail, ih hk]
    intro later hx hlater
    obtain ⟨k, rfl⟩ := Nat.exists_eq_succ_of_ne_zero (Nat.ne_of_gt (pos_of_blockTail hk))
    cases text with
    | nil => cases hk
    | cons y text =>
      rw [List.take_succ_cons, List.cons_append] at hlater
      cases hlater
      exact hend text hx rfl

theorem prefix_space {mark u v w : List Char} (hw : ∀ d ∈ w.head?, d ∉ mark)
    (hlen : mark <+: u ++ v → mark.length ≤ u.length) : mark <+: u ++ w ↔ mark <+: u ++ v := by
  constructor
  · intro h
    rcases Nat.lt_or_ge u.length mark.length with hlt | hle
    · cases w with
      | nil => exact absurd h.length_le (by simpa using hlt)
      | cons d w =>
        have hmem : u ++ [d] <+: mark := by
          have hnew : u ++ [d] <+: u ++ d :: w := ⟨w, by simp⟩
          exact List.prefix_of_prefix_length_le hnew h (by simpa [Nat.succ_le_iff] using hlt)
        exact absurd (hmem.subset (by simp)) (hw d rfl)
    · exact (List.prefix_of_prefix_length_le h (List.prefix_append u _) hle).trans
        (List.prefix_append u v)
  · intro h
    exact (List.prefix_of_prefix_length_le h (List.prefix_append u v) (hlen h)).trans
      (List.prefix_append u _)

theorem prefix_singleton_iff {text : List Char} {c : Char} :
    [c] <+: text ↔ text.head? = some c := by
  cases text with
  | nil => simp
  | cons x text => simp [eq_comm]

theorem mark?_eq (c : Char) (rest : List Char) : mark? c rest =
    if c = '.' ∧ ['.', '.'] <+: rest then some (.ellipsis, 2)
    else if c = '<' ∧ ['-'] <+: rest then some (.arrow, 1)
    else mark? c [] := by
  by_cases hdots : c = '.' ∧ ['.', '.'] <+: rest
  · obtain ⟨rfl, rest, rfl⟩ := hdots
    rfl
  rw [if_neg hdots]
  by_cases hdash : c = '<' ∧ ['-'] <+: rest
  · obtain ⟨rfl, rest, rfl⟩ := hdash
    rfl
  rw [if_neg hdash]
  fun_cases mark? c rest with
  | case1 => exact absurd ⟨rfl, by simp⟩ hdots
  | case2 => exact absurd ⟨rfl, by simp⟩ hdash
  | case13 => rw [mark?] <;> first | assumption | (intro _ _ h; cases h)
  | _ => rfl

theorem mark?_space {c : Char} {u v w : List Char} (hw : StartsSpace w)
    (hlen : ∀ kind n, mark? c (u ++ v) = some (kind, n) → n ≤ u.length) :
    mark? c (u ++ w) = mark? c (u ++ v) := by
  have hnew {x : Char} (hx : isSpace x = false) : ∀ d ∈ w.head?, d ≠ x :=
    fun d hd ↦ ne_of_isSpace (hw d hd) hx
  have hdots : c = '.' ∧ ['.', '.'] <+: u ++ w ↔ c = '.' ∧ ['.', '.'] <+: u ++ v := by
    refine and_congr_right fun hc ↦
      prefix_space (by simpa using hnew (x := '.') (by decide)) fun h ↦ ?_
    exact hlen .ellipsis 2 (by rw [mark?_eq, if_pos ⟨hc, h⟩])
  have hdash : c = '<' ∧ ['-'] <+: u ++ w ↔ c = '<' ∧ ['-'] <+: u ++ v := by
    refine and_congr_right fun hc ↦
      prefix_space (by simpa using hnew (x := '-') (by decide)) fun h ↦ ?_
    exact hlen .arrow 1 (by rw [mark?_eq, if_neg (by simp [hc]), if_pos ⟨hc, h⟩])
  rw [mark?_eq c (u ++ w), mark?_eq c (u ++ v)]
  simp only [hdots, hdash]

theorem slash_space {c x : Char} {u v w : List Char} (hw : StartsSpace w) (hx : isSpace x = false)
    (hlen : c = '/' ∧ (u ++ v).head? = some x → 0 < u.length) :
    c = '/' ∧ (u ++ w).head? = some x ↔ c = '/' ∧ (u ++ v).head? = some x := by
  refine and_congr_right fun hc ↦ ?_
  rw [← prefix_singleton_iff, ← prefix_singleton_iff]
  refine prefix_space (fun d hd ↦ ?_) fun h ↦ hlen ⟨hc, prefix_singleton_iff.1 h⟩
  simpa using ne_of_isSpace (hw d hd) hx

theorem exists_cons_of_head? {x : Char} {tail rest : List Char} (h : (tail ++ rest).head? = some x)
    (hne : tail ≠ []) : ∃ later, tail = x :: later := by
  cases tail with
  | nil => exact absurd rfl hne
  | cons y later =>
    obtain rfl : y = x := by simpa using h
    exact ⟨later, rfl⟩

theorem exists_cons_of_line {tail rest : List Char} (hrest : (tail ++ rest).head? = some '/')
    (hn : ((tail ++ rest).takeWhile (· ≠ '\n')).length = tail.length) :
    ∃ later, tail = '/' :: later := by
  refine exists_cons_of_head? hrest ?_
  rintro rfl
  obtain ⟨later, hlater⟩ := List.head?_eq_some_iff.1 hrest
  simp [hlater] at hn

theorem exists_cons_of_block {tail rest : List Char} {k : Nat}
    (hrest : (tail ++ rest).head? = some '*') (hn : tail.length = k + 1) :
    ∃ later, tail = '*' :: later ∧ later.length = k := by
  obtain ⟨later, rfl⟩ := exists_cons_of_head? hrest (List.ne_nil_of_length_eq_add_one hn)
  exact ⟨later, rfl, Nat.succ.inj hn⟩

/-- What starts with this character ends in front of `w` where it ended in front of `v`. -/
theorem Extends.space {c : Char} {tail u v w : List Char} {shape : Shape} (hw : StartsSpace w)
    (h : Extends c (tail ++ (u ++ v)) tail.length shape) (hopen : shape.isOpen = false)
    (hline : u = [] → fillsLine ⟨shape, c :: tail⟩ = false) :
    Extends c (tail ++ (u ++ w)) tail.length shape := by
  cases h with
  | newline hc hn => exact .newline hc hn
  | blank hc hn => exact .blank hc hn
  | word hc hn hkind =>
    obtain ⟨-, htail⟩ := takeWhile_space (w := w) hn fun _ d hd ↦ inWord_of_isSpace (hw d hd)
    rw [List.take_left] at hkind
    exact .word hc (by rw [htail]) (by rwa [List.take_left])
  | number hc hn =>
    obtain ⟨-, htail⟩ := takeWhile_space (w := w) hn fun _ d hd ↦ inNumber_of_isSpace (hw d hd)
    exact .number hc (by rw [htail])
  | quoted hc hn =>
    have hend := quotedTail_take hn (u ++ w)
    rw [List.take_left] at hend
    exact .quoted hc hend
  | raw hc hn =>
    have hend := rawTail_take hn (u ++ w)
    rw [List.take_left] at hend
    exact .raw hc hend
  | openQuoted | openRaw | openBlock => cases hopen
  | line hc hrest hn =>
    obtain ⟨later, rfl⟩ := exists_cons_of_line hrest hn
    obtain ⟨-, htail⟩ :=
      takeWhile_space (w := w) hn fun hu ↦ absurd (hline hu) (by simp [fillsLine])
    exact .line hc rfl (by rw [htail])
  | block hc hrest hk hn =>
    obtain ⟨later, rfl, rfl⟩ := exists_cons_of_block hrest hn
    have hend := blockTail_take hk (u ++ w)
    rw [List.cons_append, List.tail_cons, List.take_left] at hend
    exact .block hc rfl hend rfl
  | mark h =>
    rw [← List.append_assoc] at h ⊢
    refine .mark ((mark?_space hw fun kind n hm ↦ ?_).trans h)
    obtain ⟨-, rfl⟩ := Prod.mk.inj (Option.some.inj (h.symm.trans hm))
    rw [List.length_append]
    exact Nat.le_add_right ..
  | unknown hspace hword hdigit hliteral hcomment hblock h hn =>
    obtain rfl := List.eq_nil_of_length_eq_zero hn
    rw [List.nil_append] at hcomment hblock h ⊢
    refine .unknown hspace hword hdigit hliteral (fun hnew ↦ hcomment ?_)
      (fun hnew ↦ hblock ?_) ?_ rfl
    · exact (slash_space hw (by decide) fun hold ↦ absurd hold hcomment).1 hnew
    · exact (slash_space hw (by decide) fun hold ↦ absurd hold hblock).1 hnew
    · exact (mark?_space hw fun kind n hm ↦ by simp [h] at hm).trans h

theorem quotedTail_le (text : List Char) : (quotedTail text).2 ≤ text.length := by
  fun_induction quotedTail text with
  | case1 => exact Nat.le_refl _
  | case2 => exact Nat.succ_le_succ (Nat.zero_le _)
  | case3 => exact Nat.zero_le _
  | case4 x text closed k hk ih =>
    rw [hk] at ih
    exact Nat.succ_le_succ (Nat.succ_le_succ ih)
  | case5 x text _ _ _ closed k hk ih =>
    rw [hk] at ih
    exact Nat.succ_le_succ ih

theorem rawTail_le (text : List Char) : (rawTail text).2 ≤ text.length := by
  fun_induction rawTail text with
  | case1 => exact Nat.le_refl _
  | case2 => exact Nat.succ_le_succ (Nat.zero_le _)
  | case3 x text _ closed k hk ih =>
    rw [hk] at ih
    exact Nat.succ_le_succ ih

theorem blockTail_le (text : List Char) : (blockTail text).2 ≤ text.length := by
  fun_induction blockTail text with
  | case1 => exact Nat.le_refl _
  | case2 => exact Nat.succ_le_succ (Nat.succ_le_succ (Nat.zero_le _))
  | case3 x text _ closed k hk ih =>
    rw [hk] at ih
    exact Nat.succ_le_succ ih

theorem eq_zero_of_mark? {c : Char} {kind : TokenKind} {n : Nat} (h : mark? c [] = some (kind, n)) :
    n = 0 := by
  unfold mark? at h
  split at h <;> first | contradiction | (cases h; rfl)

theorem mark?_le {c : Char} {rest : List Char} {kind : TokenKind} {n : Nat}
    (h : mark? c rest = some (kind, n)) : n ≤ rest.length := by
  rw [mark?_eq] at h
  split at h
  · rename_i hdots
    cases h
    exact hdots.2.length_le
  · split at h
    · rename_i hdash
      cases h
      exact hdash.2.length_le
    · rw [eq_zero_of_mark? h]
      exact Nat.zero_le _

theorem Extends.le {c : Char} {rest : List Char} {n : Nat} {shape : Shape}
    (h : Extends c rest n shape) : n ≤ rest.length := by
  cases h with
  | newline _ hn | blank _ hn => exact hn ▸ Nat.zero_le _
  | unknown _ _ _ _ _ _ _ hn => exact hn ▸ Nat.zero_le _
  | word _ hn | number _ hn => exact hn ▸ (List.takeWhile_prefix _).length_le
  | quoted _ hn | openQuoted _ hn => simpa [hn] using quotedTail_le rest
  | raw _ hn | openRaw _ hn => simpa [hn] using rawTail_le rest
  | line _ _ hn => exact hn ▸ (List.takeWhile_prefix _).length_le
  | block _ hrest hk hn | openBlock _ hrest hk hn =>
    obtain ⟨later, rfl⟩ := List.head?_eq_some_iff.1 hrest
    have hle := blockTail_le later
    rw [List.tail_cons] at hk
    rw [hk] at hle
    exact hn ▸ Nat.succ_le_succ hle
  | mark h => exact mark?_le h

theorem length_take_extent {c : Char} {rest : List Char} {n : Nat} {shape : Shape}
    (h : extent c rest = (shape, n)) : (rest.take n).length = n :=
  List.length_take_of_le (extent_eq_iff.1 h).le

end Piece

end Understudy
