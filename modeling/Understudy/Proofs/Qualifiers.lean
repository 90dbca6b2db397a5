import Mathlib.Data.Finset.Card
import Mathlib.Data.Finset.Dedup
import Mathlib.Data.Finset.Image
import Mathlib.Data.List.Nodup
import Mathlib.Data.List.Perm.Subperm
import Mathlib.Order.Bounds.Defs
import Understudy.ImportRegistry
import Understudy.Proofs.Lexemes

namespace Understudy

section Words

theorem Text.trim_eq_self {s : String} (h : ∀ c ∈ s.toList, isBlank c = false) : trim s = s := by
  have hdrop : ∀ text : List Char, (∀ c ∈ text, isBlank c = false) →
      text.dropWhile isBlank = text := by
    intro text ht
    cases text with
    | nil => rfl
    | cons c rest =>
      rw [List.dropWhile_cons, ht c (List.mem_cons_self ..), if_neg Bool.false_ne_true]
  rw [trim, dropEnd, hdrop _ h, hdrop _ fun c hc ↦ h c (List.mem_reverse.1 hc),
    List.reverse_reverse, String.ofList_toList]

theorem Piece.not_isBlank_of_inWord {c : Char} (h : inWord c = true) : Text.isBlank c = false := by
  have hword : c.toNat = 95 ∨ (48 ≤ c.toNat ∧ c.toNat ≤ 57) ∨ (65 ≤ c.toNat ∧ c.toNat ≤ 90) ∨
      (97 ≤ c.toNat ∧ c.toNat ≤ 122) := by
    simp only [inWord, Char.isAlphanum, Bool.or_eq_true, Piece.isAlpha_iff_toNat,
      Char.isDigit_iff_toNat, beq_iff_eq] at h
    rcases h with (h | h) | rfl
    · exact .inr (.inr h)
    · exact .inr (.inl h)
    · exact .inl rfl
  cases hb : Text.isBlank c with
  | false => rfl
  | true =>
    simp only [Text.isBlank, Bool.or_eq_true, Bool.and_eq_true, decide_eq_true_eq, beq_iff_eq] at hb
    omega

theorem Token.inWord_of_isIdentifier {word : String} (h : isIdentifier word = true) :
    ∀ c ∈ word.toList, Piece.inWord c = true := by
  obtain ⟨c, rest, hword, hc, hrest⟩ := isWord_iff.1 (isIdentifier_iff.1 h).1
  intro x hx
  rw [hword] at hx
  rcases List.mem_cons.1 hx with rfl | hx
  · exact Piece.inWord_of_startsWord hc
  · exact hrest x hx

theorem Token.trim_of_isIdentifier {word : String} (h : isIdentifier word = true) :
    Text.trim word = word :=
  Text.trim_eq_self fun c hc ↦ Piece.not_isBlank_of_inWord (inWord_of_isIdentifier h c hc)

theorem TokenKind.ofWord_of_digit {word : String} {c : Char} (hc : c ∈ word.toList)
    (hd : c.isDigit = true) :
    ofWord word = .ident := by
  have hne : ∀ keyword : String, keyword.toList.any Char.isDigit = false → word ≠ keyword := by
    rintro keyword hk rfl
    exact absurd hd (List.any_eq_false.1 hk c hc)
  simp only [ofWord, hne "package" (by decide), hne "import" (by decide), hne "type" (by decide),
    hne "func" (by decide), hne "interface" (by decide), hne "struct" (by decide),
    hne "map" (by decide), hne "chan" (by decide), if_false]

theorem Token.isIdentifier_append_repr {word : String} (h : isIdentifier word = true) (n : Nat) :
    isIdentifier (word ++ Nat.repr n) = true := by
  obtain ⟨c, rest, hword, hc, hrest⟩ := isWord_iff.1 (isIdentifier_iff.1 h).1
  have hd : ∀ x ∈ (Nat.repr n).toList, x.isDigit = true := by
    rw [Nat.toList_repr]
    exact fun x hx ↦ Nat.isDigit_of_mem_toDigits (by decide) (by decide) hx
  refine isIdentifier_iff.2 ⟨isWord_iff.2 ⟨c, rest ++ (Nat.repr n).toList, ?_, hc, ?_⟩, ?_⟩
  · rw [String.toList_append, hword, List.cons_append]
  · intro x hx
    rcases List.mem_append.1 hx with hx | hx
    · exact hrest x hx
    · exact Piece.inWord_of_isDigit (hd x hx)
  · obtain ⟨x, hx⟩ := List.exists_mem_of_ne_nil (Nat.repr n).toList (by
      rw [Nat.toList_repr]
      exact Nat.toDigits_ne_nil)
    have hmem : x ∈ (word ++ Nat.repr n).toList := by
      rw [String.toList_append]
      exact List.mem_append_right _ hx
    exact TokenKind.ofWord_of_digit hmem (hd x hx)

end Words

namespace ImportRegistry

theorem isTaken_iff {r : ImportRegistry} {qualifier : String} :
    r.isTaken qualifier = true ↔ qualifier ∈ r.entries.map (·.qualifier) := by
  simp [isTaken]

theorem isTaken_eq_false_iff {r : ImportRegistry} {qualifier : String} :
    r.isTaken qualifier = false ↔ ∀ i ∈ r.entries, i.qualifier ≠ qualifier := by
  simp [isTaken]

theorem append_repr_injective (hint : String) : Function.Injective fun n ↦ hint ++ Nat.repr n := by
  intro a b h
  have hchars := congrArg String.toList h
  simp only [String.toList_append, Nat.toList_repr, List.append_cancel_left_eq] at hchars
  rw [← Nat.ofDigitChars_ten_toDigits (n := a), hchars, Nat.ofDigitChars_ten_toDigits]

theorem ne_append_repr (hint : String) (n : Nat) : hint ≠ hint ++ Nat.repr n := by
  intro h
  have hlen := congrArg (fun s : String ↦ s.toList.length) h
  have hpos := List.length_pos_of_ne_nil (Nat.toDigits_ne_nil (n := n) (b := 10))
  simp only [String.toList_append, Nat.toList_repr, List.length_append] at hlen
  omega

theorem exists_free {r : ImportRegistry} {hint : String} (h : r.isTaken hint = true) :
    ∃ n, (List.range' 1 r.entries.length).find? (fun n ↦ !r.isTaken (hint ++ Nat.repr n)) =
      some n := by
  rw [← Option.isSome_iff_exists, List.find?_isSome]
  by_contra hnone
  have htaken : ∀ n ∈ List.range' 1 r.entries.length, hint ++ Nat.repr n ∈ r.entries.map
      (·.qualifier) := by
    intro n hn
    rw [← isTaken_iff]
    by_contra hfree
    exact hnone ⟨n, hn, by simpa using hfree⟩
  have hsub : hint :: (List.range' 1 r.entries.length).map (hint ++ Nat.repr ·) ⊆
      r.entries.map (·.qualifier) := by
    intro x hx
    rcases List.mem_cons.1 hx with rfl | hx
    · exact isTaken_iff.1 h
    · obtain ⟨n, hn, rfl⟩ := List.mem_map.1 hx
      exact htaken n hn
  have hnodup : (hint :: (List.range' 1 r.entries.length).map (hint ++ Nat.repr ·)).Nodup := by
    refine List.nodup_cons.2 ⟨?_, (List.nodup_range' ..).map (append_repr_injective hint)⟩
    intro hx
    obtain ⟨n, -, hn⟩ := List.mem_map.1 hx
    exact ne_append_repr hint n hn.symm
  have hlen := (hnodup.subperm hsub).length_le
  simp only [List.length_cons, List.length_map, List.length_range'] at hlen
  omega

theorem not_isTaken_freeQualifier (r : ImportRegistry) (hint : String) :
    r.isTaken (r.freeQualifier hint) = false := by
  unfold freeQualifier
  split
  · rename_i h
    obtain ⟨n, hn⟩ := exists_free h
    rw [hn]
    simpa using List.find?_some hn
  · rename_i h
    simpa using h

theorem freeQualifier_eq (r : ImportRegistry) (hint : String) :
    r.freeQualifier hint = hint ∨ ∃ n, r.freeQualifier hint = hint ++ Nat.repr n := by
  unfold freeQualifier
  split
  · split
    · exact .inr ⟨_, rfl⟩
    · exact .inl rfl
  · exact .inl rfl

theorem isIdentifier_freeQualifier (r : ImportRegistry) {hint : String}
    (h : Token.isIdentifier hint = true) : Token.isIdentifier (r.freeQualifier hint) = true := by
  rcases r.freeQualifier_eq hint with he | ⟨n, he⟩
  · rwa [he]
  · rw [he]
    exact Token.isIdentifier_append_repr h n

theorem freeQualifier_ne (r : ImportRegistry) {hint : String} (h : hint ≠ "_") :
    r.freeQualifier hint ≠ "_" := by
  rcases r.freeQualifier_eq hint with he | ⟨n, he⟩
  · rwa [he]
  · intro hu
    have hd : '_' ∉ (Nat.repr n).toList := by
      rw [Nat.toList_repr]
      exact Nat.underscore_not_in_toDigits
    have hne : (Nat.repr n).toList ≠ [] := by
      rw [Nat.toList_repr]
      exact Nat.toDigits_ne_nil
    have hchars := congrArg String.toList (he.symm.trans hu)
    rw [String.toList_append] at hchars
    have hlast := congrArg List.getLast? hchars
    rw [List.getLast?_append_of_ne_nil _ hne] at hlast
    exact hd (List.mem_of_getLast? hlast)

section Search

variable {r : ImportRegistry} {hint : String} {n : Nat}

/-- The qualifiers of entries, without those that a number below `n` makes of `hint`. -/
def untried (r : ImportRegistry) (hint : String) (n : Nat) : Finset String :=
  (r.entries.map (·.qualifier)).toFinset \ (Finset.range n).image (hint ++ Nat.repr ·)

theorem card_untried_lt (h : r.isTaken (hint ++ Nat.repr n) = true) :
    (r.untried hint (n + 1)).card < (r.untried hint n).card := by
  have hrange : Finset.range n ⊆ Finset.range (n + 1) := Finset.range_subset_range.2 (Nat.le_succ n)
  have hsubset : r.untried hint (n + 1) ⊆ r.untried hint n :=
    Finset.sdiff_subset_sdiff (Finset.Subset.refl _) (Finset.image_subset_image hrange)
  -- The candidate is a qualifier that no smaller number made, and it has been tried from now on.
  have hold : hint ++ Nat.repr n ∈ r.untried hint n := by
    refine Finset.mem_sdiff.2 ⟨List.mem_toFinset.2 (isTaken_iff.1 h), fun hmem ↦ ?_⟩
    obtain ⟨m, hm, heq⟩ := Finset.mem_image.1 hmem
    obtain rfl : m = n := append_repr_injective hint heq
    simp at hm
  have hnew : hint ++ Nat.repr n ∉ r.untried hint (n + 1) := by
    intro hmem
    apply (Finset.mem_sdiff.1 hmem).2
    exact Finset.mem_image_of_mem _ (Finset.self_mem_range_succ n)
  apply Finset.card_lt_card
  exact (Finset.ssubset_iff_of_subset hsubset).2 ⟨_, hold, hnew⟩

/-- Goes from number to number until `hint` with the number behind it is free. -/
def numbered (r : ImportRegistry) (hint : String) (n : Nat) : String :=
  if r.isTaken (hint ++ Nat.repr n) then r.numbered hint (n + 1) else hint ++ Nat.repr n
termination_by (r.untried hint n).card
decreasing_by exact card_untried_lt ‹_›

/-- The search for a free qualifier without a bound on the numbers. -/
def search (r : ImportRegistry) (hint : String) : String :=
  if r.isTaken hint then r.numbered hint 1 else hint

theorem numbered_eq {m : Nat} (hle : n ≤ m) (hfree : r.isTaken (hint ++ Nat.repr m) = false)
    (htaken : ∀ k, n ≤ k → k < m → r.isTaken (hint ++ Nat.repr k) = true) :
    r.numbered hint n = hint ++ Nat.repr m := by
  induction hle using Nat.decreasingInduction with
  | self => rw [numbered, hfree, if_neg Bool.false_ne_true]
  | of_succ k hk ih =>
    rw [numbered, htaken k (Nat.le_refl k) hk, if_pos rfl]
    apply ih
    intro l hl
    apply htaken
    omega

/-- The numbers that make `hint` free. -/
def FreeNumbers (r : ImportRegistry) (hint : String) : Set Nat :=
  {n | 1 ≤ n ∧ ∀ i ∈ r.entries, i.qualifier ≠ hint ++ Nat.repr n}

theorem exists_isLeast (h : r.isTaken hint = true) : ∃ n ≤ r.entries.length,
    IsLeast (r.FreeNumbers hint) n ∧ r.freeQualifier hint = hint ++ Nat.repr n ∧
      r.search hint = hint ++ Nat.repr n := by
  obtain ⟨n, hn⟩ := exists_free h
  obtain ⟨hfree, hmem, hleast⟩ := List.find?_range'_eq_some.1 hn
  simp only [Bool.not_eq_true', Bool.not_not] at hfree hleast
  obtain ⟨hpos, hlt⟩ := List.mem_range'_1.1 hmem
  refine ⟨n, by omega, ⟨⟨hpos, isTaken_eq_false_iff.1 hfree⟩, fun m hm ↦ ?_⟩, ?_, ?_⟩
  · by_contra hmn
    have htaken := hleast m hm.1 (by omega)
    rw [isTaken_eq_false_iff.2 hm.2] at htaken
    cases htaken
  · rw [freeQualifier, if_pos h, hn]
  · rw [search, if_pos h]
    exact numbered_eq hpos hfree hleast

/-- A free qualifier is `hint` itself if no entry has it, and otherwise has the least number behind
it that no entry has behind `hint`. There are at least as many entries, so trying one number after
the other finds it. -/
theorem search_finds_least (r : ImportRegistry) (hint : String) :
    r.search hint = r.freeQualifier hint ∧
    ((∀ i ∈ r.entries, i.qualifier ≠ hint) ∧ r.freeQualifier hint = hint ∨
      (∃ i ∈ r.entries, i.qualifier = hint) ∧
      ∃ n ≤ r.entries.length, IsLeast (r.FreeNumbers hint) n ∧
        r.freeQualifier hint = hint ++ Nat.repr n) := by
  cases h : r.isTaken hint with
  | false =>
    have hfree : r.freeQualifier hint = hint := by rw [freeQualifier, h, if_neg Bool.false_ne_true]
    refine ⟨?_, .inl ⟨isTaken_eq_false_iff.1 h, hfree⟩⟩
    rw [hfree, search, h, if_neg Bool.false_ne_true]
  | true =>
    obtain ⟨n, hle, hleast, hfree, hsearch⟩ := exists_isLeast h
    refine ⟨hsearch.trans hfree.symm, .inr ⟨?_, n, hle, hleast, hfree⟩⟩
    simpa [isTaken] using h

-- Numbers that look like parts of longer ones count for the hint that they stand behind.
example :
    freeQualifier ⟨[⟨"log", "a", false⟩, ⟨"log1", "b", false⟩, ⟨"log3", "c", false⟩], none⟩ "log" =
      "log2" ∧
    freeQualifier ⟨[⟨"log", "a", false⟩, ⟨"log1", "b", false⟩, ⟨"log11", "c", false⟩],
      none⟩ "log1" = "log12" := by
  decide +kernel

end Search

end ImportRegistry

end Understudy
