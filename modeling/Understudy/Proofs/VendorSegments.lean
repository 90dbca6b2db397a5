import Mathlib.Data.List.DropRight
import Mathlib.Data.List.Infix
import Understudy.ModulePath

namespace Understudy

namespace Text

variable {cs ds : List Char}

theorem dropEnd_of_suffix {p : Char → Bool} (h : dropEnd p cs = cs) (hs : ds <:+ cs) :
    dropEnd p ds = ds := by
  have h : ∀ hne : cs ≠ [], ¬p (cs.getLast hne) := List.rdropWhile_eq_self_iff.1 h
  refine List.rdropWhile_eq_self_iff.2 fun hne ↦ ?_
  rw [hs.getLast hne]
  exact h _

theorem dropEnd_trim (s : String) : dropEnd isBlank (trim s).toList = (trim s).toList := by
  rw [trim, String.toList_ofList]
  exact List.rdropWhile_idempotent _ _

def startsBlank (s : String) : Bool := s.toList.head?.any isBlank

end Text

namespace ModulePath

variable {path rest : List Char}

def HasVendor (path : List Char) : Prop := vendorSegment <+: path ∨ innerVendorSegment <:+: path

theorem afterVendor?_eq_none_iff : afterVendor? path = none ↔ ¬innerVendorSegment <:+: path := by
  induction path with
  | nil => simp [afterVendor?, innerVendorSegment]
  | cons c rest ih =>
    rw [afterVendor?, List.infix_cons_iff, not_or, ← ih, ← List.isPrefixOf_iff_prefix]
    cases afterVendor? rest with
    | some found => simp
    | none => simp

theorem exists_of_afterVendor? (h : afterVendor? path = some rest) :
    innerVendorSegment ++ rest <:+ path ∧ ¬HasVendor rest := by
  induction path with
  | nil => cases h
  | cons c tail ih =>
    rw [afterVendor?] at h
    split at h
    · rename_i found hfound
      cases h
      obtain ⟨hsuffix, hnone⟩ := ih hfound
      exact ⟨hsuffix.trans (List.suffix_cons c tail), hnone⟩
    · rename_i hnone
      split at h
      · rename_i hprefix
        cases h
        obtain ⟨later, hlater⟩ := List.isPrefixOf_iff_prefix.1 hprefix
        rw [← hlater, List.drop_left]
        refine ⟨List.suffix_rfl, ?_⟩
        obtain ⟨-, rfl⟩ := List.cons.inj hlater
        rw [afterVendor?_eq_none_iff] at hnone
        rintro (⟨more, rfl⟩ | hinner)
        -- The slash of the segment found would begin the segment behind it.
        · exact hnone ⟨"vendor".toList, more, rfl⟩
        · exact hnone (hinner.trans (List.suffix_append _ _).isInfix)
      · cases h

theorem suffix_unvendorChars (path : List Char) : unvendorChars path <:+ path := by
  fun_induction unvendorChars path with
  | case1 path h ih => exact ih.trans (List.drop_suffix _ _)
  | case2 path h =>
    cases hafter : afterVendor? path with
    | none => exact List.suffix_rfl
    | some rest => exact (List.suffix_append _ _).trans (exists_of_afterVendor? hafter).1

theorem not_hasVendor_unvendorChars (path : List Char) : ¬HasVendor (unvendorChars path) := by
  fun_induction unvendorChars path with
  | case1 path h ih => exact ih
  | case2 path h =>
    cases hafter : afterVendor? path with
    | none =>
      exact not_or.2 ⟨fun hp ↦ h (List.isPrefixOf_iff_prefix.2 hp),
        afterVendor?_eq_none_iff.1 hafter⟩
    | some rest => exact (exists_of_afterVendor? hafter).2

theorem unvendorChars_of_not_hasVendor (h : ¬HasVendor path) : unvendorChars path = path := by
  obtain ⟨hfront, hinner⟩ := not_or.1 h
  rw [unvendorChars, if_neg fun hp ↦ hfront (List.isPrefixOf_iff_prefix.1 hp),
    afterVendor?_eq_none_iff.2 hinner]
  rfl

theorem toList_registered (path : String) :
    (registered path).toList = unvendorChars (Text.trim path).toList := String.toList_ofList

/-- A path in the form for import lists keeps it, unless it begins with white space. -/
theorem registered_registered_iff {path : String} :
    registered (registered path) = registered path ↔
    Text.startsBlank (registered path) = false := by
  have hend : Text.dropEnd Text.isBlank (registered path).toList = (registered path).toList := by
    rw [toList_registered]
    exact Text.dropEnd_of_suffix (Text.dropEnd_trim path) (suffix_unvendorChars _)
  have hvendor : ¬HasVendor (registered path).toList := by
    rw [toList_registered]
    exact not_hasVendor_unvendorChars _
  rw [← String.toList_inj, toList_registered, Text.trim, String.toList_ofList, Text.startsBlank]
  generalize (registered path).toList = cs at hend hvendor
  rw [Text.dropEnd_of_suffix hend (List.dropWhile_suffix _)]
  cases cs with
  | nil => simpa using unvendorChars_of_not_hasVendor hvendor
  | cons c rest =>
    rw [List.dropWhile_cons, List.head?_cons, Option.any_some]
    cases hc : Text.isBlank c with
    | false => simpa using unvendorChars_of_not_hasVendor hvendor
    | true =>
      -- What is left without the white space is shorter, and stripping segments makes nothing
      -- longer.
      have hlength := (suffix_unvendorChars (rest.dropWhile Text.isBlank)).length_le
      have hdrop := (List.dropWhile_suffix Text.isBlank (l := rest)).length_le
      simp only [if_true, Bool.true_eq_false, iff_false]
      intro heq
      rw [heq, List.length_cons] at hlength
      omega

section Segments

variable {front : List Char}

theorem isPrefixOf_inner_cons (c : Char) (path : List Char) :
    innerVendorSegment.isPrefixOf (c :: path) = ('/' == c && vendorSegment.isPrefixOf path) := rfl

theorem afterVendor?_append_of_not_mem (h : '/' ∉ front) (rest : List Char) :
    afterVendor? (front ++ rest) = afterVendor? rest := by
  induction front with
  | nil => rfl
  | cons c tail ih =>
    simp only [List.mem_cons, not_or] at h
    simp only [List.cons_append, afterVendor?, isPrefixOf_inner_cons,
      beq_eq_false_iff_ne.2 h.1, ih h.2, Bool.false_and, Bool.false_eq_true, if_false]
    cases afterVendor? rest <;> rfl

/-- A segment inside a path is followed by the rest, unless another one begins with its last slash
or in the rest. -/
theorem afterVendor?_inner (rest : List Char) :
    afterVendor? (innerVendorSegment ++ rest) = some ((afterVendor? ('/' :: rest)).getD rest) := by
  have hlater : afterVendor? (vendorSegment ++ rest) = afterVendor? ('/' :: rest) :=
    @afterVendor?_append_of_not_mem "vendor".toList (by decide) ('/' :: rest)
  have hself : innerVendorSegment.isPrefixOf ('/' :: (vendorSegment ++ rest)) = true :=
    List.isPrefixOf_iff_prefix.2 (List.prefix_append innerVendorSegment rest)
  have hdrop : ('/' :: (vendorSegment ++ rest)).drop innerVendorSegment.length = rest :=
    @List.drop_left _ innerVendorSegment rest
  change afterVendor? ('/' :: (vendorSegment ++ rest)) = _
  rw [afterVendor?, hlater, if_pos hself, hdrop]
  cases afterVendor? ('/' :: rest) <;> rfl

theorem unvendorChars_front (rest : List Char) :
    unvendorChars (vendorSegment ++ rest) = unvendorChars rest := by
  rw [unvendorChars, if_pos (List.isPrefixOf_iff_prefix.2 (List.prefix_append _ _)), List.drop_left]

theorem getD_afterVendor?_slash (rest : List Char) :
    (afterVendor? ('/' :: rest)).getD rest = unvendorChars rest := by
  fun_induction unvendorChars rest with
  | case1 path h ih =>
    obtain ⟨rest, rfl⟩ := List.isPrefixOf_iff_prefix.1 h
    rw [List.drop_left] at ih ⊢
    have hinner := afterVendor?_inner rest
    rw [ih] at hinner
    exact congrArg (Option.getD · _) hinner
  | case2 path h =>
    rw [afterVendor?, isPrefixOf_inner_cons, Bool.eq_false_iff.2 h, Bool.and_false]
    cases afterVendor? path <;> rfl

theorem afterVendor?_append_inner (front rest : List Char) :
    afterVendor? (front ++ (innerVendorSegment ++ rest)) = some (unvendorChars rest) := by
  induction front with
  | nil => rw [List.nil_append, afterVendor?_inner, getD_afterVendor?_slash]
  | cons c front ih => rw [List.cons_append, afterVendor?, ih]

theorem eq_nil_of_vendorSegment (h : vendorSegment = front ++ '/' :: rest) : rest = [] := by
  by_contra hne
  have hslash : '/' ∉ vendorSegment.dropLast := by decide
  rw [h, List.dropLast_append_of_ne_nil (List.cons_ne_nil _ _),
    List.dropLast_cons_of_ne_nil hne] at hslash
  apply hslash
  simp

theorem unvendorChars_inner (front rest : List Char) :
    unvendorChars (front ++ (innerVendorSegment ++ rest)) = unvendorChars rest := by
  generalize hpath : front ++ (innerVendorSegment ++ rest) = path
  fun_induction unvendorChars path generalizing front with
  | case1 path h ih =>
    obtain ⟨later, rfl⟩ := List.isPrefixOf_iff_prefix.1 h
    rw [List.drop_left] at ih ⊢
    obtain ⟨more, hfront, hlater⟩ | ⟨more, hfront, hlater⟩ := List.append_eq_append_iff.1 hpath
    · cases more with
      | nil => exact ih [] hlater
      | cons c more =>
        obtain rfl : '/' = c := (List.cons.inj hlater).1
        obtain rfl : more = [] := eq_nil_of_vendorSegment hfront
        obtain rfl : vendorSegment ++ rest = later := (List.cons.inj hlater).2
        exact unvendorChars_front rest
    · exact ih more hlater.symm
  | case2 path h =>
    rw [← hpath, afterVendor?_append_inner]
    rfl

end Segments

def IsVendored (path : String) : Prop :=
  (∃ rest, path = "vendor/" ++ rest) ∨ ∃ front rest, path = front ++ "/vendor/" ++ rest

theorem isVendored_iff {path : String} : IsVendored path ↔ HasVendor path.toList := by
  have hstring : ∀ cs : List Char, ∃ s : String, s.toList = cs := fun cs ↦ ⟨_, String.toList_ofList⟩
  constructor
  · rintro (⟨rest, rfl⟩ | ⟨front, rest, rfl⟩)
    · exact .inl ⟨rest.toList, by rw [String.toList_append]; rfl⟩
    · exact .inr ⟨front.toList, rest.toList,
        by rw [String.toList_append, String.toList_append]; rfl⟩
  · rintro (⟨rest, h⟩ | ⟨front, rest, h⟩)
    · obtain ⟨rest, rfl⟩ := hstring rest
      refine .inl ⟨rest, ?_⟩
      rw [← String.toList_inj, ← h, String.toList_append]
      rfl
    · obtain ⟨front, rfl⟩ := hstring front
      obtain ⟨rest, rfl⟩ := hstring rest
      refine .inr ⟨front, rest, ?_⟩
      rw [← String.toList_inj, ← h, String.toList_append, String.toList_append]
      rfl

theorem unvendor_eq_self_iff {path : String} : unvendor path = path ↔ ¬IsVendored path := by
  rw [isVendored_iff, ← String.toList_inj, unvendor, String.toList_ofList]
  constructor
  · intro h
    rw [← h]
    exact not_hasVendor_unvendorChars _
  · exact unvendorChars_of_not_hasVendor

theorem not_isVendored_unvendor (path : String) : ¬IsVendored (unvendor path) := by
  rw [isVendored_iff, unvendor, String.toList_ofList]
  exact not_hasVendor_unvendorChars _

/-- A path counts from its last `vendor` segment on: segments and what is in front of them go, an end
of the path is left, and this end has no segment any more. -/
theorem counts_from_last_segment :
    (∀ front rest, unvendor (front ++ "/vendor/" ++ rest) = unvendor rest) ∧
    (∀ rest, unvendor ("vendor/" ++ rest) = unvendor rest) ∧
    ∀ path, (∃ front, path = front ++ unvendor path) ∧ ¬IsVendored (unvendor path) ∧
      (unvendor path = path ↔ ¬IsVendored path) ∧ unvendor (unvendor path) = unvendor path := by
  refine ⟨fun front rest ↦ ?_, fun rest ↦ ?_,
    fun path ↦ ⟨?_, not_isVendored_unvendor path, unvendor_eq_self_iff, ?_⟩⟩
  · rw [unvendor, String.toList_append, String.toList_append, List.append_assoc]
    exact congrArg String.ofList (unvendorChars_inner front.toList rest.toList)
  · rw [unvendor, String.toList_append]
    exact congrArg String.ofList (unvendorChars_front rest.toList)
  · obtain ⟨front, hfront⟩ := suffix_unvendorChars path.toList
    refine ⟨String.ofList front, ?_⟩
    rw [← String.toList_inj, String.toList_append, unvendor, String.toList_ofList,
      String.toList_ofList, hfront]
  · exact unvendor_eq_self_iff.2 (not_isVendored_unvendor path)

-- Segments that share a slash, and one in front of a slash.
example : unvendor "a/vendor/vendor/b" = "b" ∧ unvendor "/vendor/vendor" = "vendor" ∧
    unvendor "vendors/a" = "vendors/a" := by decide +kernel

end ModulePath

end Understudy
