import Mathlib.Data.List.Pairwise
import Mathlib.Data.List.Sort
import Mathlib.Data.UInt
import Understudy.Ty.MethodSet

namespace Understudy

namespace Text

def bytes (text : String) : List UInt8 := text.toUTF8.data.toList

theorem bytes_eq (text : String) : bytes text = text.toList.flatMap String.utf8EncodeChar := by
  rw [bytes, String.toUTF8, ← String.utf8Encode_toList, List.utf8Encode, List.data_toByteArray]

theorem utf8EncodeChar_lt {c d : Char} (h : c < d) (rest rest' : List UInt8) :
    String.utf8EncodeChar c ++ rest < String.utf8EncodeChar d ++ rest' := by
  have hlt : c.val.toNat < d.val.toNat := UInt32.lt_iff_toNat_lt.1 (Char.lt_def.1 h)
  have hd : d.val.toNat < 1114112 := by
    rcases d.valid with h | h <;> omega
  unfold String.utf8EncodeChar
  generalize c.val.toNat = v at hlt
  generalize d.val.toNat = w at hlt hd
  -- Each byte after the first has the next six bits.
  have h₂ (n : Nat) : n / 4096 = n / 64 / 64 := by omega
  have h₃ (n : Nat) : n / 262144 = n / 64 / 64 / 64 := by omega
  simp only [h₂, h₃]
  split_ifs
  all_goals
    simp only [List.cons_append, List.nil_append, List.cons_lt_cons_iff, UInt8.lt_iff_toNat_lt,
      ← UInt8.toNat_inj, UInt8.toNat_ofNat']
    omega

theorem bytes_lt_bytes {a b : String} (h : a < b) : bytes a < bytes b := by
  have hchars : a.toList < b.toList := h
  rw [bytes_eq, bytes_eq]
  generalize a.toList = cs at hchars
  generalize b.toList = ds at hchars
  induction cs generalizing ds with
  | nil =>
    cases ds with
    | nil => exact absurd hchars (List.lt_irrefl _)
    | cons d ds =>
      rw [List.flatMap_nil, List.flatMap_cons]
      cases hd : String.utf8EncodeChar d with
      | nil => exact absurd hd (String.utf8EncodeChar_ne_nil)
      | cons b bs => exact List.nil_lt_cons ..
  | cons c cs ih =>
    cases ds with
    | nil => exact absurd hchars (List.not_lt_nil _)
    | cons d ds =>
      rw [List.flatMap_cons, List.flatMap_cons]
      rcases List.cons_lt_cons_iff.1 hchars with hlt | ⟨rfl, hlt⟩
      · exact utf8EncodeChar_lt hlt _ _
      · exact List.append_left_lt (ih ds hlt)

end Text

namespace Ty

variable {methods methods' : List (Method Ty)} {last : Option String}

theorem lt_of_le_of_ne {a b : String} (h : a ≤ b) (hne : a ≠ b) : a < b :=
  String.not_le.1 fun h' ↦ hne (String.le_antisymm h h')

theorem pairwise_dropRepeats (h : methods.Pairwise fun a b ↦ a.name ≤ b.name)
    (hlast : ∀ name ∈ last, ∀ m ∈ methods, name ≤ m.name) :
    (∀ name ∈ last, ∀ m ∈ dropRepeats last methods, name < m.name) ∧
      (dropRepeats last methods).Pairwise fun a b ↦ a.name < b.name := by
  induction methods generalizing last with
  | nil => exact ⟨fun _ _ ↦ List.forall_mem_nil _, .nil⟩
  | cons m rest ih =>
    obtain ⟨hm, hrest⟩ := List.pairwise_cons.1 h
    rw [dropRepeats]
    split
    · exact ih hrest fun name hname x hx ↦ hlast name hname x (List.mem_cons_of_mem _ hx)
    · rename_i hne
      have hleast : ∀ name ∈ some m.name, ∀ x ∈ rest, name ≤ x.name :=
        fun name hname x hx ↦ Option.mem_some.1 hname ▸ hm x hx
      obtain ⟨hlater, hpairwise⟩ := ih hrest hleast
      have hfirst := hlater m.name rfl
      refine ⟨fun name hname ↦ List.forall_mem_cons.2 ?_, List.pairwise_cons.2 ⟨hfirst, hpairwise⟩⟩
      have hlt : name < m.name := by
        refine lt_of_le_of_ne (hlast name hname m (List.mem_cons_self ..)) ?_
        rintro rfl
        exact hne hname
      exact ⟨hlt, fun x hx ↦ String.lt_trans hlt (hfirst x hx)⟩

theorem find?_dropRepeats (h : methods.Pairwise fun a b ↦ a.name ≤ b.name)
    (hlast : ∀ name ∈ last, ∀ m ∈ methods, name ≤ m.name) (name : String) :
    (dropRepeats last methods).find? (·.name = name) =
      if last = some name then none else methods.find? (·.name = name) := by
  induction methods generalizing last with
  | nil => simp [dropRepeats]
  | cons m rest ih =>
    obtain ⟨hm, hrest⟩ := List.pairwise_cons.1 h
    rw [dropRepeats]
    split
    · rename_i heq
      rw [ih hrest fun name hname x hx ↦ hlast name hname x (List.mem_cons_of_mem _ hx)]
      by_cases hname : m.name = name
      · rw [if_pos (heq.trans (congrArg some hname)), if_pos (heq.trans (congrArg some hname))]
      · rw [List.find?_cons_of_neg (by simpa using hname)]
    · rename_i hne
      by_cases hname : m.name = name
      · subst hname
        rw [List.find?_cons_of_pos (by simp), List.find?_cons_of_pos (by simp), if_neg hne]
      · have hleast : ∀ name ∈ some m.name, ∀ x ∈ rest, name ≤ x.name :=
          fun name hname x hx ↦ Option.mem_some.1 hname ▸ hm x hx
        rw [List.find?_cons_of_neg (by simpa using hname),
          List.find?_cons_of_neg (by simpa using hname),
          ih hrest hleast, if_neg fun h ↦ hname (Option.some.inj h)]
        split
        · rename_i hl
          -- All methods from here on have greater names than the last one dropped.
          refine List.find?_eq_none.2 fun x hx heq ↦ hname ?_
          have hx' := hm x hx
          rw [of_decide_eq_true heq] at hx'
          exact String.le_antisymm hx' (hlast name hl m (List.mem_cons_self ..))
        · rfl

theorem pairwise_mergeSort (methods : List (Method Ty)) :
    (methods.mergeSort fun a b ↦ a.name ≤ b.name).Pairwise fun a b ↦ a.name ≤ b.name := by
  have h : (methods.mergeSort fun a b ↦ a.name ≤ b.name).Pairwise fun a b ↦
      decide (a.name ≤ b.name) = true :=
    List.pairwise_mergeSort
      (fun a b c hab hbc ↦
        by simpa using String.le_trans (of_decide_eq_true hab) (of_decide_eq_true hbc))
      (fun a b ↦ by simpa using String.le_total a.name b.name) methods
  exact h.imp fun hab ↦ of_decide_eq_true hab

theorem find?_mergeSort (methods : List (Method Ty)) (name : String) :
    (methods.mergeSort fun a b ↦ a.name ≤ b.name).find? (·.name = name) =
      methods.find? (·.name = name) := by
  have hname : ∀ m ∈ methods.filter (·.name = name), m.name = name := fun m hm ↦ by
    simpa using (List.mem_filter.1 hm).2
  have hsorted : (methods.filter (·.name = name)).Pairwise fun a b ↦
      decide (a.name ≤ b.name) = true := by
    refine List.pairwise_of_forall_mem_list fun a ha b hb ↦ ?_
    rw [hname a ha, hname b hb]
    exact decide_eq_true (String.le_refl _)
  have hsub : (methods.filter (·.name = name)).Sublist
      (methods.mergeSort fun a b ↦ a.name ≤ b.name) :=
    List.sublist_mergeSort
      (fun a b c hab hbc ↦
        by simpa using String.le_trans (of_decide_eq_true hab) (of_decide_eq_true hbc))
      (fun a b ↦ by simpa using String.le_total a.name b.name) hsorted List.filter_sublist
  have hfilter := hsub.filter (·.name = name)
  simp only [List.filter_filter, Bool.and_self] at hfilter
  rw [← List.head?_filter, ← List.head?_filter, ← hfilter.eq_of_length]
  exact ((List.mergeSort_perm methods _).filter _).length_eq.symm

theorem pairwise_methodSet (methods : List (Method Ty)) :
    (methodSet methods).Pairwise fun a b ↦ a.name < b.name :=
  (pairwise_dropRepeats (pairwise_mergeSort methods) fun name h ↦
    absurd h (Option.not_mem_none name)).2

theorem find?_methodSet (methods : List (Method Ty)) (name : String) :
    (methodSet methods).find? (·.name = name) = methods.find? (·.name = name) := by
  rw [methodSet, find?_dropRepeats (pairwise_mergeSort methods) fun name h ↦
    absurd h (Option.not_mem_none name), if_neg (by simp), find?_mergeSort]

theorem find?_of_pairwise (h : methods.Pairwise fun a b ↦ a.name < b.name) {m : Method Ty}
    (hm : m ∈ methods) : methods.find? (·.name = m.name) = some m := by
  induction methods with
  | nil => exact absurd hm List.not_mem_nil
  | cons first rest ih =>
    obtain ⟨hfirst, hrest⟩ := List.pairwise_cons.1 h
    rw [List.find?_cons]
    rcases List.mem_cons.1 hm with rfl | hm
    · rw [decide_eq_true rfl]
    · have hne : first.name ≠ m.name := by
        intro heq
        have hlt := hfirst m hm
        rw [heq] at hlt
        exact String.lt_irrefl _ hlt
      rw [decide_eq_false hne]
      exact ih hrest hm

theorem mem_methodSet_iff {m : Method Ty} :
    m ∈ methodSet methods ↔ methods.find? (·.name = m.name) = some m := by
  rw [← find?_methodSet]
  exact ⟨find?_of_pairwise (pairwise_methodSet methods), List.mem_of_find?_eq_some⟩

theorem mem_of_mem_methodSet {m : Method Ty} (h : m ∈ methodSet methods) : m ∈ methods :=
  List.mem_of_find?_eq_some (mem_methodSet_iff.1 h)

theorem exists_mem_methodSet {m : Method Ty} (h : m ∈ methods) :
    ∃ m' ∈ methodSet methods, m'.name = m.name := by
  have hsome : (methods.find? (·.name = m.name)).isSome := by
    rw [List.find?_isSome]
    exact ⟨m, h, decide_eq_true rfl⟩
  obtain ⟨m', hm'⟩ := Option.isSome_iff_exists.1 hsome
  have hname : m'.name = m.name := by simpa using List.find?_some hm'
  exact ⟨m', mem_methodSet_iff.2 (hname ▸ hm'), hname⟩

theorem find?_of_prefix {own : List (Method Ty)} (h : own <+: methods) {m : Method Ty}
    (hm : m ∈ methodSet methods) (hown : ∃ m' ∈ own, m'.name = m.name) :
    own.find? (·.name = m.name) = some m := by
  obtain ⟨later, rfl⟩ := h
  rw [mem_methodSet_iff, List.find?_append] at hm
  have hsome : (own.find? (·.name = m.name)).isSome := by
    rw [List.find?_isSome]
    exact hown.imp fun m' h ↦ ⟨h.1, decide_eq_true h.2⟩
  obtain ⟨first, hfirst⟩ := Option.isSome_iff_exists.1 hsome
  rwa [hfirst, Option.some_or, ← hfirst] at hm

instance : Std.Asymm fun a b : Method Ty ↦ a.name < b.name := ⟨fun _ _ ↦ String.lt_asymm⟩

theorem methodSet_congr
    (h : ∀ name, methods.find? (·.name = name) = methods'.find? (·.name = name)) :
    methodSet methods = methodSet methods' := by
  refine (pairwise_methodSet methods).eq_of_mem_iff (pairwise_methodSet methods') fun m ↦ ?_
  rw [mem_methodSet_iff, mem_methodSet_iff, h]

theorem methodSet_eq {ordered : List (Method Ty)}
    (h : ordered.Pairwise fun a b ↦ a.name < b.name)
    (hfirst : ∀ m ∈ ordered, methods.find? (·.name = m.name) = some m)
    (hall : ∀ m ∈ methods, ∃ m' ∈ ordered, m'.name = m.name) : methodSet methods = ordered := by
  refine (pairwise_methodSet methods).eq_of_mem_iff h fun m ↦ ?_
  rw [mem_methodSet_iff]
  refine ⟨fun hm ↦ ?_, hfirst m⟩
  obtain ⟨m', hm', hname⟩ := hall m (List.mem_of_find?_eq_some hm)
  have hm'' := hfirst m' hm'
  rw [hname, hm, Option.some_inj] at hm''
  rwa [hm'']

theorem exists_mem_methodSet_iff {name : String} :
    name ∈ (methodSet methods).map (·.name) ↔ ∃ m ∈ methods, m.name = name := by
  rw [List.mem_map]
  constructor
  · rintro ⟨m, hm, hname⟩
    exact ⟨m, mem_of_mem_methodSet hm, hname⟩
  · rintro ⟨m, hm, rfl⟩
    exact exists_mem_methodSet hm

theorem names_methodSet_congr (h : ∀ m, m ∈ methods ↔ m ∈ methods') :
    (methodSet methods).map (·.name) = (methodSet methods').map (·.name) := by
  have hordered (ms : List (Method Ty)) : ((methodSet ms).map (·.name)).Pairwise (· < ·) :=
    List.pairwise_map.2 (pairwise_methodSet ms)
  refine (hordered methods).eq_of_mem_iff (hordered methods') fun name ↦ ?_
  simp only [exists_mem_methodSet_iff, h]

/-- If one name never goes with two methods, the order in which they came in does not matter. -/
theorem find?_congr_of_mem_iff (h : ∀ m, m ∈ methods ↔ m ∈ methods')
    (hone : ∀ m ∈ methods, ∀ m' ∈ methods, m.name = m'.name → m = m') (name : String) :
    methods.find? (·.name = name) = methods'.find? (·.name = name) := by
  cases hfirst : methods.find? (·.name = name) with
  | none =>
    rw [eq_comm, List.find?_eq_none]
    exact fun m hm ↦ List.find?_eq_none.1 hfirst m ((h m).2 hm)
  | some m =>
    have hm := List.mem_of_find?_eq_some hfirst
    have hname : m.name = name := by simpa using List.find?_some hfirst
    have hsome : (methods'.find? (·.name = name)).isSome := by
      rw [List.find?_isSome]
      exact ⟨m, (h m).1 hm, decide_eq_true hname⟩
    obtain ⟨m', hfirst'⟩ := Option.isSome_iff_exists.1 hsome
    have hname' : m'.name = name := by simpa using List.find?_some hfirst'
    have hm' := (h m').2 (List.mem_of_find?_eq_some hfirst')
    rw [hfirst', hone m hm m' hm' (hname.trans hname'.symm)]

end Ty

end Understudy
