import Understudy.Proofs.Generation
import Understudy.Proofs.OrderlyImports
import Understudy.Proofs.Qualifiers

namespace Understudy

/-- A name of which no part begins with a dot. -/
structure TypeName.IsPlain (n : TypeName) : Prop where
  name : Token.isIdentifier n.name = true
  module : ∀ m, n.module = some m → Token.isIdentifier m.name = true

def BeginsVariadic (text : String) : Prop := "...".toList <+: text.toList

theorem not_beginsVariadic {text : String} (h : text.toList.head? ≠ some '.') :
    ¬BeginsVariadic text := by
  rintro ⟨rest, hrest⟩
  exact h (hrest ▸ rfl)

theorem beginsVariadic_append (text : String) : BeginsVariadic ("..." ++ text) := by
  rw [BeginsVariadic, String.toList_append]
  exact List.prefix_append ..

namespace ImportRegistry

variable {r : ImportRegistry}

def UsesIdentifiers (r : ImportRegistry) : Prop :=
  ∀ i ∈ r.entries, Token.isIdentifier i.qualifier = true

theorem usesIdentifiers_forDestination (path : String) : (forDestination path).UsesIdentifiers :=
  nofun

theorem UsesIdentifiers.register (h : r.UsesIdentifiers) {hint : String}
    (hhint : Token.isIdentifier hint = true) (path : String) :
    (r.register hint path).UsesIdentifiers := by
  have hne : hint.isEmpty = false := by
    rw [String.isEmpty_eq_false_iff]
    rintro rfl
    exact absurd hhint (by decide)
  unfold ImportRegistry.register
  simp only [newEntry, Token.trim_of_isIdentifier hhint, hne, Bool.false_eq_true, if_false]
  split
  · exact h
  · exact List.forall_mem_append.2
      ⟨h, List.forall_mem_singleton.2 (r.isIdentifier_freeQualifier hhint)⟩

theorem UsesIdentifiers.foldl_registerLeaf (h : r.UsesIdentifiers) {leaves : List Ty}
    (hleaves : ∀ t ∈ leaves, ∀ m, t.module? = some m → Token.isIdentifier m.name = true) :
    (leaves.foldl registerLeaf r).UsesIdentifiers := by
  induction leaves generalizing r with
  | nil => exact h
  | cons t rest ih =>
    obtain ⟨ht, hrest⟩ := List.forall_mem_cons.1 hleaves
    refine ih ?_ hrest
    unfold ImportRegistry.registerLeaf
    split
    · rename_i m hm
      split
      · exact h
      · exact h.register (ht m hm) _
    · exact h

theorem UsesIdentifiers.markReferenced (h : r.UsesIdentifiers) (path : String) :
    (r.markReferenced path).UsesIdentifiers := by
  have hqualifiers := map_entries_markReferenced (f := (·.qualifier)) (fun _ ↦ rfl) r path
  intro i hi
  have hmem : i.qualifier ∈ r.entries.map (·.qualifier) := hqualifiers ▸ List.mem_map_of_mem hi
  obtain ⟨j, hj, heq⟩ := List.mem_map.1 hmem
  exact heq ▸ h j hj

theorem head?_ne_dot {word : String} (h : Token.isIdentifier word = true) (rest : String) :
    (word ++ rest).toList.head? ≠ some '.' := by
  obtain ⟨c, tail, hword, hc, -⟩ := Token.isWord_iff.1 (Token.isIdentifier_iff.1 h).1
  rw [String.toList_append, hword, List.cons_append, List.head?_cons]
  rintro ⟨⟩
  exact absurd hc (by decide)

theorem head?_spell (hr : r.UsesIdentifiers) {n : TypeName} (hn : n.IsPlain) :
    (r.spell n).toList.head? ≠ some '.' := by
  rw [spell]
  split
  · rename_i i hi
    rw [String.append_assoc]
    refine head?_ne_dot (hr i ?_) _
    unfold qualifierOf? at hi
    split at hi
    · cases hi
    · split at hi
      · cases hi
      · exact List.mem_of_find?_eq_some hi
  · simpa using head?_ne_dot hn.name ""

theorem head?_render (hr : r.UsesIdentifiers) {t : Ty} (ht : ∀ n, t = .named (some n) → n.IsPlain) :
    (r.render t).toList.head? ≠ some '.' := by
  cases t with
  | basic kind =>
    rw [render]
    cases kind <;> decide
  | chan dir elem => cases dir <;> simp [render, ChanDir.mark, String.toList_append]
  | named name =>
    cases name with
    | none => simp [render]
    | some name => exact head?_spell hr (ht name rfl)
  | _ => simp [render, lengthMark, Ty.display, String.toList_append]

end ImportRegistry

namespace Fake

variable {r : ImportRegistry} {variadic : Bool} {vars : List (Var Ty)}

/-- A list of parameters in which only the last one can be variadic. It is if its method is, and its
text is then an ellipsis in front of the type that it collects; no other text begins with one. -/
structure MarksLast (r : ImportRegistry) (sig : Signature Ty) (params results : List Param) :
    Prop where
  others : ∀ p ∈ params.dropLast ++ results, p.variadic = false ∧ ¬BeginsVariadic p.text
  last : ∀ p ∈ params.getLast?, p.variadic = sig.variadic ∧
      (BeginsVariadic p.text ↔ sig.variadic = true)
  text : sig.variadic = true → ∀ elem, sig.params.getLast?.map (·.type) = some (.slice elem) →
    params.getLast?.map (·.text) = some ("..." ++ r.render elem)

theorem marksLast_render {sig : Signature Ty} (hr : r.UsesIdentifiers)
    (hnames : ∀ v ∈ sig.params ++ sig.results, ∀ n, v.type = .named (some n) → n.IsPlain)
    (hslice : sig.variadic = true → ∃ elem, sig.params.getLast?.map (·.type) = some (.slice elem)) :
    MarksLast r sig (renderVars r sig.variadic sig.params) (renderVars r false sig.results) := by
  have hplain : ∀ v ∈ sig.params ++ sig.results, ¬BeginsVariadic (r.render v.type) := fun v hv ↦
    not_beginsVariadic (ImportRegistry.head?_render hr (hnames v hv))
  have hrendered : ∀ vars ⊆ sig.params ++ sig.results,
      ∀ p ∈ vars.map fun v ↦ (⟨v.name, r.render v.type, false⟩ : Param), p.variadic = false ∧
      ¬BeginsVariadic p.text := by
    intro vars hvars p hp
    obtain ⟨v, hv, rfl⟩ := List.mem_map.1 hp
    exact ⟨rfl, hplain v (hvars hv)⟩
  obtain ⟨params, results, variadic⟩ := sig
  rw [renderVars_false]
  rcases List.eq_nil_or_concat params with rfl | ⟨init, v, rfl⟩
  · exact ⟨hrendered results (List.subset_append_right ..), nofun, nofun⟩
  · rw [List.concat_eq_append] at *
    have hend : ∀ elem, v.type = .slice elem → variadicText r v.type = "..." ++ r.render elem :=
      fun elem he ↦ by
      rw [he, variadicText]
    rw [renderVars_concat]
    refine ⟨?_, ?_, ?_⟩
    · rw [List.dropLast_concat, ← List.map_append]
      exact hrendered _ (List.append_subset.2 ⟨by simp, by simp⟩)
    · rw [List.getLast?_concat]
      rintro _ ⟨⟩
      refine ⟨rfl, ?_⟩
      cases variadic with
      | false => simpa using hplain v (by simp)
      | true =>
        obtain ⟨elem, he⟩ := hslice rfl
        rw [List.getLast?_concat] at he
        rw [if_pos rfl, hend elem (Option.some.inj he)]
        exact iff_of_true (beginsVariadic_append _) rfl
    · intro hvariadic elem he
      rw [List.getLast?_concat] at he ⊢
      rw [Option.map_some, if_pos hvariadic, hend elem (Option.some.inj he)]

end Fake

end Understudy
