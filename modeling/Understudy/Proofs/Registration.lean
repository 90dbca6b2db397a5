import Understudy.ModuleSet
import Understudy.Ty.Render
import Understudy.Proofs.Qualifiers
import Understudy.Proofs.TypeText

namespace Understudy

/-- A module that a file can import by its path and call by its name. -/
structure Module.IsImportable (m : Module) : Prop where
  path_ne : m.path ≠ ""
  trimmed : Text.trim m.path = m.path
  unvendored : ModulePath.unvendor m.path = m.path
  plain : ∀ c ∈ m.path.toList, c ≠ '"' ∧ c ≠ '\\' ∧ c ≠ '\n'
  isIdentifier : Token.isIdentifier m.name = true
  name_ne : m.name ≠ "_"

theorem Module.IsImportable.registered {m : Module} (h : m.IsImportable) :
    ModulePath.registered m.path = m.path := by
  rw [ModulePath.registered, h.trimmed, h.unvendored]

/-- The name of a type that is known everywhere, or that an importable module of the set
declares. -/
inductive TypeName.IsDeclared (deps : ModuleSet) : TypeName → Prop
  | error : IsDeclared deps Ty.errorName
  | declared {m : Module} {name : String} {decl : TypeDecl} (hm : deps.get? m.path = some m)
      (hi : m.IsImportable) (hname : Token.isIdentifier name = true)
      (hd : m.lookupType? name = some decl) : IsDeclared deps ⟨name, some m.ref⟩

/-- An entry that can be written down as an import of a module of the set. -/
structure Import.IsWritable (deps : ModuleSet) (i : Import) : Prop where
  isIdentifier : Token.isIdentifier i.qualifier = true
  qualifier_ne : i.qualifier ≠ "_"
  path_ne : i.path ≠ ""
  unvendored : ModulePath.unvendor i.path = i.path
  plain : ∀ c ∈ i.path.toList, c ≠ '"' ∧ c ≠ '\\' ∧ c ≠ '\n'
  found : (deps.get? i.path).isSome = true

namespace Ty

theorem MadeOf.mem_leaves {names : TypeName → Prop} {t : Ty} (h : t.MadeOf names) :
    t.MadeOf fun name ↦ names name ∧ .named (some name) ∈ t.leaves := by
  induction h with
  | basic kind => exact .basic kind
  | named h => exact .named ⟨h, List.mem_singleton.2 rfl⟩
  | pointer _ ih => exact .pointer ih
  | slice _ ih => exact .slice ih
  | array length _ ih => exact .array length ih
  | map _ _ ihk ih =>
    exact .map (ihk.mono fun _ hn ↦ ⟨hn.1, List.mem_append_left _ hn.2⟩)
      (ih.mono fun _ hn ↦ ⟨hn.1, List.mem_append_right _ hn.2⟩)
  | chan dir _ ih => exact .chan dir ih

theorem MadeOf.of_mem_leaves {names : TypeName → Prop} {t : Ty} (h : t.MadeOf names)
    {name : TypeName} (hn : .named (some name) ∈ t.leaves) : names name := by
  induction h with
  | basic kind => cases List.mem_singleton.1 hn
  | named h =>
    cases List.mem_singleton.1 hn
    exact h
  | pointer _ ih | slice _ ih | array _ _ ih | chan _ _ ih => exact ih hn
  | map _ _ ihk ih =>
    rcases List.mem_append.1 hn with hn | hn
    · exact ihk hn
    · exact ih hn

end Ty

namespace ImportRegistry

/-- Every entry can be written down, and no two have the same qualifier. -/
structure IsWritable (deps : ModuleSet) (r : ImportRegistry) : Prop where
  destination : r.destination = none
  nodup : (r.entries.map (·.qualifier)).Nodup
  entry : ∀ i ∈ r.entries, i.IsWritable deps

theorem isWritable_empty (deps : ModuleSet) : empty.IsWritable deps :=
  ⟨rfl, List.nodup_nil, fun _ h ↦ absurd h List.not_mem_nil⟩

theorem isDestination_of_none {r : ImportRegistry} (h : r.destination = none) (path : String) :
    r.isDestination path = false := by
  rw [isDestination, h]
  rfl

variable {deps : ModuleSet} {r : ImportRegistry}

theorem register_eq (hd : r.destination = none) {m : Module} (hi : m.IsImportable) :
    r.register m.name m.path = if (r.entry? m.path).isSome then r
      else { r with entries := r.entries ++ [⟨r.freeQualifier m.name, m.path, false⟩] } := by
  have hname : m.name.isEmpty = false := by
    obtain ⟨c, rest, hname, -⟩ := Token.isWord_iff.1 (Token.isIdentifier_iff.1 hi.isIdentifier).1
    rw [String.isEmpty_eq_false_iff]
    intro h
    rw [h] at hname
    exact List.cons_ne_nil c rest hname.symm
  have hpath : m.path.isEmpty = false := String.isEmpty_eq_false_iff.2 hi.path_ne
  simp only [register, newEntry, hi.registered, refuses, hpath, isDestination_of_none hd,
    Bool.or_false, Bool.false_or,
    Token.trim_of_isIdentifier hi.isIdentifier, hname, Bool.false_eq_true, if_false]

theorem IsWritable.register (h : r.IsWritable deps) {m : Module} (hm : deps.get? m.path = some m)
    (hi : m.IsImportable) : (r.register m.name m.path).IsWritable deps := by
  rw [register_eq h.destination hi]
  split
  · exact h
  · have hfree := r.not_isTaken_freeQualifier m.name
    refine ⟨h.destination, ?_, ?_⟩
    · rw [List.map_append, List.map_singleton, List.nodup_append]
      refine ⟨h.nodup, List.nodup_singleton _, ?_⟩
      rintro a ha b hb rfl
      rw [List.mem_singleton.1 hb, ← isTaken_iff, hfree] at ha
      exact Bool.false_ne_true ha
    · intro i hmem
      rcases List.mem_append.1 hmem with hmem | hmem
      · exact h.entry i hmem
      · obtain rfl := List.mem_singleton.1 hmem
        exact ⟨r.isIdentifier_freeQualifier hi.isIdentifier,
          r.freeQualifier_ne hi.name_ne, hi.path_ne, hi.unvendored, hi.plain, by rw [hm]; rfl⟩

theorem find?_register {path : String} {i : Import} (h : r.find? path = some i)
    (hint path' : String) : (r.register hint path').find? path = some i := by
  unfold register
  dsimp only
  split
  · exact h
  · simp only [find?, entry?, List.find?_append] at h ⊢
    rw [h]
    rfl

theorem find?_register_self (hd : r.destination = none) {m : Module} (hi : m.IsImportable) :
    ∃ i, (r.register m.name m.path).find? m.path = some i := by
  rw [register_eq hd hi, find?, hi.registered]
  split
  · rename_i h
    exact Option.isSome_iff_exists.1 h
  · rename_i h
    rw [Bool.not_eq_true, Option.isSome_eq_false_iff, Option.isNone_iff_eq_none, entry?] at h
    simp only [List.find?_append, entry?, h]
    simp

section Leaves

theorem registerLeaf_named {name : String} {m : Module} (hi : m.IsImportable) :
    r.registerLeaf (.named (some ⟨name, some m.ref⟩)) = r.register m.name m.path := by
  have hpath : m.path.isEmpty = false := String.isEmpty_eq_false_iff.2 hi.path_ne
  simp [registerLeaf, Ty.module?, Module.ref, hpath]

theorem IsWritable.registerLeaf (h : r.IsWritable deps) {t : Ty}
    (ht : ∀ name, t = .named (some name) → name.IsDeclared deps) :
    (r.registerLeaf t).IsWritable deps := by
  cases hm : t.module? with
  | none =>
    rw [ImportRegistry.registerLeaf, hm]
    exact h
  | some ref =>
    obtain ⟨name, rfl⟩ : ∃ name, t = .named (some name) := by
      unfold Ty.module? at hm
      split at hm
      · exact ⟨_, rfl⟩
      · cases hm
    cases ht name rfl with
    | error => cases hm
    | declared hget hi _ _ =>
      rw [registerLeaf_named hi]
      exact h.register hget hi

theorem find?_registerLeaf {path : String} {i : Import} (h : r.find? path = some i) (t : Ty) :
    (r.registerLeaf t).find? path = some i := by
  unfold registerLeaf
  split
  · split
    · exact h
    · exact find?_register h _ _
  · exact h

theorem IsWritable.foldl {ts : List Ty} (h : r.IsWritable deps)
    (hts : ∀ name, .named (some name) ∈ ts → name.IsDeclared deps) :
    (ts.foldl ImportRegistry.registerLeaf r).IsWritable deps := by
  induction ts generalizing r with
  | nil => exact h
  | cons t rest ih =>
    refine ih (h.registerLeaf fun name ht ↦ hts name (ht ▸ List.mem_cons_self ..)) fun name hn ↦ ?_
    exact hts name (List.mem_cons_of_mem _ hn)

theorem find?_foldl {path : String} {i : Import} (h : r.find? path = some i) (ts : List Ty) :
    (ts.foldl ImportRegistry.registerLeaf r).find? path = some i := by
  induction ts generalizing r with
  | nil => exact h
  | cons t rest ih => exact ih (find?_registerLeaf h t)

theorem find?_foldl_of_mem {ts : List Ty} (h : r.IsWritable deps)
    (hts : ∀ name, .named (some name) ∈ ts → name.IsDeclared deps) {name : String} {m : Module}
    (hi : m.IsImportable) (hmem : .named (some ⟨name, some m.ref⟩) ∈ ts) :
    ∃ i, (ts.foldl ImportRegistry.registerLeaf r).find? m.path = some i := by
  induction ts generalizing r with
  | nil => exact absurd hmem List.not_mem_nil
  | cons t rest ih =>
    rcases List.mem_cons.1 hmem with rfl | hmem
    · obtain ⟨i, hi⟩ := find?_register_self h.destination hi
      have hleaf : r.registerLeaf (.named (some ⟨name, some m.ref⟩)) = r.register m.name m.path :=
        registerLeaf_named ‹_›
      rw [← hleaf] at hi
      exact ⟨i, find?_foldl hi rest⟩
    · refine ih (h.registerLeaf fun name ht ↦ hts name (ht ▸ List.mem_cons_self ..))
        (fun name hn ↦ ?_) hmem
      exact hts name (List.mem_cons_of_mem _ hn)

end Leaves

theorem isWritable_registerType {t : Ty} (ht : t.MadeOf (TypeName.IsDeclared deps)) :
    (empty.registerType t).IsWritable deps :=
  (isWritable_empty deps).foldl fun _ hn ↦ ht.of_mem_leaves hn

def qualifier? (r : ImportRegistry) (name : TypeName) : Option String :=
  (r.qualifierOf? name).map (·.qualifier)

/-- A name is bare if it is known everywhere; otherwise an entry for its module qualifies it. -/
def Qualifies (deps : ModuleSet) (r : ImportRegistry) (name : TypeName) : Prop :=
  name = Ty.errorName ∧ r.qualifier? name = none ∨
    ∃ i ∈ r.entries, ∃ m decl, deps.get? i.path = some m ∧ name.module = some m.ref ∧
      m.lookupType? name.name = some decl ∧ Token.isIdentifier name.name = true ∧
      r.qualifier? name = some i.qualifier

theorem qualifies_registerType {t : Ty} (ht : t.MadeOf (TypeName.IsDeclared deps)) :
    t.MadeOf (Qualifies deps (empty.registerType t)) := by
  refine ht.mem_leaves.mono ?_
  rintro name ⟨hname, hmem⟩
  cases hname with
  | error => exact .inl ⟨rfl, rfl⟩
  | @declared m name decl hm hi hname hd =>
    obtain ⟨i, hfind⟩ : ∃ i, (empty.registerType t).find? m.path = some i :=
      find?_foldl_of_mem (isWritable_empty deps) (fun _ hn ↦ ht.of_mem_leaves hn) hi hmem
    have hpath : i.path = m.path := by
      have h := List.find?_some hfind
      rw [hi.registered] at h
      simpa using h
    refine .inr ⟨i, List.mem_of_find?_eq_some hfind, m, decl, hpath ▸ hm, rfl, hd, hname, ?_⟩
    have hdest := isDestination_of_none (isWritable_registerType ht).destination m.path
    simp only [qualifier?, qualifierOf?, Module.ref, hdest, Bool.false_eq_true, if_false, hfind,
      Option.map_some]

theorem Qualifies.spellable (hr : r.IsWritable deps) {name : TypeName} (h : r.Qualifies deps name) :
    Ty.Spellable r.qualifier? name := by
  rcases h with ⟨rfl, hq⟩ | ⟨i, hi, m, decl, -, -, -, hname, hq⟩
  · exact ⟨by decide +kernel, by simp [hq]⟩
  · refine ⟨hname, fun qualifier hqualifier ↦ ?_⟩
    rw [hq] at hqualifier
    cases hqualifier
    exact (hr.entry i hi).isIdentifier

theorem toList_spell (r : ImportRegistry) (name : TypeName) :
    (r.spell name).toList = (Ty.namePieces r.qualifier? name).flatMap (·.text) := by
  cases h : r.qualifierOf? name with
  | none => simp [spell, Ty.namePieces, qualifier?, h]
  | some i => simp [spell, Ty.namePieces, qualifier?, h]

theorem toList_render {names : TypeName → Prop} {t : Ty} (ht : t.MadeOf names)
    (r : ImportRegistry) : (r.render t).toList = (t.pieces r.qualifier?).flatMap (·.text) := by
  induction ht with
  | basic kind => simp [render]
  | named h => exact r.toList_spell _
  | pointer _ ih => simp [render, ih]
  | slice _ ih => simp [render, ih]
  | array length _ ih => simp [render, Ty.lengthPieces, lengthMark, Nat.toList_repr, ih]
  | map _ _ ihk ih => simp [render, ihk, ih]
  | chan dir _ ih =>
    cases dir <;> simp [render, Ty.chanPieces, Ty.chanPiece, Ty.arrowPiece, ChanDir.mark, ih]

end ImportRegistry

end Understudy
