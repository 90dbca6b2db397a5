import Understudy.Proofs.ReorderedFiles

namespace Understudy

namespace Decl

def isType : Decl → Bool
  | .type .. => true
  | .func .. => false

/-- What a name means in the module `self` if this is its declaration. -/
def meaning (self : ModuleRef) (d : Decl) : Except NameError Ty :=
  if d.isType then .ok (.named (some ⟨d.name, some self⟩)) else .error (.notAType d.name)

theorem meaning_eq_iff (self : ModuleRef) {d e : Decl} (h : d.name = e.name) :
    d.meaning self = e.meaning self ↔ d.isType = e.isType := by
  rw [meaning, meaning, h]
  cases d.isType <;> cases e.isType <;> simp

end Decl

namespace Resolve

variable (path : String) (files : List ParsedFile) (deps : ModuleSet)

def declared : List (ParsedFile × Decl) := files.flatMap fun f ↦ f.file.decls.map (f, ·)

def declarationsOf (name : String) : List (ParsedFile × Decl) :=
  (declared files).filter (·.2.name = name)

def objectFrom (d : ParsedFile × Decl) : Option Object :=
  ((context path files deps d.1).objectOf d.2).toOption

theorem map_declared : (declared files).map (·.2) = decls files := by
  simp [declared, decls, List.map_flatMap, Function.comp_def]

theorem filterMap_declared :
    (declared files).filterMap (objectFrom path files deps) = objects path files deps := by
  simp [declared, objects, objectFrom, List.filterMap_flatMap, List.filterMap_map,
    Function.comp_def]

variable {path files deps}

theorem name_objectFrom {d : ParsedFile × Decl} {o : Object}
    (h : objectFrom path files deps d = some o) : o.name = d.2.name := by
  rw [objectFrom] at h
  cases hd : (context path files deps d.1).objectOf d.2 with
  | error e =>
    rw [hd] at h
    cases h
  | ok x =>
    rw [hd] at h
    cases h
    exact NameContext.name_objectOf hd

theorem find?_filterMap_objectFrom (ds : List (ParsedFile × Decl)) (name : String) :
    (ds.filterMap (objectFrom path files deps)).find? (·.name = name) =
      (ds.filter (·.2.name = name)).findSome? (objectFrom path files deps) := by
  induction ds with
  | nil => rfl
  | cons d rest ih =>
    cases ho : objectFrom path files deps d with
    | none =>
      rw [List.filterMap_cons_none ho, ih]
      by_cases hname : d.2.name = name
      · rw [List.filter_cons_of_pos (by simpa using hname), List.findSome?_cons, ho]
      · rw [List.filter_cons_of_neg (by simpa using hname)]
    | some o =>
      have hd := name_objectFrom ho
      rw [List.filterMap_cons_some ho]
      by_cases hname : d.2.name = name
      · rw [List.filter_cons_of_pos (by simpa using hname), List.findSome?_cons, ho,
          List.find?_cons_of_pos (by simpa [hd] using hname)]
      · rw [List.filter_cons_of_neg (by simpa using hname),
          List.find?_cons_of_neg (by simpa [hd] using hname), ih]

theorem lookup?_resolveModule (name : String) :
    (resolveModule path files deps).module.lookup? name =
    (declarationsOf files name).findSome? (objectFrom path files deps) := by
  rw [module_resolveModule, Module.lookup?, Option.bind_some,
    lookup?_addObjects, ← filterMap_declared, find?_filterMap_objectFrom]
  rfl

theorem decl?_context (f : ParsedFile) (name : String) :
    (context path files deps f).decl? name = (declarationsOf files name).getLast?.map (·.2) := by
  rw [NameContext.decl?, context, map_placed, ← map_declared, ← List.map_reverse, List.find?_map,
    declarationsOf, List.getLast?_filter]
  rfl

theorem namedType_context {d : ParsedFile × Decl} {name : String}
    (h : (declarationsOf files name).getLast? = some d) (f : ParsedFile) :
    (context path files deps f).namedType none name = d.2.meaning ⟨path, packageName files⟩ := by
  have hname : d.2.name = name := by
    have hmem := List.mem_of_getLast? h
    simpa using (List.mem_filter.1 hmem).2
  have hdecl : (context path files deps f).decl? name = some d.2 := by
    rw [decl?_context, h]
    rfl
  subst hname
  rw [NameContext.namedType, NameContext.localType, hdecl]
  cases d.2 <;> rfl

theorem mem_declarationsOf {name : String} {d : ParsedFile × Decl}
    (h : d ∈ declarationsOf files name) : d.1 ∈ files ∧ d.2.name = name := by
  rw [declarationsOf, List.mem_filter, declared, List.mem_flatMap] at h
  obtain ⟨⟨f, hf, hd⟩, hname⟩ := h
  obtain ⟨_, -, rfl⟩ := List.mem_map.1 hd
  exact ⟨hf, by simpa using hname⟩

variable (path deps) in
/-- The scope and the uses of a name follow its first declaration exactly if that one has a meaning
or no other has, and if it is a type like the last one or a function like the last one. -/
theorem follows_first_iff {name : String} {first : ParsedFile × Decl}
    {later : List (ParsedFile × Decl)} (h : declarationsOf files name = first :: later) :
    (resolveModule path files deps).module.lookup? name =
        (first :: later).findSome? (objectFrom path files deps) ∧
      (∀ f ∈ files, (context path files deps f).namedType none name =
        (later.getLastD first).2.meaning ⟨path, packageName files⟩) ∧
      ((resolveModule path files deps).module.lookup? name = objectFrom path files deps first ↔
        (objectFrom path files deps first).isSome ∨
        ∀ d ∈ later, objectFrom path files deps d = none) ∧
      ((∀ f ∈ files, (context path files deps f).namedType none name =
          first.2.meaning ⟨path, packageName files⟩) ↔
        first.2.isType = (later.getLastD first).2.isType) := by
  have hlast : (declarationsOf files name).getLast? = some (later.getLastD first) := by
    rw [h, List.getLast?_cons, List.getLastD_eq_getLast?]
  have hlookup : (resolveModule path files deps).module.lookup? name =
      (first :: later).findSome? (objectFrom path files deps) := by
    rw [lookup?_resolveModule, h]
  have huse : ∀ f, (context path files deps f).namedType none name =
      (later.getLastD first).2.meaning ⟨path, packageName files⟩ := namedType_context hlast
  obtain ⟨hfile, hfirst⟩ :=
    mem_declarationsOf (h ▸ List.mem_cons_self .. : first ∈ declarationsOf files name)
  have hname : first.2.name = (later.getLastD first).2.name :=
    hfirst.trans (mem_declarationsOf (List.mem_of_getLast? hlast)).2.symm
  refine ⟨hlookup, fun f _ ↦ huse f, ?_, ?_⟩
  · rw [hlookup, List.findSome?_cons]
    cases objectFrom path files deps first with
    | some o => simp
    | none => simp
  · rw [← Decl.meaning_eq_iff ⟨path, packageName files⟩ hname]
    constructor
    · exact fun hall ↦ (hall first.1 hfile).symm.trans (huse first.1)
    · exact fun heq f _ ↦ (huse f).trans heq.symm

end Resolve

section Shelf

def shelfFile (decls : List Decl) : ParsedFile := ⟨"shelf/shelf.api", "shelf", [], decls⟩

/-- Its first declaration has no meaning, the last one has. -/
def bookDecls : List Decl :=
  [.type "Book" (writtenName "Missing") somewhere, .type "Book" (writtenName "int") somewhere]

/-- First a function, then a type. -/
def lendDecls : List Decl :=
  [.func "Lend" ⟨[], [], somewhere⟩ somewhere, .type "Lend" (writtenName "Book") somewhere]

def shelf : ParsedFile := shelfFile (bookDecls ++ lendDecls)

open Resolve in
theorem follows_first_iff_shelf : declarationsOf [shelf] "Book" = bookDecls.map (shelf, ·) ∧
      (resolveModule "shelf" [shelf] .empty).module.lookup? "Book" =
        some (.type ⟨"Book", .basic .int⟩) ∧
      (resolveModule "shelf" [shelf] .empty).module.lookup? "Book" ≠
        objectFrom "shelf" [shelf] .empty (shelf, .type "Book" (writtenName "Missing") somewhere) ∧
      declarationsOf [shelf] "Lend" = lendDecls.map (shelf, ·) ∧
      (context "shelf" [shelf] .empty shelf).namedType none "Lend" =
        .ok (.named (some ⟨"Lend", some ⟨"shelf", "shelf"⟩⟩)) ∧
      ¬ ∀ f ∈ [shelf], (context "shelf" [shelf] .empty f).namedType none "Lend" =
        .error (.notAType "Lend") := by
  have hbook : declarationsOf [shelf] "Book" = bookDecls.map (shelf, ·) := by
    simp [declarationsOf, declared, shelf, shelfFile, bookDecls, lendDecls, Decl.name]
  have hlend : declarationsOf [shelf] "Lend" = lendDecls.map (shelf, ·) := by
    simp [declarationsOf, declared, shelf, shelfFile, bookDecls, lendDecls, Decl.name]
  obtain ⟨hobject, -, hscope, -⟩ := follows_first_iff "shelf" .empty hbook
  obtain ⟨-, huse, -, hkind⟩ := follows_first_iff "shelf" .empty hlend
  have hfound : (resolveModule "shelf" [shelf] .empty).module.lookup? "Book" =
      some (.type ⟨"Book", .basic .int⟩) := hobject.trans rfl
  refine ⟨hbook, hfound, fun hfirst ↦ ?_, hlend, huse shelf (List.mem_singleton.2 rfl),
    fun hall ↦ ?_⟩
  · rcases hscope.1 hfirst with hsome | hnone
    · exact absurd hsome (by decide +kernel)
    · have hlast :=
        hnone (shelf, .type "Book" (writtenName "int") somewhere) (List.mem_singleton.2 rfl)
      exact absurd (congrArg Option.isSome hlast) (by decide +kernel)
  · exact absurd (hkind.1 hall) (by decide)

end Shelf

end Understudy
