import Mathlib.Data.List.Nodup
import Understudy.Proofs.ResolvedNames

namespace Understudy

theorem eraseDups_append_singleton (l : List String) (a : String) :
    (l ++ [a]).eraseDups = if a ∈ l then l.eraseDups else l.eraseDups ++ [a] := by
  rw [List.eraseDups_append, List.removeAll]
  split
  · rename_i h
    rw [List.filter_cons_of_neg (by simpa using h), List.filter_nil, List.eraseDups_nil,
      List.append_nil]
  · rename_i h
    rw [List.filter_cons_of_pos (by simpa using h), List.filter_nil]
    rfl

theorem lookup_append_fresh {α : Type} {entries : List (String × α)} {name key : String}
    (h : entries.lookup name = none) (hne : name ≠ key) (a : α) :
    (entries ++ [(key, a)]).lookup name = none := by
  rw [List.lookup_append, h, List.lookup_cons, beq_eq_false_iff_ne.2 hne]
  rfl

def Scope.IsKeyed (s : Scope) : Prop := ∀ entry ∈ s.objects, entry.2.name = entry.1

namespace Scope

theorem mem_of_lookup? {s : Scope} {name : String} {o : Object} (h : s.lookup? name = some o) :
    (name, o) ∈ s.objects := by
  obtain ⟨l, r, hl, -⟩ := List.lookup_eq_some_iff.1 h
  rw [hl]
  simp

end Scope

theorem Module.lookupType?_eq_some {m : Module} {name : String} {decl : TypeDecl} :
    m.lookupType? name = some decl ↔ m.lookup? name = some (.type decl) := by
  rw [lookupType?, lookup?, Option.bind_eq_some_iff, Option.bind_eq_some_iff]
  refine exists_congr fun scope ↦ and_congr_right fun _ ↦ ?_
  rw [Scope.lookupType?]
  split
  · rename_i d hd
    simp [hd]
  · rename_i hd
    simpa using hd decl

namespace Resolve

theorem addObjects_cons (s : Scope) (o : Object) (objects : List Object) :
    addObjects s (o :: objects) =
      addObjects (if (s.lookup? o.name).isSome then s
        else ⟨s.objects ++ [(o.name, o)]⟩) objects := by
  rw [addObjects, List.foldl_cons, addObjects]
  congr 1
  split
  · rfl
  · rename_i h
    rw [Scope.insert, Scope.put, if_neg h]

theorem mem_addObjects {s : Scope} {objects : List Object} {entry : String × Object}
    (h : entry ∈ (addObjects s objects).objects) :
    entry ∈ s.objects ∨ entry.2 ∈ objects ∧ entry.2.name = entry.1 := by
  induction objects generalizing s with
  | nil => exact .inl h
  | cons o rest ih =>
    rw [addObjects_cons] at h
    rcases ih h with h | ⟨hmem, hname⟩
    · split at h
      · exact .inl h
      · rcases List.mem_append.1 h with h | h
        · exact .inl h
        · obtain rfl := List.mem_singleton.1 h
          exact .inr ⟨List.mem_cons_self .., rfl⟩
    · exact .inr ⟨List.mem_cons_of_mem _ hmem, hname⟩

theorem lookup?_addObjects (s : Scope) (objects : List Object) (name : String) :
    (addObjects s objects).lookup? name = (s.lookup? name).or (objects.find? (·.name = name)) := by
  induction objects generalizing s with
  | nil => rw [List.find?_nil, Option.or_none, addObjects, List.foldl_nil]
  | cons o rest ih =>
    rw [addObjects_cons, ih, List.find?_cons]
    by_cases hname : o.name = name
    · subst hname
      split
      · rename_i h
        obtain ⟨other, hother⟩ := Option.isSome_iff_exists.1 h
        simp [hother]
      · rename_i h
        have hnone : s.lookup? o.name = none := by simpa using h
        rw [Scope.lookup?] at hnone
        simp [Scope.lookup?, List.lookup_append, hnone]
    · have hne : (name == o.name) = false := beq_eq_false_iff_ne.2 (Ne.symm hname)
      split <;> simp [Scope.lookup?, List.lookup_append, List.lookup_cons, hname, hne]

theorem nodup_of_redeclarations {seen : List String} {placed : List (String × Decl)}
    (h : redeclarations seen placed = []) :
    (placed.map (·.2.name)).Nodup ∧ ∀ d ∈ placed, d.2.name ∉ seen := by
  induction placed generalizing seen with
  | nil => exact ⟨List.nodup_nil, List.forall_mem_nil _⟩
  | cons d rest ih =>
    obtain ⟨fileId, d⟩ := d
    rw [redeclarations] at h
    split at h
    · cases h
    · rename_i hseen
      obtain ⟨hnodup, hrest⟩ := ih h
      have hfresh : d.name ∉ rest.map (·.2.name) := by
        intro hmem
        obtain ⟨e, he, hname⟩ := List.mem_map.1 hmem
        exact hrest e he (hname ▸ List.mem_cons_self ..)
      refine ⟨List.nodup_cons.2 ⟨hfresh, hnodup⟩, List.forall_mem_cons.2 ⟨?_, ?_⟩⟩
      · simpa using hseen
      · exact fun e he hmem ↦ hrest e he (List.mem_cons_of_mem _ hmem)

end Resolve

namespace ImportSpec

theorem mem_bindAll {deps : ModuleSet} {fileId : String} {bound : List (String × ModuleRef)}
    {specs : List ImportSpec} {entry : String × ModuleRef}
    (h : entry ∈ (bindAll deps fileId bound specs).1) : entry ∈ bound ∨
      ∃ i ∈ specs, ∃ m, deps.get? m.path = some m ∧ m.path = ModulePath.unvendor i.path ∧
      entry.2 = m.ref := by
  induction specs generalizing bound with
  | nil => exact .inl h
  | cons i rest ih =>
    rw [bindAll] at h
    split at h
    · rename_i added hbind
      rcases ih h with h | ⟨j, hj, hm⟩
      · rcases List.mem_append.1 h with h | h
        · exact .inl h
        · rw [ImportSpec.bind] at hbind
          split at hbind
          · cases hbind
          · rename_i m hm
            have hpath : m.path = ModulePath.unvendor i.path := by simpa using List.find?_some hm
            dsimp only at hbind
            split at hbind
            · cases hbind
              exact absurd h List.not_mem_nil
            · split at hbind
              · cases hbind
              · cases hbind
                obtain rfl := List.mem_singleton.1 h
                exact .inr ⟨i, List.mem_cons_self .., m, hpath ▸ hm, hpath, rfl⟩
      · exact .inr ⟨j, List.mem_cons_of_mem _ hj, hm⟩
    · rcases ih h with h | ⟨j, hj, hm⟩
      · exact .inl h
      · exact .inr ⟨j, List.mem_cons_of_mem _ hj, hm⟩

end ImportSpec

namespace Resolve

def packageName (files : List ParsedFile) : String := (files.head?.map (·.file.package)).getD ""

def placed (files : List ParsedFile) : List (String × Decl) :=
  files.flatMap fun f ↦ f.file.decls.map (f.id, ·)

def context (path : String) (files : List ParsedFile) (deps : ModuleSet) (f : ParsedFile) :
    NameContext :=
  ⟨⟨path, packageName files⟩, f.id, (placed files).map (·.2),
    (ImportSpec.bindAll deps f.id [] f.file.imports).1, deps⟩

def objects (path : String) (files : List ParsedFile) (deps : ModuleSet) : List Object :=
  files.flatMap fun f ↦ (f.file.decls.map (context path files deps f).objectOf).filterMap
    (·.toOption)

section Module

variable (path : String) (files : List ParsedFile) (deps : ModuleSet)

theorem module_resolveModule : (resolveModule path files deps).module =
    ⟨path, packageName files, some (addObjects .empty (objects path files deps)),
      (files.flatMap fun f ↦ f.file.imports.map (ModulePath.unvendor ·.path)).eraseDups⟩ := by
  simp [resolveModule, List.flatMap_map, objects, fileObjects, context, placed, packageName]

theorem diagnostics_resolveModule : (resolveModule path files deps).diagnostics =
    packageConflicts path (packageName files) files.tail ++ redeclarations [] (placed files) ++
      files.flatMap fun f ↦ (ImportSpec.bindAll deps f.id [] f.file.imports).2 ++
        (f.file.decls.map (context path files deps f).objectOf).flatMap Checked.problems := by
  simp [resolveModule, List.flatMap_map, fileObjects, context, placed, packageName]

variable {path files deps}

theorem mem_objects {o : Object} : o ∈ objects path files deps ↔
    ∃ f ∈ files, ∃ d ∈ f.file.decls, (context path files deps f).objectOf d = .ok o := by
  simp only [objects, List.mem_flatMap, List.mem_filterMap, List.mem_map]
  constructor
  · rintro ⟨f, hf, c, ⟨d, hd, rfl⟩, hc⟩
    refine ⟨f, hf, d, hd, ?_⟩
    cases h : (context path files deps f).objectOf d with
    | error ds =>
      rw [h] at hc
      cases hc
    | ok x =>
      rw [h] at hc
      cases hc
      rfl
  · rintro ⟨f, hf, d, hd, ho⟩
    exact ⟨f, hf, _, ⟨d, hd, rfl⟩, by rw [ho]; rfl⟩

theorem mem_placed {d : Decl} : d ∈ (placed files).map (·.2) ↔ ∃ f ∈ files, d ∈ f.file.decls := by
  simp [placed]

section Clean

variable (h : (resolveModule path files deps).diagnostics = [])

include h

theorem nodup_names : (((placed files).map (·.2)).map (·.name)).Nodup := by
  rw [diagnostics_resolveModule, List.append_eq_nil_iff, List.append_eq_nil_iff] at h
  rw [List.map_map]
  exact (nodup_of_redeclarations h.1.2).1

theorem exists_objectOf {f : ParsedFile} (hf : f ∈ files) {d : Decl} (hd : d ∈ f.file.decls) :
    ∃ o, (context path files deps f).objectOf d = .ok o := by
  rw [diagnostics_resolveModule, List.append_eq_nil_iff, List.flatMap_eq_nil_iff] at h
  have hfile := (List.append_eq_nil_iff.1 (h.2 f hf)).2
  rw [List.flatMap_eq_nil_iff] at hfile
  have hproblems := hfile _ (List.mem_map_of_mem hd)
  cases ho : (context path files deps f).objectOf d with
  | ok o => exact ⟨o, rfl⟩
  | error ds =>
    rw [ho] at hproblems
    exact absurd hproblems (NameContext.reports_objectOf _ d ds ho).1

theorem lookupType?_own {name : String} {e : TypeExpr} {s : Span} {f : ParsedFile}
    (hd : (context path files deps f).decl? name = some (.type name e s)) :
    ∃ t, (resolveModule path files deps).module.lookupType? name = some ⟨name, t⟩ := by
  have hmem := (NameContext.decl?_eq_some hd).1
  obtain ⟨g, hg, hdecl⟩ := mem_placed.1 hmem
  obtain ⟨o, ho⟩ := exists_objectOf h hg hdecl
  have hsome : ((objects path files deps).find? (·.name = name)).isSome := by
    rw [List.find?_isSome]
    refine ⟨o, mem_objects.2 ⟨g, hg, _, hdecl, ho⟩, ?_⟩
    exact decide_eq_true (NameContext.name_objectOf ho)
  obtain ⟨first, hfirst⟩ := Option.isSome_iff_exists.1 hsome
  have hname : first.name = name := by simpa using List.find?_some hfirst
  obtain ⟨g', hg', d', hd', hobject⟩ := mem_objects.1 (List.mem_of_find?_eq_some hfirst)
  -- The names are all different, so the object found is made from this declaration.
  have hsame : d' = .type name e s := by
    refine List.inj_on_of_nodup_map (nodup_names h) (mem_placed.2 ⟨g', hg', hd'⟩) hmem ?_
    rw [← NameContext.name_objectOf hobject, hname]
    rfl
  subst hsame
  obtain ⟨t, -, rfl⟩ := Checked.map_eq_ok hobject
  refine ⟨t, ?_⟩
  rw [module_resolveModule, Module.lookupType?, Option.bind_some, Scope.lookupType?,
    lookup?_addObjects, hfirst]
  rfl

/-- A name in an object stands for the type of failures, a type of the module or one of a module of
the set. -/
theorem names_objects {o : Object} (ho : o ∈ objects path files deps) {n : Option TypeName}
    (hn : n ∈ o.names) :
    n = some Ty.errorName ∨
    (∃ name t, n = some ⟨name, some (resolveModule path files deps).module.ref⟩ ∧
      (resolveModule path files deps).module.lookupType? name = some ⟨name, t⟩) ∨
    ∃ m name decl, deps.get? m.path = some m ∧ n = some ⟨name, some m.ref⟩ ∧
      m.lookup? name = some (.type decl) := by
  obtain ⟨f, -, d, -, hobject⟩ := mem_objects.1 ho
  cases NameContext.names_objectOf (NameContext.gives_source _) hobject n hn with
  | error => exact .inl rfl
  | own hd =>
    obtain ⟨t, ht⟩ := lookupType?_own h hd
    refine .inr (.inl ⟨_, t, ?_, ht⟩)
    rw [module_resolveModule]
    rfl
  | @imported q name ref decl hq hd =>
    obtain ⟨l, r, hl, -⟩ := List.lookup_eq_some_iff.1 hq
    have hmem : (q, ref) ∈ (context path files deps f).imports :=
      hl ▸ List.mem_append_right l (List.mem_cons_self ..)
    rcases ImportSpec.mem_bindAll hmem with hnil | ⟨i, -, m, hm, -, href⟩
    · exact absurd hnil List.not_mem_nil
    · dsimp only at href
      subst href
      rw [Module.ref, context, hm] at hd
      exact .inr (.inr ⟨m, _, _, hm, rfl, hd⟩)

end Clean

end Module

theorem resolveModule_single {deps : ModuleSet} {path id package name : String}
    {specs : List ImportSpec} {d : Decl} {t : Ty}
    (h : fileObjects ⟨path, package⟩ [d] deps ⟨id, package, specs, [d]⟩ = ([.type ⟨name, t⟩], [])) :
    (resolveModule path [⟨id, package, specs, [d]⟩] deps).diagnostics = [] ∧
      (resolveModule path [⟨id, package, specs, [d]⟩] deps).module.lookupType? name =
        some ⟨name, t⟩ := by
  constructor
  · simp [resolveModule, h, packageConflicts, redeclarations]
  · simp [resolveModule, h, addObjects, Scope.insert, Scope.put, Scope.empty,
      Scope.lookup?, Object.name, Module.lookupType?, Scope.lookupType?]

end Resolve

end Understudy
