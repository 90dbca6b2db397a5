import Mathlib.Data.List.Perm.Basic
import Understudy.Proofs.ResolvedAlike

namespace Understudy

/-- Two files that differ at most in the order of their declarations. -/
structure ParsedFile.Reorders (f g : ParsedFile) : Prop where
  id : f.id = g.id
  package : f.file.package = g.file.package
  imports : f.file.imports = g.file.imports
  decls : f.file.decls.Perm g.file.decls

theorem ParsedFile.Reorders.symm {f g : ParsedFile} (h : f.Reorders g) : g.Reorders f :=
  ⟨h.id.symm, h.package.symm, h.imports.symm, h.decls.symm⟩

/-- The same files in another order, and the declarations of each file in another order. -/
def ReordersFiles (files files' : List ParsedFile) : Prop :=
  ∃ moved, files.Perm moved ∧ List.Forall₂ ParsedFile.Reorders moved files'

theorem find?_perm {α : Type} {key : α → String} {l l' : List α} (h : l.Perm l')
    (hn : (l.map key).Nodup) (k : String) : l.find? (key · = k) = l'.find? (key · = k) := by
  have hsame : ∀ {x y}, l.find? (key · = k) = some x → l'.find? (key · = k) = some y → x = y := by
    intro x y hx hy
    have hkx : key x = k := by simpa using List.find?_some hx
    have hky : key y = k := by simpa using List.find?_some hy
    exact List.inj_on_of_nodup_map hn (List.mem_of_find?_eq_some hx)
      (h.mem_iff.2 (List.mem_of_find?_eq_some hy)) (hkx.trans hky.symm)
  have hsome : (l.find? (key · = k)).isSome = (l'.find? (key · = k)).isSome := by
    rw [Bool.eq_iff_iff, List.find?_isSome, List.find?_isSome]
    simp only [h.mem_iff]
  cases hx : l.find? (key · = k) with
  | none =>
    rw [hx] at hsome
    exact (Option.isNone_iff_eq_none.1 (Option.isSome_eq_false_iff.1 hsome.symm)).symm
  | some x =>
    rw [hx] at hsome
    obtain ⟨y, hy⟩ := Option.isSome_iff_exists.1 hsome.symm
    rw [hy, hsame hx hy]

namespace ReordersFiles

variable {files files' : List ParsedFile}

theorem symm (h : ReordersFiles files files') : ReordersFiles files' files := by
  obtain ⟨moved, hperm, hall⟩ := h
  have hflip : List.Forall₂ ParsedFile.Reorders files' moved := hall.flip.imp fun _ _ ↦ .symm
  have hcomp : Relation.Comp (List.Forall₂ ParsedFile.Reorders) List.Perm files' files :=
    ⟨moved, hflip, hperm.symm⟩
  rwa [List.forall₂_comp_perm_eq_perm_comp_forall₂] at hcomp

theorem exists_of_mem (h : ReordersFiles files files') {g : ParsedFile} (hg : g ∈ files') :
    ∃ f ∈ files, f.Reorders g := by
  obtain ⟨moved, hperm, hall⟩ := h
  simp only [hperm.mem_iff]
  clear hperm
  induction hall with
  | nil => exact absurd hg List.not_mem_nil
  | @cons first _ rest _ hfirst _ ih =>
    rcases List.mem_cons.1 hg with rfl | hg
    · exact ⟨first, List.mem_cons_self .., hfirst⟩
    · obtain ⟨f, hf, hreorders⟩ := ih hg
      exact ⟨f, List.mem_cons_of_mem _ hf, hreorders⟩

theorem flatMap {α : Type} {F G : ParsedFile → List α} (h : ReordersFiles files files')
    (hFG : ∀ f g, f.Reorders g → (F f).Perm (G g)) : (files.flatMap F).Perm (files'.flatMap G) := by
  obtain ⟨moved, hperm, hall⟩ := h
  refine (hperm.flatMap_right F).trans (List.Perm.flatten_congr ?_)
  rw [List.forall₂_map_left_iff, List.forall₂_map_right_iff]
  exact hall.imp hFG

end ReordersFiles

namespace Resolve

variable {path : String} {files files' : List ParsedFile} {deps : ModuleSet}

theorem redeclarations_eq_nil_iff {seen : List String} {placed : List (String × Decl)} :
    redeclarations seen placed = [] ↔ (placed.map (·.2.name)).Nodup ∧
    ∀ d ∈ placed, d.2.name ∉ seen := by
  refine ⟨nodup_of_redeclarations, ?_⟩
  rintro ⟨hnodup, hseen⟩
  induction placed generalizing seen with
  | nil => rfl
  | cons d rest ih =>
    obtain ⟨hfresh, hnodup⟩ := List.nodup_cons.1 hnodup
    obtain ⟨hd, hrest⟩ := List.forall_mem_cons.1 hseen
    rw [redeclarations, if_neg (by simpa using hd)]
    refine ih hnodup fun e he hmem ↦ ?_
    rcases List.mem_cons.1 hmem with hname | hmem
    · exact hfresh (List.mem_map.2 ⟨e, he, hname⟩)
    · exact hrest e he hmem

def decls (files : List ParsedFile) : List Decl := files.flatMap (·.file.decls)

theorem map_placed (files : List ParsedFile) : (placed files).map (·.2) = decls files := by
  simp [placed, decls, List.map_flatMap, Function.comp_def]

theorem map_name_placed (files : List ParsedFile) :
    (placed files).map (·.2.name) = (decls files).map (·.name) := by
  rw [← map_placed, List.map_map]
  rfl

/-- Nothing is wrong with a module: the files name one package, no name is declared twice, and
every import and every declaration has a meaning. -/
structure IsClean (path : String) (files : List ParsedFile) (deps : ModuleSet) : Prop where
  package : ∀ f ∈ files, f.file.package = packageName files
  nodup : ((decls files).map (·.name)).Nodup
  binds : ∀ f ∈ files, (ImportSpec.bindAll deps f.id [] f.file.imports).2 = []
  resolves : ∀ f ∈ files, ∀ d ∈ f.file.decls, ∃ o, (context path files deps f).objectOf d = .ok o

theorem packageConflicts_eq_nil_iff : packageConflicts path (packageName files) files.tail = [] ↔
    ∀ f ∈ files, f.file.package = packageName files := by
  rw [packageConflicts, List.map_eq_nil_iff, List.filter_eq_nil_iff]
  simp only [decide_not, Bool.not_eq_true', decide_eq_false_iff_not, not_not]
  cases files with
  | nil => simp
  | cons first rest => simp [packageName]

theorem problems_eq_nil_iff {ctx : NameContext} {ds : List Decl} :
    (ds.map ctx.objectOf).flatMap Checked.problems = [] ↔
    ∀ d ∈ ds, ∃ o, ctx.objectOf d = .ok o := by
  rw [List.flatMap_eq_nil_iff, List.forall_mem_map]
  refine forall₂_congr fun d _ ↦ ?_
  cases h : ctx.objectOf d with
  | ok o => simp [Checked.problems]
  | error e => simpa [Checked.problems] using (NameContext.reports_objectOf ctx d e h).1

theorem diagnostics_eq_nil_iff :
    (resolveModule path files deps).diagnostics = [] ↔ IsClean path files deps := by
  rw [diagnostics_resolveModule, List.append_eq_nil_iff, List.append_eq_nil_iff,
    List.flatMap_eq_nil_iff,
    packageConflicts_eq_nil_iff, redeclarations_eq_nil_iff, map_name_placed]
  constructor
  · rintro ⟨⟨hpackage, hnodup, -⟩, hfiles⟩
    have hbinds := fun f hf ↦ (List.append_eq_nil_iff.1 (hfiles f hf)).1
    have hresolves := fun f hf ↦ problems_eq_nil_iff.1 (List.append_eq_nil_iff.1 (hfiles f hf)).2
    exact ⟨hpackage, hnodup, hbinds, hresolves⟩
  · rintro ⟨hpackage, hnodup, hbinds, hresolves⟩
    refine ⟨⟨hpackage, hnodup, fun _ _ ↦ List.not_mem_nil⟩, fun f hf ↦ ?_⟩
    exact List.append_eq_nil_iff.2 ⟨hbinds f hf, problems_eq_nil_iff.2 (hresolves f hf)⟩

section Reordered

variable (h : ReordersFiles files files')

include h

theorem perm_decls : (decls files).Perm (decls files') := h.flatMap fun _ _ hfg ↦ hfg.decls

theorem packageName_congr (hpackage : ∀ f ∈ files, f.file.package = packageName files) :
    packageName files' = packageName files ∧ ∀ g ∈ files', g.file.package = packageName files' := by
  have hall : ∀ g ∈ files', g.file.package = packageName files := by
    intro g hg
    obtain ⟨f, hf, hfg⟩ := h.exists_of_mem hg
    exact hfg.package.symm.trans (hpackage f hf)
  have hname : packageName files' = packageName files := by
    cases files' with
    | nil =>
      cases files with
      | nil => rfl
      | cons f rest =>
        obtain ⟨g, hg, -⟩ := h.symm.exists_of_mem (List.mem_cons_self ..)
        exact absurd hg List.not_mem_nil
    | cons g rest => exact hall g (List.mem_cons_self ..)
  exact ⟨hname, fun g hg ↦ (hall g hg).trans hname.symm⟩

variable (hclean : IsClean path files deps)

include hclean

theorem objectOf_reorders {f g : ParsedFile} (hfg : f.Reorders g) :
    (context path files' deps g).objectOf = (context path files deps f).objectOf := by
  obtain ⟨hname, -⟩ := packageName_congr h hclean.package
  have hdecl : ∀ name, (context path files' deps g).decl? name =
      (context path files deps f).decl? name := by
    intro name
    have hperm : (decls files).reverse.Perm (decls files').reverse :=
      (List.reverse_perm _).trans ((perm_decls h).trans (List.reverse_perm _).symm)
    have hnodup : ((decls files).reverse.map (·.name)).Nodup := by
      rw [List.map_reverse, List.nodup_reverse]
      exact hclean.nodup
    rw [NameContext.decl?, NameContext.decl?, context, context, map_placed, map_placed]
    exact (find?_perm hperm hnodup name).symm
  refine NameContext.objectOf_congr ?_ hfg.id.symm
  funext q name
  cases q with
  | none =>
    rw [NameContext.namedType, NameContext.namedType, NameContext.localType,
      NameContext.localType, hdecl]
    simp only [context, hname]
  | some q =>
    rw [NameContext.namedType, NameContext.namedType, NameContext.importedType,
      NameContext.importedType]
    simp only [context, hfg.id, hfg.imports]

theorem IsClean.reorders : IsClean path files' deps := by
  obtain ⟨-, hpackage⟩ := packageName_congr h hclean.package
  refine ⟨hpackage, ((perm_decls h).map _).nodup_iff.1 hclean.nodup, fun g hg ↦ ?_,
    fun g hg d hd ↦ ?_⟩
  · obtain ⟨f, hf, hfg⟩ := h.exists_of_mem hg
    rw [← hfg.id, ← hfg.imports]
    exact hclean.binds f hf
  · obtain ⟨f, hf, hfg⟩ := h.exists_of_mem hg
    rw [objectOf_reorders h hclean hfg]
    exact hclean.resolves f hf d (hfg.decls.mem_iff.2 hd)

theorem perm_objects : (objects path files deps).Perm (objects path files' deps) := by
  refine h.flatMap fun f g hfg ↦ ?_
  rw [objectOf_reorders h hclean hfg]
  exact (hfg.decls.map _).filterMap _

end Reordered

theorem objects_addObjects {s : Scope} {os : List Object} (hnodup : (os.map (·.name)).Nodup)
    (hfresh : ∀ o ∈ os, s.lookup? o.name = none) :
    (addObjects s os).objects = s.objects ++ os.map fun o ↦ (o.name, o) := by
  induction os generalizing s with
  | nil => simp [addObjects]
  | cons o rest ih =>
    obtain ⟨ho, hrest⟩ := List.forall_mem_cons.1 hfresh
    obtain ⟨hne, hnodup⟩ := List.nodup_cons.1 hnodup
    have hnone : ∀ x ∈ rest, (⟨s.objects ++ [(o.name, o)]⟩ : Scope).lookup? x.name = none := by
      intro x hx
      have hname : x.name ≠ o.name := fun heq ↦ hne (List.mem_map.2 ⟨x, hx, heq⟩)
      have hsx := hrest x hx
      rw [Scope.lookup?] at hsx
      simp [Scope.lookup?, List.lookup_append, hsx, hname]
    rw [addObjects_cons, ho, if_neg (by simp), ih hnodup hnone]
    simp

theorem map_name_made {ctx : NameContext} {ds : List Decl}
    (h : ∀ d ∈ ds, ∃ o, ctx.objectOf d = .ok o) :
    ((ds.map ctx.objectOf).filterMap (·.toOption)).map (·.name) = ds.map (·.name) := by
  induction ds with
  | nil => rfl
  | cons d rest ih =>
    obtain ⟨⟨o, ho⟩, hrest⟩ := List.forall_mem_cons.1 h
    have hsome : (Except.ok o : Checked Object).toOption = some o := rfl
    rw [List.map_cons, ho, List.filterMap_cons_some hsome, List.map_cons, List.map_cons, ih hrest,
      NameContext.name_objectOf ho]

theorem IsClean.nodup_objects (h : IsClean path files deps) :
    ((objects path files deps).map (·.name)).Nodup := by
  have hnames : (objects path files deps).map (·.name) = (decls files).map (·.name) := by
    rw [objects, decls, List.map_flatMap, List.map_flatMap]
    exact List.flatMap_congr fun f hf ↦ map_name_made (h.resolves f hf)
  rw [hnames]
  exact h.nodup

/-- The scope of a module that nothing is wrong with holds the object of each declaration. -/
theorem IsClean.objects_scope (h : IsClean path files deps) :
    (addObjects .empty (objects path files deps)).objects = (objects path files deps).map fun o ↦
    (o.name, o) :=
  objects_addObjects h.nodup_objects fun _ _ ↦ rfl

end Resolve

def Scope.SameObjects (s s' : Scope) : Prop :=
  s.objects.Perm s'.objects ∧ ∀ name, s.lookup? name = s'.lookup? name

/-- Two modules that differ at most in the order of their objects and imports. -/
structure Module.Matches (m m' : Module) : Prop where
  path : m.path = m'.path
  name : m.name = m'.name
  scope : Option.Rel Scope.SameObjects m.scope m'.scope
  imports : ∀ i, i ∈ m.imports ↔ i ∈ m'.imports

/-- Files and declarations in another order are reported or not alike, and make the same module. -/
theorem resolveModule_reorders {files files' : List ParsedFile} (h : ReordersFiles files files')
    (path : String) (deps : ModuleSet) :
    ((resolveModule path files deps).diagnostics = [] ↔
      (resolveModule path files' deps).diagnostics = []) ∧
      ((resolveModule path files deps).diagnostics = [] →
        (resolveModule path files deps).module.Matches
        (resolveModule path files' deps).module) := by
  simp only [Resolve.diagnostics_eq_nil_iff]
  refine ⟨⟨Resolve.IsClean.reorders h, Resolve.IsClean.reorders h.symm⟩, fun hclean ↦ ?_⟩
  have hclean' := hclean.reorders h
  obtain ⟨hname, -⟩ := Resolve.packageName_congr h hclean.package
  have hobjects := Resolve.perm_objects h hclean
  have himports : (files.flatMap fun f ↦ f.file.imports.map (ModulePath.unvendor ·.path)).Perm
      (files'.flatMap fun f ↦ f.file.imports.map (ModulePath.unvendor ·.path)) :=
    h.flatMap fun f g hfg ↦ by rw [hfg.imports]
  rw [Resolve.module_resolveModule, Resolve.module_resolveModule]
  refine ⟨rfl, hname.symm, .some ⟨?_, fun name ↦ ?_⟩, fun i ↦ ?_⟩
  · rw [hclean.objects_scope, hclean'.objects_scope]
    exact hobjects.map _
  · rw [Resolve.lookup?_addObjects, Resolve.lookup?_addObjects,
      find?_perm hobjects hclean.nodup_objects]
  · rw [List.mem_eraseDups, List.mem_eraseDups, himports.mem_iff]

section Shop

def somewhere : Span := ⟨0, 0⟩

def writtenName (name : String) : TypeExpr := .name none name somewhere

def itemDecl : Decl := .type "Item" (.name (some "time") "Time" somewhere) somewhere

def cartDecl : Decl := .type "Cart" (.slice (writtenName "Item") somewhere) somewhere

def buyDecl : Decl :=
  .func "Buy" ⟨[⟨some "c", writtenName "Cart", false, somewhere⟩], [], somewhere⟩ somewhere

def goodsFile (decls : List Decl) : ParsedFile :=
  ⟨"shop/goods.api", "shop", [⟨none, "time", somewhere⟩], decls⟩

def cartFile : ParsedFile := ⟨"shop/cart.api", "shop", [], [cartDecl]⟩

def timeModules : ModuleSet :=
  ⟨[⟨"time", "time", some ⟨[("Time", .type ⟨"Time", .basic .int64⟩)]⟩, []⟩], []⟩

theorem resolveModule_reorders_shop :
    ReordersFiles [goodsFile [itemDecl, buyDecl], cartFile] [cartFile,
      goodsFile [buyDecl, itemDecl]] ∧
      (resolveModule "shop" [cartFile, goodsFile [buyDecl, itemDecl]] timeModules).diagnostics =
        [] ∧
      (resolveModule "shop" [goodsFile [itemDecl, buyDecl], cartFile] timeModules).module.Matches
        (resolveModule "shop" [cartFile, goodsFile [buyDecl, itemDecl]] timeModules).module := by
  have hgoods : (goodsFile [itemDecl, buyDecl]).Reorders (goodsFile [buyDecl, itemDecl]) :=
    ⟨rfl, rfl, rfl, .swap ..⟩
  have h : ReordersFiles [goodsFile [itemDecl, buyDecl], cartFile] [cartFile,
      goodsFile [buyDecl, itemDecl]] :=
    ⟨_, .swap .., .cons ⟨rfl, rfl, rfl, .refl _⟩ (.cons hgoods .nil)⟩
  have hclean :
      (resolveModule "shop" [goodsFile [itemDecl, buyDecl], cartFile] timeModules).diagnostics =
        [] := by
    decide +kernel
  obtain ⟨hiff, hmatches⟩ := resolveModule_reorders h "shop" timeModules
  exact ⟨h, hiff.1 hclean, hmatches hclean⟩

end Shop

end Understudy
