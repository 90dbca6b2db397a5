import Understudy.Proofs.ResolvedModule

namespace Understudy

namespace NameContext

variable {ctx ctx' : NameContext}

mutual

theorem typeOf_congr (hnames : ctx.namedType = ctx'.namedType) (hid : ctx.fileId = ctx'.fileId)
    (e : TypeExpr) : ctx.typeOf e = ctx'.typeOf e := by
  cases e with
  | name q name s => rw [typeOf, typeOf, hnames, hid]
  | pointer elem s | slice elem s | array length elem s | chan dir elem s =>
    rw [typeOf, typeOf, typeOf_congr hnames hid elem]
  | map key elem s => rw [typeOf, typeOf, typeOf_congr hnames hid key, typeOf_congr hnames hid elem]
  | func sig s => rw [typeOf, typeOf, signatureOf_congr hnames hid sig]
  | interface elements s => rw [typeOf, typeOf, elementsOf_congr hnames hid elements]
  | struct fields s => rw [typeOf, typeOf, fieldsOf_congr hnames hid fields]
termination_by structural e

theorem signatureOf_congr (hnames : ctx.namedType = ctx'.namedType) (hid : ctx.fileId = ctx'.fileId)
    (sig : SignatureExpr TypeExpr) : ctx.signatureOf sig = ctx'.signatureOf sig := by
  obtain ⟨params, results, span⟩ := sig
  rw [signatureOf, signatureOf, paramsOf_congr hnames hid params, paramsOf_congr hnames hid results]
termination_by structural sig

theorem paramsOf_congr (hnames : ctx.namedType = ctx'.namedType) (hid : ctx.fileId = ctx'.fileId)
    (params : List (ParamExpr TypeExpr)) : ctx.paramsOf params = ctx'.paramsOf params := by
  cases params with
  | nil => rfl
  | cons p rest =>
    obtain ⟨name, type, variadic, span⟩ := p
    rw [paramsOf, paramsOf, typeOf_congr hnames hid type, paramsOf_congr hnames hid rest]
termination_by structural params

theorem elementsOf_congr (hnames : ctx.namedType = ctx'.namedType) (hid : ctx.fileId = ctx'.fileId)
    (elements : List (ElementExpr TypeExpr)) :
    ctx.elementsOf elements = ctx'.elementsOf elements := by
  cases elements with
  | nil => rfl
  | cons e rest =>
    cases e with
    | method name sig s =>
      rw [elementsOf, elementsOf, signatureOf_congr hnames hid sig,
        elementsOf_congr hnames hid rest]
    | embedded type =>
      rw [elementsOf, elementsOf, typeOf_congr hnames hid type, elementsOf_congr hnames hid rest]
termination_by structural elements

theorem fieldsOf_congr (hnames : ctx.namedType = ctx'.namedType) (hid : ctx.fileId = ctx'.fileId)
    (fields : List (FieldExpr TypeExpr)) : ctx.fieldsOf fields = ctx'.fieldsOf fields := by
  cases fields with
  | nil => rfl
  | cons f rest =>
    obtain ⟨name, type, span⟩ := f
    rw [fieldsOf, fieldsOf, typeOf_congr hnames hid type, fieldsOf_congr hnames hid rest]
termination_by structural fields

end

theorem objectOf_congr (hnames : ctx.namedType = ctx'.namedType) (hid : ctx.fileId = ctx'.fileId) :
    ctx.objectOf = ctx'.objectOf := by
  funext d
  cases d with
  | type name type s => rw [objectOf, objectOf, typeOf_congr hnames hid]
  | func name sig s => rw [objectOf, objectOf, signatureOf_congr hnames hid]

theorem namedType_congr {self : ModuleRef} {fileId : String} {decls : List Decl}
    {imports : List (String × ModuleRef)} {deps deps' : ModuleSet}
    (h : ∀ entry ∈ imports, deps.get? entry.2.path = deps'.get? entry.2.path) :
    namedType ⟨self, fileId, decls, imports, deps⟩ =
      namedType ⟨self, fileId, decls, imports, deps'⟩ := by
  funext q name
  cases q with
  | none => rfl
  | some q =>
    rw [namedType, namedType, importedType, importedType]
    dsimp only
    cases hq : imports.lookup q with
    | none => rfl
    | some ref =>
      obtain ⟨before, after, himports, -⟩ := List.lookup_eq_some_iff.1 hq
      have hmem : (q, ref) ∈ imports := himports ▸ List.mem_append_right _ (List.mem_cons_self ..)
      have hget : deps.get? ref.path = deps'.get? ref.path := h _ hmem
      dsimp only
      rw [hget]

end NameContext

namespace ImportSpec

variable {deps deps' : ModuleSet} {fileId : String} {specs : List ImportSpec}

theorem bindAll_congr
    (h : ∀ i ∈ specs, deps.get? (ModulePath.unvendor i.path) =
      deps'.get? (ModulePath.unvendor i.path)) (bound : List (String × ModuleRef)) :
    bindAll deps fileId bound specs = bindAll deps' fileId bound specs := by
  induction specs generalizing bound with
  | nil => rfl
  | cons i rest ih =>
    obtain ⟨hfirst, hrest⟩ := List.forall_mem_cons.1 h
    have hbind : i.bind deps fileId bound = i.bind deps' fileId bound := by
      rw [ImportSpec.bind, ImportSpec.bind, hfirst]
    rw [bindAll, bindAll, hbind]
    simp only [ih hrest]

end ImportSpec

namespace Resolve

theorem fileObjects_congr {self : ModuleRef} {decls : List Decl} {deps deps' : ModuleSet}
    {f : ParsedFile}
    (h : ∀ i ∈ f.file.imports, deps.get? (ModulePath.unvendor i.path) =
      deps'.get? (ModulePath.unvendor i.path)) :
    fileObjects self decls deps f = fileObjects self decls deps' f := by
  rw [fileObjects, fileObjects, ImportSpec.bindAll_congr h]
  have hnames : ∀ entry ∈ (ImportSpec.bindAll deps' f.id [] f.file.imports).1,
      deps.get? entry.2.path = deps'.get? entry.2.path := by
    intro entry hentry
    rcases ImportSpec.mem_bindAll hentry with hnil | ⟨i, hi, m, -, hpath, href⟩
    · exact absurd hnil List.not_mem_nil
    · rw [href, Module.ref, hpath]
      exact h i hi
  dsimp only
  rw [NameContext.objectOf_congr (NameContext.namedType_congr hnames) rfl]

end Resolve

theorem resolveModule_congr {path : String} {files : List ParsedFile} {deps deps' : ModuleSet}
    (h : ∀ f ∈ files, ∀ i ∈ f.file.imports,
      deps.get? (ModulePath.unvendor i.path) = deps'.get? (ModulePath.unvendor i.path)) :
    resolveModule path files deps = resolveModule path files deps' := by
  rw [resolveModule, resolveModule,
    List.map_congr_left fun f hf ↦ Resolve.fileObjects_congr (h f hf)]

end Understudy
