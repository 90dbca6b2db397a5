import Understudy.Proofs.DisplayedFiles
import Understudy.Proofs.ResolvedModule
import Understudy.Proofs.VendorSegments

namespace Understudy

/-- A module of the set that is called by its path. -/
structure ModuleSet.Calls (deps : ModuleSet) (path : String) : Prop where
  isIdentifier : Token.isIdentifier path = true
  ne : path ≠ "_"
  found : (deps.get? path).map (·.name) = some path

/-- Names known everywhere and the names of types that one of the modules declares. -/
inductive TypeName.IsImported (deps : ModuleSet) (modules : List String) : TypeName → Prop
  | error : IsImported deps modules Ty.errorName
  | declared {path name : String} {decl : TypeDecl} (hpath : path ∈ modules)
      (hname : Token.isIdentifier name = true)
      (hdecl : deps.lookupType? ⟨name, some ⟨path, path⟩⟩ = some decl) :
      IsImported deps modules ⟨name, some ⟨path, path⟩⟩

/-- No declaration hides a name that is known everywhere. -/
def LeavesUniverse (decls : List Decl) : Prop :=
  ∀ d ∈ decls, BasicKind.ofName? d.name = none ∧ d.name ≠ "error"

theorem unvendor_of_isIdentifier {path : String} (h : Token.isIdentifier path = true) :
    ModulePath.unvendor path = path := by
  have hslash : '/' ∉ path.toList := by
    intro hmem
    exact absurd (Token.inWord_of_isIdentifier h _ hmem) (by decide)
  have hvendor : ¬ModulePath.HasVendor path.toList := by
    rintro (hfront | hinner)
    · exact hslash (hfront.subset (by decide))
    · exact hslash (hinner.subset (by decide))
  rw [ModulePath.unvendor, ModulePath.unvendorChars_of_not_hasVendor hvendor, String.ofList_toList]

section Binding

variable {deps : ModuleSet} {modules : List String} {specs : List ImportSpec}
    {bound : List (String × ModuleRef)}

def boundModules (modules : List String) : List (String × ModuleRef) :=
  modules.map fun path ↦ (path, ⟨path, path⟩)

theorem ImportSpec.bind_calls {path : String} (h : deps.Calls path)
    (hbound : bound.lookup path = none) {i : ImportSpec} (hi : i.qualifier = none ∧ i.path = path)
    (id : String) : i.bind deps id bound = .ok (some (path, ⟨path, path⟩)) := by
  obtain ⟨m, hm, hname⟩ := Option.map_eq_some_iff.1 h.found
  have hpath : m.path = path := by simpa using List.find?_some hm
  simp [ImportSpec.bind, hi, unvendor_of_isIdentifier h.isIdentifier, hm, hname, hpath, h.ne,
    hbound, Module.ref]

theorem ImportSpec.bindAll_importsOf (hmodules : ∀ m ∈ modules, deps.Calls m)
    (hnodup : modules.Nodup) (h : Reader.ImportsOf modules specs)
    (hbound : ∀ m ∈ modules, bound.lookup m = none) (id : String) :
    bindAll deps id bound specs = (bound ++ boundModules modules, []) := by
  induction h generalizing bound with
  | nil => simp [bindAll, boundModules]
  | @cons path i modules specs hi h ih =>
    rw [List.forall_mem_cons] at hmodules hbound
    obtain ⟨hfresh, hnodup⟩ := List.nodup_cons.1 hnodup
    have hlater : ∀ m ∈ modules, (bound ++ [(path, (⟨path, path⟩ : ModuleRef))]).lookup m =
        none := by
      intro m hm
      have hne : m ≠ path := by
        rintro rfl
        exact hfresh hm
      exact lookup_append_fresh (hbound.2 m hm) hne _
    have hrest := ih hmodules.2 hnodup hlater
    rw [bindAll, bind_calls hmodules.1 hbound.1 hi]
    simpa [boundModules] using hrest

end Binding

namespace NameContext

variable {deps : ModuleSet} {modules : List String} {ctx : NameContext}

theorem decl?_eq_none {name : String} (h : ∀ d ∈ ctx.decls, d.name ≠ name) :
    ctx.decl? name = none := by
  simpa [decl?] using h

theorem knows_imported (hmodules : ∀ m ∈ modules, deps.Calls m) (hdeps : ctx.deps = deps)
    (himports : ctx.imports = boundModules modules) (hdecls : LeavesUniverse ctx.decls) :
    ctx.Knows (TypeName.IsImported deps modules) where
  basic kind := by
    refine decl?_eq_none fun d hd hname ↦ ?_
    have hnone := (hdecls d hd).1
    rw [hname, BasicKind.ofName?_name] at hnone
    cases hnone
  spelled name h := by
    cases h with
    | error => exact ⟨by decide +kernel, nofun⟩
    | declared hpath hname => exact ⟨hname, by rintro _ ⟨⟩; exact (hmodules _ hpath).isIdentifier⟩
  means name h := by
    cases h with
    | error =>
      have hbasic : BasicKind.ofName? "error" = none := by decide +kernel
      have herror : ctx.decl? "error" = none := decl?_eq_none fun d hd ↦ (hdecls d hd).2
      simp [Ty.errorName, namedType, localType, herror, hbasic]
    | @declared path name decl hpath hname hdecl =>
      obtain ⟨m, hm, hdecl⟩ := Option.bind_eq_some_iff.1 hdecl
      have hlookup : ctx.imports.lookup path = some ⟨path, path⟩ :=
        himports ▸ List.lookup_graph _ hpath
      have hobject : (ctx.deps.get? path).bind (·.lookup? name) = some (.type decl) := by
        rw [hdeps, Option.bind_eq_some_iff]
        exact ⟨m, hm, Module.lookupType?_eq_some.1 hdecl⟩
      simp [namedType, importedType, hlookup, hobject]

end NameContext

section Files

variable {deps : ModuleSet} {modules : List String} {package name : String} {t : Ty}

theorem exists_displayedFile (hmodules : ∀ m ∈ modules, deps.Calls m) (hnodup : modules.Nodup)
    (ht : t.IsTextual (TypeName.IsImported deps modules)) (hp : Token.isIdentifier package = true)
    (hn : Token.isIdentifier name = true) :
    ∃ specs e s, readSource (displayFile modules package name t) =
      ⟨some ⟨package, specs, [.type name e s]⟩, []⟩ ∧ ∀ self decls id, LeavesUniverse decls →
        Resolve.fileObjects self decls deps ⟨id, package, specs, [.type name e s]⟩ =
          ([.type ⟨name, t⟩], []) := by
  have hidents : ∀ m ∈ modules, Token.isIdentifier m = true :=
    fun m hm ↦ (hmodules m hm).isIdentifier
  have hread : ∀ ctx : NameContext, ctx.Knows (TypeName.IsImported deps modules) → ∃ specs e s,
      readSource (displayFile modules package name t) =
        ⟨some ⟨package, specs, [.type name e s]⟩, []⟩ ∧
        Reader.ImportsOf modules specs ∧ ctx.typeOf e = .ok t := by
    intro ctx hctx
    obtain ⟨ws, hws⟩ := (ht.displays hctx).1
    exact readSource_displayFile hidents hp hn hws
  obtain ⟨specs, e, s, hfile, hspecs, -⟩ := hread ⟨⟨"", ""⟩, "", [], boundModules modules, deps⟩
    (NameContext.knows_imported hmodules rfl rfl nofun)
  refine ⟨specs, e, s, hfile, fun self decls id hdecls ↦ ?_⟩
  have hbound : ∀ m ∈ modules, ([] : List (String × ModuleRef)).lookup m = none := fun _ _ ↦ rfl
  have hbind := ImportSpec.bindAll_importsOf hmodules hnodup hspecs hbound id
  -- The text does not depend on the context, so what was read above is what is read for this one.
  obtain ⟨_, _, _, hsame, -, he⟩ := hread ⟨self, id, decls, boundModules modules, deps⟩
    (NameContext.knows_imported hmodules rfl rfl hdecls)
  rw [hfile] at hsame
  cases hsame
  rw [Resolve.fileObjects, hbind]
  simp [NameContext.objectOf, he, Except.map, Checked.problems, Except.toOption]

/-- Behind the imports of the modules of its names, the text of a type reads back without a report
as the type itself, in a module by itself and in any other that does not hide the names known
everywhere. -/
theorem displayFile_denotes (hmodules : ∀ m ∈ modules, deps.Calls m) (hnodup : modules.Nodup)
    (ht : t.IsTextual (TypeName.IsImported deps modules)) (hp : Token.isIdentifier package = true)
    (hn : Token.isIdentifier name = true) (hfresh : BasicKind.ofName? name = none)
    (herror : name ≠ "error") (path id : String) :
    ∃ file, readSource (displayFile modules package name t) = ⟨some file, []⟩ ∧
      (resolveModule path [⟨id, file⟩] deps).diagnostics = [] ∧
      (resolveModule path [⟨id, file⟩] deps).module.lookupType? name = some ⟨name, t⟩ ∧
      ∀ self decls, LeavesUniverse decls →
        Resolve.fileObjects self decls deps ⟨id, file⟩ = ([.type ⟨name, t⟩], []) := by
  obtain ⟨specs, e, s, hfile, hobjects⟩ := exists_displayedFile hmodules hnodup ht hp hn
  have halone : LeavesUniverse [.type name e s] := List.forall_mem_singleton.2 ⟨hfresh, herror⟩
  obtain ⟨hdiag, htype⟩ := Resolve.resolveModule_single (hobjects ⟨path, package⟩ _ id halone)
  exact ⟨_, hfile, hdiag, htype, fun self decls hdecls ↦ hobjects self decls id hdecls⟩

section Streams

def streamModules : ModuleSet :=
  ⟨[⟨"io", "io", some ⟨[("Reader", .type ⟨"Reader", .interface [] []⟩)]⟩, []⟩], []⟩

def reader : Ty := .named (some ⟨"Reader", some ⟨"io", "io"⟩⟩)

def openSignature : Signature Ty :=
  ⟨[⟨some "name", .basic .string⟩, ⟨some "rest", .slice reader⟩],
    [⟨none, .chan .recv (.basic .rune)⟩, ⟨none, .named (some Ty.errorName)⟩], true⟩

def streamTable : Ty :=
  .struct [⟨none, .pointer reader⟩, ⟨some "open", .signature openSignature⟩,
    ⟨some "all", .map (.basic .int) (.array 3 (.interface [⟨"Open", openSignature⟩] [reader]))⟩]

theorem isTextual_reader : reader.IsTextual (TypeName.IsImported streamModules ["io"]) := by
  have hdecl : streamModules.lookupType? ⟨"Reader", some ⟨"io", "io"⟩⟩ =
      some ⟨"Reader", .interface [] []⟩ := rfl
  exact .named (.declared (List.mem_singleton.2 rfl) (by decide +kernel) hdecl)

theorem isTextual_openSignature : openSignature.IsTextual where
  params := .inr (by simp [openSignature])
  results := .inl (by simp [openSignature])
  names := by
    simp only [openSignature, List.cons_append, List.nil_append, List.forall_mem_cons]
    refine ⟨?_, ?_, nofun, nofun, nofun⟩ <;>
    · rintro _ ⟨⟩
      decide +kernel
  variadic _ := rfl

theorem isTextual_streamTable :
    streamTable.IsTextual (TypeName.IsImported streamModules ["io"]) := by
  have hparams :
      ∀ v ∈ openSignature.params, v.type.IsTextual (TypeName.IsImported streamModules ["io"]) := by
    simp only [openSignature, List.forall_mem_cons]
    exact ⟨.basic _, .slice isTextual_reader, nofun⟩
  have hresults :
      ∀ v ∈ openSignature.results, v.type.IsTextual (TypeName.IsImported streamModules ["io"]) := by
    simp only [openSignature, List.forall_mem_cons]
    exact ⟨.chan nofun (.basic _), .named .error, nofun⟩
  refine .struct ?_ ?_ ?_
  · simp only [List.forall_mem_cons]
    refine ⟨nofun, ?_, ?_, nofun⟩ <;>
    · rintro _ ⟨⟩
      decide +kernel
  · simp only [List.forall_mem_cons]
    exact ⟨fun _ ↦ .inr rfl, nofun, nofun, nofun⟩
  · simp only [List.forall_mem_cons]
    refine ⟨.pointer isTextual_reader, .signature isTextual_openSignature hparams hresults,
      ?_, nofun⟩
    refine .map (.basic _) (.array _ (.interface ?_ ?_ ?_ ?_ ?_))
    · exact List.forall_mem_singleton.2 rfl
    · exact List.forall_mem_singleton.2 isTextual_reader
    · exact List.forall_mem_singleton.2 ⟨by decide +kernel, isTextual_openSignature⟩
    · exact List.forall_mem_singleton.2 hparams
    · exact List.forall_mem_singleton.2 hresults

theorem displayFile_denotes_streams :
    (∀ m ∈ ["io"], streamModules.Calls m) ∧ ["io"].Nodup ∧
    streamTable.IsTextual (TypeName.IsImported streamModules ["io"]) ∧
    ∃ file, readSource (displayFile ["io"] "main" "Table" streamTable) = ⟨some file, []⟩ ∧
      (resolveModule "main" [⟨"main/main.api", file⟩] streamModules).diagnostics = [] ∧
      (resolveModule "main" [⟨"main/main.api", file⟩] streamModules).module.lookupType? "Table" =
        some ⟨"Table", streamTable⟩ := by
  have hcalls : ∀ m ∈ ["io"], streamModules.Calls m :=
    List.forall_mem_singleton.2 ⟨by decide +kernel, by decide, rfl⟩
  have hmain : Token.isIdentifier "main" = true := by decide +kernel
  have htable : Token.isIdentifier "Table" = true := by decide +kernel
  obtain ⟨file, hread, hdiag, htype, -⟩ :=
    displayFile_denotes hcalls (List.nodup_singleton _) isTextual_streamTable
    hmain htable (by decide +kernel) (by decide) "main" "main/main.api"
  exact ⟨hcalls, List.nodup_singleton _, isTextual_streamTable, file, hread, hdiag, htype⟩

example : streamTable.display =
    "struct\x7b*io.Reader; open func(name string, rest ...io.Reader) (<-chan rune, error); " ++
      "all map[int][3]interface\x7bio.Reader; Open(name string, rest ...io.Reader) (<-chan rune, error)\x7d\x7d" := by
  decide +kernel

end Streams

end Files

end Understudy
