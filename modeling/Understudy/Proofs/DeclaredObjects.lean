import Understudy.Proofs.FileTexts
import Understudy.Proofs.ReadDeclarations
import Understudy.Proofs.RequestedModules

namespace Understudy

namespace Library

variable {lib : Library} {request : String} {m : Module}

/-- A declaration that a file of the library has as a part of the module at `path`, with the tokens
of the file and with what names mean in it. -/
inductive HasDecl (lib : Library) (path : String) : List Token → NameContext → Decl → Prop
  | intro {source : String} {files : List ParsedFile} {f : ParsedFile} {d : Decl} {deps : ModuleSet}
      (hsource : source ∈ lib.tree.texts) (hread : (readSource source).file = some f.file)
      (hf : f ∈ files) (hd : d ∈ f.file.decls) :
      HasDecl lib path (lex source).tokens (Resolve.context path files deps f) d

theorem HasDecl.isIdentifier {path : String} {tokens : List Token} {ctx : NameContext} {d : Decl}
    (h : lib.HasDecl path tokens ctx d) : Token.isIdentifier d.name = true := by
  obtain ⟨-, hread, -, hd⟩ := h
  exact (isReadFrom_readSource hread).name d hd

theorem HasDecl.stands {path : String} {tokens : List Token} {ctx : NameContext} {d : Decl}
    (h : lib.HasDecl path tokens ctx d) :
    ∀ sig ∈ d.signatures, Reader.Stands sig (.ofTokens tokens) := by
  obtain ⟨-, hread, -, hd⟩ := h
  exact (isReadFrom_readSource hread).stands d hd

theorem exists_text_of_mem_parsed {path directory : String} {s s' : Session} {files : List ReadFile}
    (h : lib.readFiles path directory s = .ok files s') {f : ParsedFile}
    (hf : f ∈ files.filterMap (·.parsed?)) :
    ∃ source ∈ lib.tree.texts, (readSource source).file = some f.file := by
  obtain ⟨read, hmem, hf⟩ := List.mem_filterMap.1 hf
  obtain ⟨name, hread⟩ := mem_readFiles h read hmem
  obtain ⟨file, hfile, rfl⟩ := Option.map_eq_some_iff.1 hf
  exact ⟨read.source, FileTree.mem_texts_of_read hread.source, by rwa [← hread.reading]⟩

theorem Builds.exists_hasDecl (h : lib.Builds request m) {scope : Scope}
    (hscope : m.scope = some scope) {entry : String × Object} (he : entry ∈ scope.objects) :
    ∃ tokens ctx d, lib.HasDecl m.path tokens ctx d ∧ ctx.objectOf d = .ok entry.2 := by
  obtain ⟨directory, files, deps, hmakes⟩ := h
  have hpath := hmakes.path
  obtain ⟨s, s', hread⟩ := hmakes.read
  rw [hmakes.eq_module, resolution, Resolve.module_resolveModule] at hscope
  cases hscope
  rcases Resolve.mem_addObjects he with he | ⟨hobject, -⟩
  · exact absurd he List.not_mem_nil
  · obtain ⟨f, hf, d, hd, ho⟩ := Resolve.mem_objects.1 hobject
    obtain ⟨source, hsource, hfile⟩ := exists_text_of_mem_parsed hread hf
    exact ⟨_, _, d, .intro hsource hfile hf hd, hpath ▸ ho⟩

theorem Builds.isIdentifier (h : lib.Builds request m) {scope : Scope}
    (hscope : m.scope = some scope) {entry : String × Object} (he : entry ∈ scope.objects) :
    Token.isIdentifier m.name = true := by
  obtain ⟨directory, files, deps, hmakes⟩ := h
  obtain ⟨s, s', hread⟩ := hmakes.read
  have hname : m.name = Resolve.packageName (files.filterMap (·.parsed?)) := by
    rw [hmakes.eq_module, resolution, Resolve.module_resolveModule]
  rw [hmakes.eq_module, resolution, Resolve.module_resolveModule] at hscope
  cases hscope
  rcases Resolve.mem_addObjects he with he | ⟨hobject, -⟩
  · exact absurd he List.not_mem_nil
  · obtain ⟨f, hf, -⟩ := Resolve.mem_objects.1 hobject
    cases hfiles : files.filterMap (·.parsed?) with
    | nil =>
      rw [hfiles] at hf
      cases hf
    | cons first rest =>
      obtain ⟨source, -, hfile⟩ :=
        exists_text_of_mem_parsed hread (hfiles ▸ List.mem_cons_self .. : first ∈ _)
      rw [hname, hfiles]
      exact (isReadFrom_readSource hfile).package

theorem Adds.exists_builds {loading : List String} {a b : ModuleSet} (h : lib.Adds loading a b)
    (hm : m ∈ b.modules) : m ∈ a.modules ∨ ∃ request, lib.Builds request m := by
  cases h with
  | @intro request directory files deps added hmakes hfresh _ =>
    rw [ModuleSet.insert_of_fresh hfresh] at hm
    rcases List.mem_append.1 hm with hm | hm
    · exact .inl hm
    · rw [List.mem_singleton.1 hm]
      exact .inr ⟨request, directory, files, _, hmakes⟩

theorem Grows.exists_builds {loading : List String} {a b : ModuleSet} (h : lib.Grows loading a b)
    (hm : m ∈ b.modules) : m ∈ a.modules ∨ ∃ request, lib.Builds request m := by
  induction h with
  | refl => exact .inl hm
  | tail _ hadds ih =>
    rcases hadds.exists_builds hm with hm | hm
    · exact ih hm
    · exact .inr hm

theorem exists_builds_loadRoot {s : Session}
    (hm : m ∈ ((lib.loadRoot request).after s).modules.modules) :
    m ∈ s.modules.modules ∨ ∃ q, lib.Builds q m := by
  have hgrows := (lib.extends_loadWithin (lib.allRequests.length + 2) [] request s).grows
  rw [← load] at hgrows
  cases h : lib.load request s with
  | ok path s' =>
    rw [h] at hgrows
    rw [Load.after_ok (loadRoot_ok h), ModuleSet.modules_markRoot] at hm
    exact hgrows.exists_builds hm
  | error e s' =>
    rw [h] at hgrows
    rw [Load.after_error (loadRoot_error h)] at hm
    exact hgrows.exists_builds hm

end Library

namespace Session

theorem exists_builds_history (calls : List (Library × String)) {m : Module}
    (hm : m ∈ (history calls).modules.modules) :
    ∃ call ∈ calls, ∃ request, call.1.Builds request m := by
  induction calls using List.reverseRecOn with
  | nil => cases hm
  | append_singleton calls call ih =>
    rw [history, List.foldl_append] at hm
    rcases Library.exists_builds_loadRoot hm with hm | hm
    · obtain ⟨earlier, hmem, hbuilds⟩ := ih hm
      exact ⟨earlier, List.mem_append_left _ hmem, hbuilds⟩
    · exact ⟨call, List.mem_append_right _ (List.mem_singleton_self _), hm⟩

end Session

end Understudy
