import Understudy.Proofs.FileSpans
import Understudy.Proofs.ResolvedModule
import Understudy.Proofs.WrittenNames

namespace Understudy

section Uses

mutual

theorem TypeExpr.span_mem_of_uses {u : NameUse} (e : TypeExpr) (h : u ∈ e.uses) :
    u.span ∈ e.spans := by
  cases e with
  | name q name s =>
    obtain rfl := List.mem_singleton.1 h
    exact List.mem_singleton_self s
  | pointer elem s | slice elem s | array length elem s | chan dir elem s =>
    exact List.mem_cons_of_mem s (elem.span_mem_of_uses h)
  | map key elem s =>
    refine List.mem_cons_of_mem s (List.mem_append.2 ?_)
    exact (List.mem_append.1 h).imp key.span_mem_of_uses elem.span_mem_of_uses
  | func sig s => exact List.mem_cons_of_mem s (sig.span_mem_of_uses h)
  | interface elements s =>
    exact List.mem_cons_of_mem s (ElementExpr.span_mem_of_allUses elements h)
  | struct fields s => exact List.mem_cons_of_mem s (FieldExpr.span_mem_of_allUses fields h)
termination_by structural e

theorem SignatureExpr.span_mem_of_uses {u : NameUse} (sig : SignatureExpr TypeExpr)
    (h : u ∈ sig.uses) : u.span ∈ sig.spans := by
  obtain ⟨params, results, s⟩ := sig
  refine List.mem_cons_of_mem s (List.mem_append.2 ?_)
  exact (List.mem_append.1 h).imp (ParamExpr.span_mem_of_allUses params)
    (ParamExpr.span_mem_of_allUses results)
termination_by structural sig

theorem ParamExpr.span_mem_of_allUses {u : NameUse} (params : List (ParamExpr TypeExpr))
    (h : u ∈ ParamExpr.allUses params) : u.span ∈ ParamExpr.allSpans params := by
  cases params with
  | nil => exact absurd h List.not_mem_nil
  | cons p rest =>
    obtain ⟨name, type, variadic, s⟩ := p
    refine List.mem_cons_of_mem s (List.mem_append.2 ?_)
    exact (List.mem_append.1 h).imp type.span_mem_of_uses (ParamExpr.span_mem_of_allUses rest)
termination_by structural params

theorem ElementExpr.span_mem_of_allUses {u : NameUse} (elements : List (ElementExpr TypeExpr))
    (h : u ∈ ElementExpr.allUses elements) : u.span ∈ ElementExpr.allSpans elements := by
  cases elements with
  | nil => exact absurd h List.not_mem_nil
  | cons e rest =>
    cases e with
    | method name sig s =>
      refine List.mem_cons_of_mem s (List.mem_append.2 ?_)
      exact (List.mem_append.1 h).imp sig.span_mem_of_uses (ElementExpr.span_mem_of_allUses rest)
    | embedded type =>
      refine List.mem_append.2 ?_
      exact (List.mem_append.1 h).imp type.span_mem_of_uses (ElementExpr.span_mem_of_allUses rest)
termination_by structural elements

theorem FieldExpr.span_mem_of_allUses {u : NameUse} (fields : List (FieldExpr TypeExpr))
    (h : u ∈ FieldExpr.allUses fields) : u.span ∈ FieldExpr.allSpans fields := by
  cases fields with
  | nil => exact absurd h List.not_mem_nil
  | cons f rest =>
    obtain ⟨name, type, s⟩ := f
    refine List.mem_cons_of_mem s (List.mem_append.2 ?_)
    exact (List.mem_append.1 h).imp type.span_mem_of_uses (FieldExpr.span_mem_of_allUses rest)
termination_by structural fields

end

theorem Decl.span_mem_of_uses {u : NameUse} {d : Decl} (h : u ∈ d.uses) : u.span ∈ d.spans := by
  cases d with
  | type name e s => exact List.mem_cons_of_mem s (e.span_mem_of_uses h)
  | func name sig s => exact List.mem_cons_of_mem s (sig.span_mem_of_uses h)

theorem Decl.span_mem_spans (d : Decl) : d.span ∈ d.spans := by
  cases d <;> simp [span, spans]

end Uses

namespace NameContext

theorem Complains.exists_misuse {ctx : NameContext} {us : List NameUse} {ds : List Diagnostic}
    (h : ctx.Complains us ds) {d : Diagnostic} (hd : d ∈ ds) : ∃ u ∈ us, ∃ e, ctx.Misuses u e ∧
      d = (Diagnostic.error e.message (some u.span)).inFile ctx.fileId := by
  induction h with
  | nil => exact absurd hd List.not_mem_nil
  | meant _ _ ih =>
    obtain ⟨u, hu, hmisuse⟩ := ih hd
    exact ⟨u, List.mem_cons_of_mem _ hu, hmisuse⟩
  | amiss _ h _ ih =>
    rcases List.mem_cons.1 hd with rfl | hd
    · exact ⟨_, List.mem_cons_self .., _, h, rfl⟩
    · obtain ⟨u, hu, hmisuse⟩ := ih hd
      exact ⟨u, List.mem_cons_of_mem _ hu, hmisuse⟩

end NameContext

namespace Resolve

/-- What is said of a file of the module at `path` when it is resolved. -/
inductive Concerns (path : String) (files : List ParsedFile) (deps : ModuleSet) (f : ParsedFile) :
    Diagnostic → Prop
  | package (h : f.file.package ≠ packageName files) :
      Concerns path files deps f
        ((Diagnostic.error ("package `" ++ f.file.package ++ "` conflicts with package `"
      ++ packageName files ++ "` declared by other files of `" ++ path ++ "`") none).inFile f.id)
  | redeclared {d : Decl} (h : d ∈ f.file.decls) : Concerns path files deps f
      ((Diagnostic.error ("`" ++ d.name ++ "` redeclared in this module") (some d.span)).inFile
        f.id)
  | unloaded {i : ImportSpec} (h : i ∈ f.file.imports)
      (hnone : deps.get? (ModulePath.unvendor i.path) = none) :
      Concerns path files deps f
        ((Diagnostic.error ("import `" ++ ModulePath.unvendor i.path ++ "` was not loaded")
      (some i.span)).inFile f.id)
  | rebound {i : ImportSpec} {m : Module} (h : i ∈ f.file.imports)
      (hm : deps.get? (ModulePath.unvendor i.path) = some m) : Concerns path files deps f
      ((Diagnostic.error ("`" ++ i.qualifier.getD m.name ++ "` redeclared in this file")
        (some i.span)).inFile f.id)
  | misused {d : Decl} {u : NameUse} {e : NameError} (hd : d ∈ f.file.decls) (hu : u ∈ d.uses)
    (h : (context path files deps f).Misuses u e) :
    Concerns path files deps f ((Diagnostic.error e.message (some u.span)).inFile f.id)

variable {path : String} {files : List ParsedFile} {deps : ModuleSet} {f : ParsedFile}
    {d : Diagnostic}

theorem Concerns.fileId_eq (h : Concerns path files deps f d) : d.fileId = some f.id := by
  cases h <;> rfl

theorem Concerns.span_mem (h : Concerns path files deps f d) {s : Span} (hs : d.span = some s) :
    s ∈ f.file.spans := by
  rw [SourceFile.spans]
  cases h with
  | package => cases hs
  | redeclared h =>
    cases hs
    exact List.mem_append_right _ (List.mem_flatMap.2 ⟨_, h, Decl.span_mem_spans _⟩)
  | unloaded h | rebound h =>
    cases hs
    exact List.mem_append_left _ (List.mem_map_of_mem h)
  | misused hd hu =>
    cases hs
    exact List.mem_append_right _ (List.mem_flatMap.2 ⟨_, hd, Decl.span_mem_of_uses hu⟩)

theorem exists_redeclared {seen : List String} {placed : List (String × Decl)}
    (h : d ∈ redeclarations seen placed) :
    ∃ p ∈ placed, d =
      (Diagnostic.error ("`" ++ p.2.name ++ "` redeclared in this module") (some p.2.span)).inFile
      p.1 := by
  induction placed generalizing seen with
  | nil => exact absurd h List.not_mem_nil
  | cons p rest ih =>
    rw [redeclarations] at h
    split at h
    · rcases List.mem_cons.1 h with rfl | h
      · exact ⟨p, List.mem_cons_self .., rfl⟩
      · obtain ⟨q, hq, hd⟩ := ih h
        exact ⟨q, List.mem_cons_of_mem _ hq, hd⟩
    · obtain ⟨q, hq, hd⟩ := ih h
      exact ⟨q, List.mem_cons_of_mem _ hq, hd⟩

theorem concerns_bindAll {specs : List ImportSpec} {bound : List (String × ModuleRef)}
    (hspecs : ∀ i ∈ specs, i ∈ f.file.imports)
    (h : d ∈ (ImportSpec.bindAll deps f.id bound specs).2) : Concerns path files deps f d := by
  induction specs generalizing bound with
  | nil => exact absurd h List.not_mem_nil
  | cons i rest ih =>
    obtain ⟨hi, hrest⟩ := List.forall_mem_cons.1 hspecs
    rw [ImportSpec.bindAll] at h
    split at h
    · exact ih hrest h
    · rename_i ds hbind
      rcases List.mem_append.1 h with h | h
      · rw [ImportSpec.bind] at hbind
        split at hbind
        · rename_i hnone
          cases hbind
          obtain rfl := List.mem_singleton.1 h
          exact .unloaded hi hnone
        · rename_i m hm
          dsimp only at hbind
          split at hbind
          · cases hbind
          · split at hbind
            · cases hbind
              obtain rfl := List.mem_singleton.1 h
              exact .rebound hi hm
            · cases hbind
      · exact ih hrest h

theorem exists_concerns (h : d ∈ (resolveModule path files deps).diagnostics) :
    ∃ f ∈ files, Concerns path files deps f d := by
  rw [diagnostics_resolveModule] at h
  rcases List.mem_append.1 h with h | h
  · rcases List.mem_append.1 h with h | h
    · obtain ⟨f, hf, rfl⟩ := List.mem_map.1 h
      obtain ⟨hf, hne⟩ := List.mem_filter.1 hf
      exact ⟨f, List.mem_of_mem_tail hf, .package (by simpa using hne)⟩
    · obtain ⟨p, hp, rfl⟩ := exists_redeclared h
      obtain ⟨f, hf, hp⟩ := List.mem_flatMap.1 hp
      obtain ⟨decl, hdecl, rfl⟩ := List.mem_map.1 hp
      exact ⟨f, hf, .redeclared hdecl⟩
  · obtain ⟨f, hf, h⟩ := List.mem_flatMap.1 h
    rcases List.mem_append.1 h with h | h
    · exact ⟨f, hf, concerns_bindAll (fun _ hi ↦ hi) h⟩
    · obtain ⟨c, hc, h⟩ := List.mem_flatMap.1 h
      obtain ⟨decl, hdecl, rfl⟩ := List.mem_map.1 hc
      obtain ⟨u, hu, e, he, rfl⟩ :=
        ((context path files deps f).complains_objectOf decl).exists_misuse h
      exact ⟨f, hf, .misused hdecl hu he⟩

end Resolve

theorem readSource_within (source : String) :
    (∀ d ∈ (readSource source).diagnostics, d.Within source.utf8ByteSize) ∧
    ∀ file, (readSource source).file = some file → AllWithin source.utf8ByteSize file.spans := by
  obtain ⟨parsed, hparsed, hwithin⟩ := exists_parse (inOrder_lex source) (stop_le_lex source)
  rw [Parsed.spans, allWithin_append, allWithin_diagnosticSpans] at hwithin
  have hread : readSource source =
      if (lex source).diagnostics.isEmpty then
        if parsed.diagnostics.isEmpty then ⟨some parsed.file, []⟩ else ⟨none, parsed.diagnostics⟩
      else ⟨none, (lex source).diagnostics⟩ := by
    rw [readSource, hparsed]
  rw [hread]
  split_ifs
  · refine ⟨List.forall_mem_nil _, fun file hfile ↦ ?_⟩
    cases hfile
    exact hwithin.1
  · refine ⟨hwithin.2, fun file hfile ↦ ?_⟩
    cases hfile
  · refine ⟨diagnostics_within_lex source, fun file hfile ↦ ?_⟩
    cases hfile

end Understudy
