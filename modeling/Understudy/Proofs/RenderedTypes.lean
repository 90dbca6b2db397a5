import Understudy.Proofs.FileReading
import Understudy.Proofs.ResolvedModule

namespace Understudy

namespace NameContext

/-- A written type means the type that it stands for if each of its names does. -/
theorem typeOf_writes {ctx : NameContext} {q : TypeName → Option String} {e : TypeExpr} {t : Ty}
    (h : e.Writes q t) (hbasic : ∀ kind : BasicKind, ctx.decl? kind.name = none)
    (hnames : t.MadeOf fun name ↦ ctx.namedType (q name) name.name = .ok (.named (some name))) :
    ctx.typeOf e = .ok t := by
  induction h with
  | basic kind s => simp [typeOf, namedType, localType, hbasic, BasicKind.ofName?_name]
  | named name s =>
    cases hnames with
    | named hn => rw [typeOf, hn]
  | pointer _ s ih | slice _ s ih =>
    cases hnames with
    | _ hn =>
      rw [typeOf, ih hn]
      rfl
  | array length _ s ih =>
    cases hnames with
    | array _ hn =>
      rw [typeOf, ih hn]
      rfl
  | map _ _ s ihk ih =>
    cases hnames with
    | map hk hn =>
      rw [typeOf, ihk hk, ih hn]
      rfl
  | chan dir _ s ih =>
    cases hnames with
    | chan _ hn =>
      rw [typeOf, ih hn]
      rfl

end NameContext

namespace ImportSpec

variable {deps : ModuleSet} {is : List Import} {specs : List ImportSpec}
    {bound : List (String × ModuleRef)}

theorem bindAll_imports (his : ∀ i ∈ is, i.IsWritable deps) (hnodup : (is.map (·.qualifier)).Nodup)
    (hspecs : Reader.Imports is specs) (hbound : ∀ i ∈ is, bound.lookup i.qualifier = none)
    (id : String) : ∃ added, bindAll deps id bound specs = (bound ++ added, []) ∧
      ∀ i ∈ is, ∀ m, deps.get? i.path = some m → (bound ++ added).lookup i.qualifier =
        some m.ref := by
  induction is generalizing specs bound with
  | nil =>
    obtain rfl := List.map_eq_nil_iff.1 hspecs
    exact ⟨[], by simp [bindAll], fun i hi ↦ absurd hi List.not_mem_nil⟩
  | cons i is ih =>
    obtain ⟨s, specs, rfl, hs, hspecs⟩ := List.map_eq_cons_iff.1 hspecs
    obtain ⟨hq, hp⟩ := Prod.mk.inj hs
    have hi := his i (List.mem_cons_self ..)
    obtain ⟨hfresh, hnodup⟩ := List.nodup_cons.1 hnodup
    obtain ⟨m, hm⟩ := Option.isSome_iff_exists.1 hi.found
    have hnone := hbound i (List.mem_cons_self ..)
    have hbind : s.bind deps id bound = .ok (some (i.qualifier, m.ref)) := by
      simp [ImportSpec.bind, hp, hi.unvendored, hm, hq, hi.qualifier_ne, hnone]
    have hlater : ∀ j ∈ is, (bound ++ [(i.qualifier, m.ref)]).lookup j.qualifier = none := by
      intro j hj
      have hne : j.qualifier ≠ i.qualifier := fun h ↦ hfresh (List.mem_map.2 ⟨j, hj, h⟩)
      exact lookup_append_fresh (hbound j (List.mem_cons_of_mem _ hj)) hne _
    obtain ⟨added, hadded, hlookup⟩ :=
      ih (fun j hj ↦ his j (List.mem_cons_of_mem _ hj)) hnodup hspecs hlater
    rw [List.append_assoc] at hadded
    refine ⟨(i.qualifier, m.ref) :: added, ?_, ?_⟩
    · rw [bindAll, hbind]
      exact hadded
    · intro j hj n hn
      rcases List.mem_cons.1 hj with rfl | hj
      · obtain rfl := Option.some.inj (hm.symm.trans hn)
        simp [List.lookup_append, hnone]
      · have h := hlookup j hj n hn
        rwa [List.append_assoc] at h

end ImportSpec

section Meaning

variable {deps : ModuleSet} {r : ImportRegistry} {specs : List ImportSpec} {package name : String}
  {e : TypeExpr} {t : Ty} {s : Span}

theorem NameContext.namedType_qualifies {ctx : NameContext} (hdeps : ctx.deps = deps)
    (herror : ctx.decl? "error" = none)
    (hctx : ∀ i ∈ r.entries, ∀ m, deps.get? i.path = some m →
      ctx.imports.lookup i.qualifier = some m.ref) {n : TypeName} (h : r.Qualifies deps n) :
    ctx.namedType (r.qualifier? n) n.name = .ok (.named (some n)) := by
  rcases h with ⟨rfl, hq⟩ | ⟨i, hi, m, decl, hm, hn, hd, -, hq⟩
  · have hbasic : BasicKind.ofName? "error" = none := by decide +kernel
    rw [hq, namedType, localType, Ty.errorName, herror]
    simp [hbasic]
  · have hpath : m.path = i.path := by simpa using List.find?_some hm
    obtain ⟨n, ref⟩ := n
    obtain rfl : ref = some m.ref := hn
    rw [hq, namedType, importedType, hctx i hi m hm, hdeps]
    have hlookup : (deps.get? m.ref.path).bind (·.lookup? n) = some (.type decl) := by
      rw [Module.ref, hpath, hm, Option.bind_some, Module.lookupType?_eq_some.1 hd]
    dsimp only
    rw [hlookup]

theorem NameContext.typeOf_registered {ctx : NameContext} (hdeps : ctx.deps = deps)
    (hdecls : ctx.decls = [.type name e s]) (hfresh : BasicKind.ofName? name = none)
    (herror : name ≠ "error")
    (hctx : ∀ i ∈ r.entries, ∀ m, deps.get? i.path = some m →
      ctx.imports.lookup i.qualifier = some m.ref) (he : e.Writes r.qualifier? t)
    (ht : t.MadeOf (r.Qualifies deps)) : ctx.typeOf e = .ok t := by
  have hdecl : ∀ other, name ≠ other → ctx.decl? other = none := by
    intro other hne
    simp [decl?, hdecls, Decl.name, hne]
  refine typeOf_writes he (fun kind ↦ hdecl _ ?_) (ht.mono fun n hn ↦ ?_)
  · rintro rfl
    rw [BasicKind.ofName?_name] at hfresh
    cases hfresh
  · exact namedType_qualifies hdeps (hdecl _ herror) hctx hn

theorem resolve_registered (hr : r.IsWritable deps) (hspecs : Reader.Imports r.entries specs)
    (hfresh : BasicKind.ofName? name = none) (herror : name ≠ "error")
    (he : e.Writes r.qualifier? t) (ht : t.MadeOf (r.Qualifies deps)) (path id : String) :
    (resolveModule path [⟨id, package, specs, [.type name e s]⟩] deps).diagnostics = [] ∧
      (resolveModule path [⟨id, package, specs, [.type name e s]⟩] deps).module.lookupType? name =
        some ⟨name, t⟩ := by
  have hbound : ∀ i ∈ r.entries, ([] : List (String × ModuleRef)).lookup i.qualifier = none :=
    fun _ _ ↦ rfl
  obtain ⟨added, hadded, hlookup⟩ := ImportSpec.bindAll_imports hr.entry hr.nodup hspecs hbound id
  have hobjects : Resolve.fileObjects ⟨path, package⟩ [.type name e s] deps
      ⟨id, package, specs, [.type name e s]⟩ = ([.type ⟨name, t⟩], []) := by
    have htype : NameContext.typeOf ⟨⟨path, package⟩, id, [.type name e s], added, deps⟩ e =
        .ok t :=
      NameContext.typeOf_registered rfl rfl hfresh herror hlookup he ht
    rw [Resolve.fileObjects, hadded]
    simp [NameContext.objectOf, htype, Except.map, Checked.problems, Except.toOption]
  exact Resolve.resolveModule_single hobjects

end Meaning

open ImportRegistry in
/-- With the modules of its names imported as they were registered, the text of a type reads back
without a report, as the type itself exactly if no channel that is open at both ends carries one
that only receives. -/
theorem typeFile_denotes_readBack {deps : ModuleSet} {t : Ty}
    (ht : t.MadeOf (TypeName.IsDeclared deps)) {package name : String}
    (hp : Token.isIdentifier package = true) (hn : Token.isIdentifier name = true)
    (hfresh : BasicKind.ofName? name = none) (herror : name ≠ "error") (path id : String) :
    ∃ file, readSource ((empty.registerType t).typeFile package name t) = ⟨some file, []⟩ ∧
      (resolveModule path [⟨id, file⟩] deps).diagnostics = [] ∧
      (resolveModule path [⟨id, file⟩] deps).module.lookupType? name = some ⟨name, t.readBack⟩ ∧
      (t.readBack = t ↔ t.keepsArrows = true) := by
  have hr := isWritable_registerType ht
  have hnames := qualifies_registerType ht
  obtain ⟨specs, e, s, hread, hspecs, he⟩ :=
    readSource_typeFile hr hp hn (hnames.mono fun _ h ↦ h.spellable hr)
  obtain ⟨hdiag, htype⟩ := resolve_registered hr hspecs hfresh herror he hnames.readBack path id
  exact ⟨_, hread, hdiag, htype, t.readBack_eq_iff⟩

section Logs

open ImportRegistry

def logModule (path type : String) : Module :=
  ⟨path, "log", some ⟨[(type, .type ⟨type, .basic .int⟩)]⟩, []⟩

def logModules : ModuleSet := ⟨[logModule "a/log" "Level", logModule "b/log" "Sink"], []⟩

def level : Ty := .named (some ⟨"Level", some ⟨"a/log", "log"⟩⟩)

def sink : Ty := .named (some ⟨"Sink", some ⟨"b/log", "log"⟩⟩)

theorem isDeclared_level : level.MadeOf (TypeName.IsDeclared logModules) :=
  .named <| .declared (m := logModule "a/log" "Level") rfl
    ⟨by decide, by decide +kernel, by decide +kernel, by simp [logModule],
      by decide +kernel, by decide⟩
    (by decide +kernel) rfl

theorem isDeclared_sink : sink.MadeOf (TypeName.IsDeclared logModules) :=
  .named <| .declared (m := logModule "b/log" "Sink") rfl
    ⟨by decide, by decide +kernel, by decide +kernel, by simp [logModule],
      by decide +kernel, by decide⟩
    (by decide +kernel) rfl

theorem typeFile_denotes_readBack_logs :
    let t := Ty.map (.pointer level) (.array 3 (.chan .both (.chan .recv sink)))
    t.MadeOf (TypeName.IsDeclared logModules) ∧
    ∃ file, readSource ((empty.registerType t).typeFile "main" "Table" t) = ⟨some file, []⟩ ∧
      (resolveModule "main" [⟨"main/main.api", file⟩] logModules).diagnostics = [] ∧
      (resolveModule "main" [⟨"main/main.api", file⟩] logModules).module.lookupType? "Table" =
        some ⟨"Table", .map (.pointer level) (.array 3 (.chan .send (.chan .both sink)))⟩ := by
  have ht : (Ty.map (.pointer level) (.array 3 (.chan .both (.chan .recv sink)))).MadeOf
      (TypeName.IsDeclared logModules) :=
    .map (.pointer isDeclared_level) (.array 3 (.chan .both (.chan .recv isDeclared_sink)))
  have hmain : Token.isIdentifier "main" = true := by decide +kernel
  have htable : Token.isIdentifier "Table" = true := by decide +kernel
  obtain ⟨file, hread, hdiag, htype, -⟩ :=
    typeFile_denotes_readBack ht hmain htable (by decide +kernel) (by decide) "main" "main/main.api"
  refine ⟨ht, file, hread, hdiag, ?_⟩
  rw [htype]
  simp [Ty.readBack, level, sink]

/-- The arrow stands behind the first word as if that channel sent. -/
example : (empty.registerType (.map level (.chan .both (.chan .recv sink)))).render
    (.map level (.chan .both (.chan .recv sink))) = "map[log.Level]chan <-chan log1.Sink" := by
  decide +kernel

end Logs

end Understudy
