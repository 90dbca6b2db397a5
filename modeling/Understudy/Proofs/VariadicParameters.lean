import Understudy.Proofs.DeclaredObjects
import Understudy.Proofs.FakeQualifiers
import Understudy.Proofs.RenderedParameters
import Understudy.Proofs.ResolvedSignatures

namespace Understudy

theorem Ty.collects_signatures : Collects signatures signaturesIn where
  method hm := by
    rw [signatures, signaturesOfMethods_eq]
    exact fun sig hsig ↦ List.mem_append_left _ (List.mem_flatMap.2 ⟨_, hm, hsig⟩)
  embedded ht := by
    rw [signatures, signaturesOfTypes_eq]
    exact fun sig hsig ↦ List.mem_append_right _ (List.mem_flatMap.2 ⟨_, ht, hsig⟩)
  signature _ := rfl

theorem exists_of_forall₂ {α β : Type} {R : α → β → Prop} {as : List α} {bs : List β}
    (h : List.Forall₂ R as bs) : ∀ b ∈ bs, ∃ a ∈ as, R a b := by
  induction h with
  | nil => exact List.forall_mem_nil _
  | cons hab _ ih =>
    refine List.forall_mem_cons.2 ⟨⟨_, List.mem_cons_self .., hab⟩, fun b hb ↦ ?_⟩
    obtain ⟨a, ha, hab⟩ := ih b hb
    exact ⟨a, List.mem_cons_of_mem _ ha, hab⟩

namespace Library

variable {lib : Library} {path : String} {o : Object}

/-- The object is made from a declaration in a file of the library, and its signatures from those of
the declaration, in the same order. -/
inductive Transcribes (lib : Library) (path : String) (o : Object) : Prop
  | intro {tokens : List Token} {ctx : NameContext} {d : Decl}
      (hdecl : lib.HasDecl path tokens ctx d) (ho : ctx.objectOf d = .ok o)
      (hsignatures : List.Forall₂ (ctx.Transcribes tokens) d.signatures o.signatures)

/-- The signature is made from one that is written in a file of the library. -/
inductive Writes (lib : Library) (sig : Signature Ty) : Prop
  | intro {path : String} {tokens : List Token} {ctx : NameContext} {d : Decl}
      {written : SignatureExpr TypeExpr} (hdecl : lib.HasDecl path tokens ctx d)
      (hmem : written ∈ d.signatures) (hwritten : ctx.Transcribes tokens written sig)

theorem HasDecl.transcribes {tokens : List Token} {ctx : NameContext} {d : Decl}
    (h : lib.HasDecl path tokens ctx d) (ho : ctx.objectOf d = .ok o) : lib.Transcribes path o := by
  have hboth := (List.forall₂_and_left _ _).2 ⟨h.stands, NameContext.resolves_objectOf ho⟩
  exact .intro h ho (hboth.imp fun _ _ h ↦ NameContext.transcribes_of_stands h.2 h.1)

theorem Transcribes.writes (h : lib.Transcribes path o) : ∀ sig ∈ o.signatures, lib.Writes sig := by
  obtain ⟨hdecl, -, hsignatures⟩ := h
  intro sig hsig
  obtain ⟨written, hmem, hwritten⟩ := exists_of_forall₂ hsignatures sig hsig
  exact .intro hdecl hmem hwritten

theorem Writes.exists_slice {sig : Signature Ty} (h : lib.Writes sig)
    (hvariadic : sig.variadic = true) :
    ∃ elem, sig.params.getLast?.map (·.type) = some (.slice elem) := by
  obtain ⟨-, -, -, p, c, c', stop, entries, xs, -, -, -, -, hiff, hslice⟩ := h
  obtain ⟨e, he, hellipsis⟩ := hiff.1 hvariadic
  obtain ⟨type, t, -, -, hlast⟩ := hslice e he hellipsis
  exact ⟨t, hlast⟩

end Library

namespace Session

variable {calls : List (Library × String)}

theorem transcribes_history {m : Module} (hm : m ∈ (history calls).modules.modules) :
    ∃ scope, m.scope = some scope ∧
    ∀ entry ∈ scope.objects, ∃ call ∈ calls, call.1.Transcribes m.path entry.2 := by
  obtain ⟨scope, hscope, -⟩ := knows_names_history calls hm
  obtain ⟨call, hcall, request, hbuilds⟩ := exists_builds_history calls hm
  refine ⟨scope, hscope, fun entry he ↦ ?_⟩
  obtain ⟨tokens, ctx, d, hdecl, ho⟩ := hbuilds.exists_hasDecl hscope he
  exact ⟨call, hcall, hdecl.transcribes ho⟩

theorem holds_writes (calls : List (Library × String)) :
    (history calls).modules.Holds Ty.signatures fun sig ↦ ∃ call ∈ calls, call.1.Writes sig := by
  intro m hm scope hscope entry hentry decl hd sig hsig
  obtain ⟨scope', hscope', hobjects⟩ := transcribes_history hm
  cases hscope.symm.trans hscope'
  obtain ⟨call, hcall, htranscribes⟩ := hobjects entry hentry
  rw [hd] at htranscribes
  exact ⟨call, hcall, htranscribes.writes sig hsig⟩

theorem isIdentifier_of_object {m : Module} (hm : m ∈ (history calls).modules.modules)
    {scope : Scope} (hscope : m.scope = some scope) {entry : String × Object}
    (he : entry ∈ scope.objects) :
    Token.isIdentifier m.name = true ∧ Token.isIdentifier entry.2.name = true := by
  obtain ⟨call, -, request, hbuilds⟩ := exists_builds_history calls hm
  obtain ⟨tokens, ctx, d, hdecl, ho⟩ := hbuilds.exists_hasDecl hscope he
  exact ⟨hbuilds.isIdentifier hscope he, NameContext.name_objectOf ho ▸ hdecl.isIdentifier⟩

theorem isPlain_of_mentions {n : TypeName} (h : (history calls).modules.Mentions (some n)) :
    n.IsPlain := by
  obtain ⟨m, hm, scope, hscope, entry, hentry, hn⟩ := h
  obtain ⟨scope', hscope', hknown⟩ := knows_names_history calls hm
  cases hscope.symm.trans hscope'
  cases hknown entry hentry (some n) hn with
  | error => exact ⟨by decide, nofun⟩
  | @declared owner name decl howner hd hname =>
    obtain ⟨m', ref, scope, hget, href, hscope, hmem⟩ := ModuleSet.exists_of_lookupType? hd
    cases href
    cases hget.symm.trans (ModuleSet.get?_of_mem (isClosed_history calls).nodup howner)
    obtain ⟨hmodule, hobject⟩ := isIdentifier_of_object howner hscope hmem
    refine ⟨hname ▸ hobject, ?_⟩
    rintro _ ⟨⟩
    exact hmodule

variable {name : String} {options : FakeOptions}

open Fake

theorem usesIdentifiers_ofMethods {target : Target} {methods : List (Method Ty)}
    {problems : List Diagnostic} (htarget : Target.find? (history calls).modules name = some target)
    (hmethods : methodsFor? (history calls).modules target = some (methods, problems)) :
    (ofMethods options target
      ((ImportRegistry.forDestination options.destination).register target.module.name
      target.module.path) methods).imports.UsesIdentifiers := by
  refine imports_ofMethods (fun r path h ↦ h.markReferenced path) ?_
  obtain ⟨hm, scope, hscope, entry, hentry, -⟩ := exists_of_find? htarget
  rw [ImportRegistry.registerType_flatMap]
  refine ((ImportRegistry.usesIdentifiers_forDestination _).register
    (isIdentifier_of_object hm hscope hentry).1 _).foldl_registerLeaf fun t ht m hm ↦ ?_
  obtain ⟨n, hmentions, hn⟩ :=
    exists_mentions_of_leaf (mentions_of_methodsFor? htarget hmethods) ht hm
  exact (isPlain_of_mentions hmentions).module m hn

theorem writes_of_methodsFor? {target : Target} {methods : List (Method Ty)}
    {problems : List Diagnostic} (htarget : Target.find? (history calls).modules name = some target)
    (hmethods : methodsFor? (history calls).modules target = some (methods, problems)) :
    ∀ m ∈ methods, m = errorMethod ∨ ∃ call ∈ calls, call.1.Writes m.sig := fun m hm ↦
  (holds_of_methodsFor? Ty.collects_signatures (holds_writes calls) htarget hmethods m hm).imp_right
    fun h ↦
    h _ (Ty.mem_signaturesIn m.sig)

/-- Whatever was loaded before, the signatures in each object of the set are those of its
declaration, at any depth and in the same order, and are variadic exactly if they are written with
an ellipsis. Of the parameters of a stand-in only the last one of a method that is written so is
variadic, and its text alone begins with an ellipsis. -/
theorem variadics_history (calls : List (Library × String)) :
    (∀ m ∈ (history calls).modules.modules, ∃ scope, m.scope = some scope ∧
      ∀ entry ∈ scope.objects, ∃ call ∈ calls, call.1.Transcribes m.path entry.2) ∧
    ∀ name options fake, (generate (history calls).modules name options).outcome = .ok fake →
      ∃ target methods problems, Target.find? (history calls).modules (Text.trim name) =
        some target ∧ methodsFor? (history calls).modules target = some (methods, problems) ∧
        fake.methods = methods.map (renderMethod fake.imports) ∧
        ∀ m ∈ methods, (m = errorMethod ∨ ∃ call ∈ calls, call.1.Writes m.sig) ∧
          MarksLast fake.imports m.sig (renderMethod fake.imports m).params
            (renderMethod fake.imports m).results := by
  refine ⟨fun m hm ↦ transcribes_history hm, fun name options fake h ↦ ?_⟩
  obtain ⟨target, methods, problems, htarget, hmethods, rfl⟩ := exists_of_generate h
  refine ⟨target, methods, problems, htarget, hmethods, methods_ofMethods .., fun m hm ↦ ?_⟩
  have hwrites := writes_of_methodsFor? htarget hmethods m hm
  refine ⟨hwrites, marksLast_render (usesIdentifiers_ofMethods htarget hmethods) ?_ ?_⟩
  · intro v hv n hn
    refine isPlain_of_mentions (mentions_of_methodsFor? htarget hmethods m hm (some n) ?_)
    rw [Ty.namesOfSignature, Ty.namesOfVars_eq, Ty.namesOfVars_eq, ← List.flatMap_append]
    exact List.mem_flatMap.2 ⟨v, hv, hn ▸ List.mem_singleton_self _⟩
  · intro hvariadic
    rcases hwrites with rfl | ⟨call, -, hwrites⟩
    · cases hvariadic
    · exact hwrites.exists_slice hvariadic

section Logs

/-- Loggers are sinks, and what a sink writes is collected from all parameters that are left. -/
def logs : Library :=
  ⟨.default, ⟨[(["", "", "log"], .directory), (["", "", "log", "log.api"],
    .file (some ("package log\ntype Part struct \x7b Text string \x7d\n" ++
      "type Sink interface \x7b Write(level, depth int, parts ...*Part) (int, error) \x7d\n" ++
      "type Logger interface \x7b Sink \x7d\n")))]⟩⟩

def logCalls : List (Library × String) := [(logs, "log")]

def loggerMethods : List FakeMethod :=
  [⟨"Write", [⟨some "level", "int", false⟩, ⟨some "depth", "int", false⟩,
    ⟨some "parts", "...*log.Part", true⟩], [⟨none, "int", false⟩, ⟨none, "error", false⟩]⟩]

theorem variadics_history_logs :
    (∃ m ∈ (history logCalls).modules.modules, m.path = "log" ∧ ∃ scope, m.scope = some scope ∧
      ∀ entry ∈ scope.objects, ∃ call ∈ logCalls, call.1.Transcribes m.path entry.2) ∧
    ∃ fake, (generate (history logCalls).modules "Logger" .default).outcome = .ok fake ∧
    fake.methods = loggerMethods ∧
      ∀ f ∈ loggerMethods, ∃ m, f = renderMethod fake.imports m ∧
        (m = errorMethod ∨ ∃ call ∈ logCalls, call.1.Writes m.sig) ∧
        MarksLast fake.imports m.sig f.params f.results := by
  obtain ⟨htranscribes, hfakes⟩ := variadics_history logCalls
  constructor
  · have hpaths : (history logCalls).modules.modules.map (·.path) = ["log"] := by decide +kernel
    obtain ⟨m, hm, hpath⟩ := List.mem_map.1 (hpaths ▸ List.mem_singleton_self _ : "log" ∈ _)
    exact ⟨m, hm, hpath, htranscribes m hm⟩
  · have hmade :
        (generate (history logCalls).modules "Logger" .default).outcome.toOption.map (·.methods) =
        some loggerMethods := by
      decide +kernel
    obtain ⟨fake, hout, hmethods⟩ := Fake.exists_of_outcome hmade
    obtain ⟨target, methods, problems, -, -, htexts, hmarks⟩ := hfakes _ _ _ hout
    refine ⟨fake, hout, hmethods, fun f hf ↦ ?_⟩
    rw [← hmethods, htexts] at hf
    obtain ⟨m, hm, rfl⟩ := List.mem_map.1 hf
    exact ⟨m, rfl, hmarks m hm⟩

end Logs

end Session

end Understudy
