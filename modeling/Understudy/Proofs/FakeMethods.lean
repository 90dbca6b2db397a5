import Understudy.Proofs.Embedding
import Understudy.Proofs.Generation
import Understudy.Proofs.MethodOrder

namespace Understudy

namespace Fake

variable {s : ModuleSet} {name : String} {options : FakeOptions} {fake : Fake}

/-- The names come in the order of their bytes and are those of the embedding closure. Each method
has the parameters and results of one that the closure has under its name, and of one of the
interface itself if that has the name. -/
theorem methods_generate (h : (generate s name options).outcome = .ok fake)
    (hkind : fake.kind = .interface) :
    ∃ target methods embedded, Target.find? s (Text.trim name) = some target ∧
      s.underlying? target.decl.type = some (.interface methods embedded) ∧
      (fake.methods.map (·.name)).Pairwise (fun a b ↦ Text.bytes a < Text.bytes b) ∧
      (∀ n, n ∈ fake.methods.map (·.name) ↔ ∃ m,
        Ty.Asks s (.interface methods embedded) m ∧ m.name = n) ∧
      ∀ f ∈ fake.methods, ∃ m, Ty.Asks s (.interface methods embedded) m ∧ m.name = f.name ∧
        FakeMethod.Shows (fun t text ↦ text = fake.imports.render t) m f ∧
        ((∃ own ∈ methods, own.name = f.name) → methods.find? (·.name = f.name) = some m) := by
  obtain ⟨target, all, problems, htarget, hall, rfl⟩ := exists_of_generate h
  obtain ⟨methods, embedded, hu, rfl, -⟩ := methodsFor?_interface hall hkind
  refine ⟨target, methods, embedded, htarget, hu, ?_⟩
  rw [methods_ofMethods]
  generalize (ofMethods options target _ _).imports = imports
  have hnames : ∀ ms : List (Method Ty), (ms.map (renderMethod imports)).map (·.name) =
      ms.map (·.name) := by
    intro ms
    rw [List.map_map]
    rfl
  rw [hnames]
  refine ⟨?_, ?_, ?_⟩
  · exact List.pairwise_map.2 ((Ty.pairwise_methodSet _).imp Text.bytes_lt_bytes)
  · intro n
    rw [List.mem_map]
    constructor
    · rintro ⟨m, hm, rfl⟩
      exact ⟨m, Ty.mem_expansion_iff.1 (Ty.mem_of_mem_methodSet hm), rfl⟩
    · rintro ⟨m, hm, rfl⟩
      obtain ⟨m', hm', hname⟩ := Ty.exists_mem_methodSet (Ty.mem_expansion_iff.2 hm)
      exact ⟨m', hm', hname⟩
  · intro f hf
    obtain ⟨m, hm, rfl⟩ := List.mem_map.1 hf
    refine ⟨m, Ty.mem_expansion_iff.1 (Ty.mem_of_mem_methodSet hm), rfl,
      shows_renderMethod fun _ _ _ _ ↦ rfl, fun hown ↦ ?_⟩
    exact Ty.find?_of_prefix (Ty.prefix_expansion s methods embedded) hm hown

section Files

def fileName (name : String) : Ty := .named (some ⟨name, some ⟨"os/file", "file"⟩⟩)

def reading (result : BasicKind) : Method Ty :=
  ⟨"Read", ⟨[⟨some "into", .slice (.basic .byte)⟩, ⟨some "marks", .slice (fileName "Reader")⟩],
    [⟨none, .basic result⟩, ⟨none, .named (some Ty.errorName)⟩], true⟩⟩

def plain (name : String) : Method Ty := ⟨name, ⟨[], [], false⟩⟩

def fileType : Ty :=
  .interface [reading .int] [fileName "Reader", fileName "Closer", .named (some Ty.errorName)]

/-- Files embed readers and closers, readers embed closers, and closers embed files again. -/
def fileModule : Module :=
  ⟨"os/file", "file", some ⟨[("File", .type ⟨"File", fileType⟩),
      ("Reader", .type ⟨"Reader", .interface [reading .string] [fileName "Closer"]⟩),
      ("Closer", .type ⟨"Closer", .interface [plain "Close"]
        [fileName "File", .interface [plain "Flush"] []]⟩)]⟩, []⟩

def files : ModuleSet := ⟨[fileModule], [0]⟩

/-- The file that reads itself wins over the reader that it embeds. -/
def fileMethods : List FakeMethod :=
  [⟨"Close", [], []⟩, ⟨"Error", [], [⟨none, "string", false⟩]⟩, ⟨"Flush", [], []⟩,
    ⟨"Read", [⟨some "into", "[]byte", false⟩, ⟨some "marks", "...file.Reader", true⟩],
      [⟨none, "int", false⟩, ⟨none, "error", false⟩]⟩]

theorem methods_generate_files : ∃ fake, (generate files " File " .default).outcome = .ok fake ∧
    fake.kind = .interface ∧ fake.methods = fileMethods ∧
    (fileMethods.map (·.name)).Pairwise (fun a b ↦ Text.bytes a < Text.bytes b) ∧
    (∀ n, n ∈ fileMethods.map (·.name) ↔ n ∈ ["Close", "Error", "Flush", "Read"]) ∧
    ∀ f ∈ fileMethods, f.name = "Read" →
      FakeMethod.Shows (fun t text ↦ text = fake.imports.render t) (reading .int) f := by
  have hfound : Target.find? files (Text.trim " File ") =
      some ⟨⟨"File", fileType⟩, fileModule, .interface⟩ := rfl
  have hasked : methodsFor? files ⟨⟨"File", fileType⟩, fileModule, .interface⟩ =
      some (Ty.methodSet [reading .int, reading .string, plain "Close", reading .int, errorMethod,
        plain "Flush"], []) := rfl
  have hsorted : Ty.methodSet [reading .int, reading .string, plain "Close", reading .int,
      errorMethod, plain "Flush"] =
        [plain "Close", errorMethod, plain "Flush", reading .int] :=
    Ty.methodSet_eq (by decide +kernel) (by simp [reading, plain, errorMethod]) (by decide +kernel)
  have hmade : (generate files " File " .default).outcome.toOption.map
      (fun fake ↦ (fake.kind, fake.methods)) = some (.interface, fileMethods) := by
    simp only [generate, Target.locate, hfound, hasked, hsorted]
    decide +kernel
  obtain ⟨fake, hout, hfake⟩ := exists_of_outcome hmade
  obtain ⟨hkind, hmethods⟩ := Prod.mk.inj hfake
  obtain ⟨target, methods, embedded, htarget, hu, hordered, hnames, hshown⟩ :=
    methods_generate hout hkind
  cases hfound.symm.trans htarget
  cases hu
  rw [hmethods] at hordered hnames hshown
  refine ⟨fake, hout, hkind, hmethods, hordered, ?_, ?_⟩
  · intro n
    have hall : (Ty.expansion files [reading .int] [fileName "Reader", fileName "Closer",
        .named (some Ty.errorName)]).methods.map (·.name) =
          ["Read", "Read", "Close", "Read", "Error", "Flush"] := rfl
    simp only [hnames, ← Ty.mem_expansion_iff, ← List.mem_map, hall]
    simp only [List.mem_cons, List.not_mem_nil]
    tauto
  · intro f hf hname
    obtain ⟨m, -, -, hshows, hown⟩ := hshown f hf
    have hfirst := hown ⟨_, List.mem_singleton_self _, hname.symm⟩
    rw [hname] at hfirst
    cases hfirst
    exact hshows

end Files

end Fake

end Understudy
