import Understudy.Proofs.FileTexts
import Understudy.Proofs.LineNumbers
import Understudy.Proofs.ReportedParts

namespace Understudy

namespace ReadFile

def describe (f : ReadFile) (d : Diagnostic) : String :=
  (match d.span with
    | some s => f.path ++ ":" ++ Nat.repr (1 + newlinesBefore f.source s.start)
    | none => f.path) ++ ": " ++ d.severity.text ++ ": " ++ d.message

/-- What is said of a file of the module at `path`, when it is read or when all files are resolved
together. -/
inductive Concerns (path : String) (files : List ReadFile) (f : ReadFile) : Diagnostic → Prop
  | read {d : Diagnostic} (h : d ∈ f.reading.diagnostics) : Concerns path files f (d.inFile f.id)
  | resolved {deps : ModuleSet} {parsed : ParsedFile} {d : Diagnostic}
      (hparsed : f.parsed? = some parsed)
      (h : Resolve.Concerns path (files.filterMap (·.parsed?)) deps parsed d) :
      Concerns path files f d

/-- The text of a report leads to the place in this file that the report is about. -/
structure Leads (path : String) (files : List ReadFile) (f : ReadFile) (d : Diagnostic)
    (text : String) : Prop where
  concerns : Concerns path files f d
  fileId : d.fileId = some f.id
  within : ∀ s, d.span = some s → s.Within f.source.utf8ByteSize
  text : text = f.describe d

variable {path : String} {files : List ReadFile} {f : ReadFile} {d : Diagnostic}

theorem Concerns.fileId_eq (h : Concerns path files f d) : d.fileId = some f.id := by
  cases h with
  | read => rfl
  | resolved hparsed h =>
    obtain ⟨file, -, rfl⟩ := Option.map_eq_some_iff.1 hparsed
    exact h.fileId_eq

theorem Concerns.within (h : Concerns path files f d) (hreading : f.reading = readSource f.source)
    {s : Span} (hs : d.span = some s) : s.Within f.source.utf8ByteSize := by
  obtain ⟨hreports, hparts⟩ := readSource_within f.source
  rw [← hreading] at hreports hparts
  cases h with
  | read h => exact hreports _ h s hs
  | resolved hparsed h =>
    obtain ⟨file, hfile, rfl⟩ := Option.map_eq_some_iff.1 hparsed
    exact hparts file hfile s (h.span_mem hs)

theorem file?_sourceMap (hunique : ∀ f ∈ files, ∀ g ∈ files, f.id = g.id → f = g) (hf : f ∈ files) :
    (sourceMap files).file? f.id = some (.ofSource f.path f.source) := by
  induction files using List.reverseRecOn with
  | nil => exact absurd hf List.not_mem_nil
  | append_singleton files g ih =>
    rw [sourceMap, List.foldl_append, ← sourceMap, List.foldl_cons, List.foldl_nil, SourceMap.add,
      SourceMap.file?, List.lookup_cons]
    by_cases hid : f.id = g.id
    · obtain rfl : f = g := hunique f hf g (List.mem_append_right _ (List.mem_singleton_self g)) hid
      simp
    · have hmem : f ∈ files := by
        rcases List.mem_append.1 hf with hf | hf
        · exact hf
        · exact absurd (congrArg ReadFile.id (List.mem_singleton.1 hf)) hid
      rw [beq_eq_false_iff_ne.2 hid]
      refine ih (fun a ha b hb ↦ ?_) hmem
      exact hunique a (List.mem_append_left _ ha) b (List.mem_append_left _ hb)

theorem describe_sourceMap (hunique : ∀ f ∈ files, ∀ g ∈ files, f.id = g.id → f = g)
    (hf : f ∈ files) (hid : d.fileId = some f.id) :
    (sourceMap files).describe d = f.describe d := by
  rw [SourceMap.describe, SourceMap.place, hid]
  dsimp only
  rw [file?_sourceMap hunique hf, describe]
  cases d.span with
  | none => rfl
  | some s =>
    dsimp only
    rw [FileLines.line_ofSource]
    rfl

end ReadFile

namespace Library

open ModulePath (ofRequest requested)

variable {lib : Library} {path directory report : String} {files : List ReadFile}
    {ds : List Diagnostic}

/-- The report on a module that could not be loaded, with the files of it that were read. -/
structure ReportsOn (lib : Library) (path directory : String) (files : List ReadFile)
    (report : String) (ds : List Diagnostic) : Prop where
  located : ∃ request, requested request = path ∧
      lib.locate (ofRequest request) path = .ok directory
  read : ∀ f ∈ files, ∃ name, lib.IsRead path directory name f
  unique : ∀ f ∈ files, ∀ g ∈ files, f.id = g.id → f = g
  nonempty : ds ≠ []
  texts : ∃ texts, report = "\n".intercalate texts ∧
    List.Forall₂ (fun d text ↦ ∃ f ∈ files, f.Leads path files d text) ds texts

/-- An error that reports on files leads to them. -/
def IsPlaced (lib : Library) : LoadError → Prop
  | .notParsed path report ds | .notResolved path report ds =>
    ∃ directory files, lib.ReportsOn path directory files report ds
  | _ => True

theorem isPlaced_of_isOfEntry {e : LoadError} (h : e.IsOfEntry) : lib.IsPlaced e := by
  cases e with
  | notParsed | notResolved => exact h.elim
  | _ => trivial

theorem reportsOn_sourceMap {request : String} (hpath : requested request = path)
    (hlocated : lib.locate (ofRequest request) path = .ok directory)
    (hread : ∀ f ∈ files, ∃ name, lib.IsRead path directory name f) (hne : ds ≠ [])
    (hds : ∀ d ∈ ds, ∃ f ∈ files, f.Concerns path files d) :
    lib.ReportsOn path directory files ((ReadFile.sourceMap files).report ds) ds := by
  have hunique : ∀ f ∈ files, ∀ g ∈ files, f.id = g.id → f = g := by
    intro f hf g hg hid
    obtain ⟨name, hname⟩ := hread f hf
    obtain ⟨name', hname'⟩ := hread g hg
    exact hname.unique hname' hid
  refine ⟨⟨request, hpath, hlocated⟩, hread, hunique, hne,
    ds.map (ReadFile.sourceMap files).describe, rfl, ?_⟩
  refine List.forall₂_map_right_iff.2 (List.forall₂_same.2 fun d hd ↦ ?_)
  obtain ⟨f, hf, hconcerns⟩ := hds d hd
  obtain ⟨name, hname⟩ := hread f hf
  refine ⟨f, hf, hconcerns, hconcerns.fileId_eq, fun s ↦ hconcerns.within hname.reading, ?_⟩
  exact ReadFile.describe_sourceMap hunique hf hconcerns.fileId_eq

theorem isPlaced_readFiles {request : String} {s s' : Session} {e : LoadError}
    (hpath : requested request = path)
    (hlocated : lib.locate (ofRequest request) path = .ok directory)
    (h : lib.readFiles path directory s = .error e s') : lib.IsPlaced e := by
  cases hplace : lib.tree.locate directory with
  | error cause =>
    rw [readFiles, hplace] at h
    cases h
    trivial
  | ok place =>
    rw [readFiles_of_locate hplace] at h
    cases hentries : lib.readEntries path directory place (lib.tree.namesIn place) s with
    | error e₁ s₁ =>
      rw [Load.bind_error hentries] at h
      cases h
      exact isPlaced_of_isOfEntry (failsWith_readEntries _ _ _ _ _ _ _ hentries)
    | ok files s₁ =>
      rw [Load.bind_ok hentries, checked] at h
      split at h
      · split at h
        · cases h
          trivial
        · cases h
      · rename_i hne
        cases h
        refine ⟨directory, files, reportsOn_sourceMap hpath hlocated ?_ hne ?_⟩
        · intro f hf
          obtain ⟨name, -, hname⟩ := mem_readEntries hentries f hf
          exact ⟨name, hname⟩
        · intro d hd
          obtain ⟨f, hf, hd⟩ := List.mem_flatMap.1 hd
          obtain ⟨problem, hproblem, rfl⟩ := List.mem_map.1 hd
          exact ⟨f, hf, .read hproblem⟩

theorem isPlaced_loadWithin (n : Nat) (loading : List String) (request : String) :
    (lib.loadWithin n loading request).FailsWith lib.IsPlaced := by
  induction n generalizing loading request with
  | zero => exact Load.failsWith_throw trivial
  | succ n ih =>
    intro s e s' h
    have hvisits := lib.visits_loadWithin n loading request s
    rw [h] at hvisits
    cases hvisits with
    | cycle => trivial
    | missing _ _ hmissing =>
      rw [eq_notFound_of_locate hmissing]
      trivial
    | unread _ _ hlocated hunread => exact isPlaced_readFiles rfl hlocated hunread
    | blocked hopens hall =>
      obtain ⟨r, -, s₁, hone⟩ := exists_of_loadAll_error hall
      exact ih _ r s₁ e s' hone
    | @rejected directory files _ _ _ hopens _ hreports =>
      refine ⟨directory, files,
        reportsOn_sourceMap rfl hopens.located (mem_readFiles hopens.read) hreports ?_⟩
      intro d hd
      obtain ⟨parsed, hparsed, hd⟩ := Resolve.exists_concerns hd
      obtain ⟨f, hf, hfile⟩ := List.mem_filterMap.1 hparsed
      exact ⟨f, hf, .resolved hfile hd⟩

theorem isPlaced_loadRoot (request : String) : (lib.loadRoot request).FailsWith lib.IsPlaced := by
  refine (isPlaced_loadWithin _ _ _).bind fun path ↦ ?_
  intro s e s' h
  cases h

theorem isPlaced_loadRoots (requests : List String) :
    (lib.loadRoots requests).FailsWith lib.IsPlaced := by
  induction requests with
  | nil => exact Load.failsWith_pure ()
  | cons request rest ih => exact (isPlaced_loadRoot request).discard.bind fun _ ↦ ih

/-- Whatever was loaded before, a load that fails on account of what is written in files leads to
them: each report is about a file of the module that failed, lies in it and comes with its line,
which is one more than there are newlines in front and the same by halving. -/
theorem reports_lead_to_lines :
    (∀ path source offset, let lines := FileLines.ofSource path source
      lines.line offset = 1 + newlinesBefore source offset ∧
      FileLines.search lines.starts offset 0 lines.starts.length = lines.line offset) ∧
    ∀ lib : Library, (∀ request, (lib.loadRoot request).FailsWith lib.IsPlaced) ∧
      ∀ requests, (lib.loadRoots requests).FailsWith lib.IsPlaced := by
  refine ⟨fun path source offset ↦ ⟨?_, ?_⟩, fun lib ↦ ⟨isPlaced_loadRoot, isPlaced_loadRoots⟩⟩
  · exact FileLines.line_ofSource path source offset
  · exact FileLines.search_ofSource path source offset

section Gate

def gate : Library :=
  ⟨.default, ⟨[(["", "", "gate"], .directory), (["", "", "wall"], .directory),
    (["", "", "gate", "gate.api"], .file (some "package gate\nimport \"wall\"\n")),
    (["", "", "wall", "wall.api"],
      .file (some "package wall\n\ntype A B\n/*\n */ type C map[string]D"))]⟩⟩

def report? {α : Type} : EStateM.Result LoadError Session α → Option (String × String)
  | .error (.notResolved path report _) _ => some (path, report)
  | _ => none

theorem eq_error_of_report? {α : Type} {r : EStateM.Result LoadError Session α}
    {path report : String} (h : report? r = some (path, report)) :
    ∃ ds s, r = .error (.notResolved path report ds) s := by
  unfold report? at h
  split at h
  · cases h
    exact ⟨_, _, rfl⟩
  · cases h

def wallReport : String :=
  "./wall/wall.api:3: error: undefined: B\n./wall/wall.api:5: error: undefined: D"

theorem reports_lead_to_lines_gate : ∃ ds s,
    gate.loadRoot "gate" .start = .error (.notResolved "wall" wallReport ds) s ∧
    ∃ directory files, gate.ReportsOn "wall" directory files wallReport ds := by
  have hreport : report? (gate.loadRoot "gate" .start) = some ("wall", wallReport) := by
    decide +kernel
  obtain ⟨ds, s, hload⟩ := eq_error_of_report? hreport
  exact ⟨ds, s, hload, (reports_lead_to_lines.2 gate).1 "gate" _ _ _ hload⟩

end Gate

end Library

end Understudy
