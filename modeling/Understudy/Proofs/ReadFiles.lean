import Understudy.Load

namespace Understudy

def LoadError.IsReading : LoadError → Prop
  | .notFound .. | .noFiles .. | .unreadable .. | .badEntry .. | .linkLoop .. | .notParsed .. =>
    True
  | .notResolved .. | .importCycle _ | .exhausted _ => False

def LoadError.IsOfEntry : LoadError → Prop
  | .unreadable .. | .badEntry .. | .linkLoop .. => True
  | _ => False

theorem LoadError.IsOfEntry.isReading {e : LoadError} (h : e.IsOfEntry) : e.IsReading := by
  cases e with
  | unreadable | badEntry | linkLoop => trivial
  | _ => exact h.elim

/-- What holds of giving a value, of failing to find or to read a module and of logging, and of two
steps if it holds of each of them. -/
structure Load.Composes (C : ∀ α : Type, Load α → Prop) : Prop where
  pure : ∀ {α : Type} (a : α), C α (pure a)
  throw : ∀ {α : Type} (e : LoadError), e.IsReading → C α (throw e)
  log : ∀ e : Event, C Unit (Library.log e)
  bind : ∀ {α β : Type} {p : Load α} {f : α → Load β}, C α p → (∀ a, C β (f a)) → C β (p >>= f)

namespace Library

variable {lib : Library}

theorem entryText?_of_entryTarget {directory name : String} {place target : Location}
    (h : lib.entryTarget directory place name = .ok target) :
    lib.entryText? directory place name =
      match lib.tree.node? target with
      | some (.file _) =>
        if extension? name = some lib.options.extension then
          match lib.tree.read (joinPath directory name) with
          | .ok text => .ok (some text)
          | .error cause => .error (.unreadable (joinPath directory name) cause)
        else .ok none
      | _ => .ok none := by
  rw [entryText?, h]
  rfl

theorem eq_notFound_of_locate {request path : String} {e : LoadError}
    (h : lib.locate request path = .error e) :
    e = .notFound path (lib.candidates request path) := by
  unfold locate at h
  dsimp only at h
  split at h
  · cases h
  · cases h
    rfl

theorem isReading_locate {request path : String} {e : LoadError}
    (h : lib.locate request path = .error e) : e.IsReading := by
  rw [eq_notFound_of_locate h]
  trivial

theorem isOfEntry_entryTarget {directory name : String} {place : Location} {e : LoadError}
    (h : lib.entryTarget directory place name = .error e) : e.IsOfEntry := by
  unfold entryTarget at h
  dsimp only at h
  split at h
  · split at h
    · cases h
      trivial
    · split at h
      · cases h
        trivial
      · cases h
  · cases h

theorem isOfEntry_entryText? {directory name : String} {place : Location} {e : LoadError}
    (h : lib.entryText? directory place name = .error e) : e.IsOfEntry := by
  cases htarget : lib.entryTarget directory place name with
  | error e₁ =>
    rw [entryText?, htarget] at h
    cases h
    exact isOfEntry_entryTarget htarget
  | ok target =>
    rw [entryText?_of_entryTarget htarget] at h
    split at h
    · split at h
      · split at h
        · cases h
        · cases h
          trivial
      · cases h
    · cases h

def checked (lib : Library) (path directory : String) (files : List ReadFile) :
    Load (List ReadFile) :=
  if (files.flatMap (·.diagnostics)) = [] then
    if files = [] then throw (.noFiles path directory lib.options.extension) else pure files
  else
    throw (.notParsed path ((ReadFile.sourceMap files).report (files.flatMap (·.diagnostics)))
      (files.flatMap (·.diagnostics)))

theorem readFiles_of_locate {path directory : String} {place : Location}
    (h : lib.tree.locate directory = .ok place) : lib.readFiles path directory =
      lib.readEntries path directory place (lib.tree.namesIn place) >>=
        lib.checked path directory := by
  rw [readFiles, h]
  dsimp only
  congr 1
  funext files
  rw [checked]
  cases hd : files.flatMap (·.diagnostics) with
  | nil =>
    cases files <;> rfl
  | cons d ds => rfl

end Library

namespace Load.Composes

variable {C : ∀ α : Type, Load α → Prop} (hC : Composes C) {lib : Library}

include hC

theorem readEntries (path directory : String) (place : Location) (names : List String) :
    C _ (lib.readEntries path directory place names) := by
  induction names with
  | nil => exact hC.pure _
  | cons name rest ih =>
    rw [Library.readEntries]
    split
    · rename_i h
      exact hC.throw _ (Library.isOfEntry_entryText? h).isReading
    · exact ih
    · exact hC.bind (hC.log _) fun _ ↦ hC.bind ih fun _ ↦ hC.pure _

theorem checked (path directory : String) (files : List ReadFile) :
    C _ (lib.checked path directory files) := by
  rw [Library.checked]
  split
  · split
    · exact hC.throw _ trivial
    · exact hC.pure _
  · exact hC.throw _ trivial

theorem readFiles (path directory : String) : C _ (lib.readFiles path directory) := by
  cases h : lib.tree.locate directory with
  | ok place =>
    rw [Library.readFiles_of_locate h]
    exact hC.bind (hC.readEntries _ _ _ _) (hC.checked _ _)
  | error cause =>
    rw [Library.readFiles, h]
    exact hC.throw _ trivial

end Load.Composes

end Understudy
