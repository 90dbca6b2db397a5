import Understudy.Proofs.DraftedTypes

namespace Understudy

/-- Types at the ends of which are no signatures, no structs and no names without a declaration. -/
inductive Ty.IsRenderable : Ty → Prop
  | basic (kind : BasicKind) : (Ty.basic kind).IsRenderable
  | pointer {elem : Ty} : elem.IsRenderable → (Ty.pointer elem).IsRenderable
  | slice {elem : Ty} : elem.IsRenderable → (Ty.slice elem).IsRenderable
  | array (length : UInt64) {elem : Ty} : elem.IsRenderable → (Ty.array length elem).IsRenderable
  | map {key elem : Ty} : key.IsRenderable → elem.IsRenderable → (Ty.map key elem).IsRenderable
  | chan (dir : ChanDir) {elem : Ty} : elem.IsRenderable → (Ty.chan dir elem).IsRenderable
  | named (name : TypeName) : (Ty.named (some name)).IsRenderable
  | interface (methods : List (Method Ty)) (embedded : List Ty) :
      (Ty.interface methods embedded).IsRenderable

namespace ImportRegistry

def alias? (r : ImportRegistry) (m : ModuleRef) : Option ModuleRef :=
  if r.isDestination m.path then none else (r.find? m.path).map fun i ↦ ⟨i.qualifier, m.name⟩

def realias (r : ImportRegistry) (name : TypeName) : TypeName :=
  ⟨name.name, name.module.bind r.alias?⟩

def realiasType (r : ImportRegistry) : Ty → Ty
  | .pointer elem => .pointer (r.realiasType elem)
  | .slice elem => .slice (r.realiasType elem)
  | .array length elem => .array length (r.realiasType elem)
  | .map key elem => .map (r.realiasType key) (r.realiasType elem)
  | .chan dir elem => .chan dir (r.realiasType elem)
  | .named (some name) => .named (some (r.realias name))
  | t => t

variable (r : ImportRegistry) {t : Ty}

theorem display_realias (name : TypeName) : (r.realias name).display = r.spell name := by
  obtain ⟨name, ref⟩ := name
  cases ref with
  | none => simp [realias, TypeName.display, spell, qualifierOf?]
  | some m =>
    simp only [realias, spell, qualifierOf?, alias?, Option.bind_some]
    cases r.isDestination m.path with
    | true => simp [TypeName.display]
    | false => cases r.find? m.path <;> simp [TypeName.display]

theorem display_realiasType (ht : t.IsRenderable) : (r.realiasType t).display = r.render t := by
  induction ht with
  | pointer _ ih | slice _ ih | array _ _ ih | chan _ _ ih =>
    simp [realiasType, render, Ty.display, ih]
  | map _ _ ihk ih => simp [realiasType, render, Ty.display, ihk, ih]
  | named name => simp [realiasType, render, Ty.display, display_realias]
  | basic | interface => simp [realiasType, render, Ty.display]

end ImportRegistry

section Problems

open Ty

theorem Ty.IsRenderable.renderProblems {t : Ty} (ht : t.IsRenderable) : t.renderProblems = [] := by
  induction ht with
  | pointer _ ih | slice _ ih | array _ _ ih | chan _ _ ih => exact ih
  | map _ _ ihk ih =>
    rw [Ty.renderProblems, leaves, List.filterMap_append]
    exact List.append_eq_nil_iff.2 ⟨ihk, ih⟩
  | basic | named | interface => simp [Ty.renderProblems, leaves, unrenderable?, unsupported?]

theorem Ty.isRenderable_of_renderProblems (t : Ty) (h : t.renderProblems = []) :
    t.IsRenderable := by
  cases t with
  | pointer elem => exact .pointer (isRenderable_of_renderProblems elem h)
  | slice elem => exact .slice (isRenderable_of_renderProblems elem h)
  | array length elem => exact .array length (isRenderable_of_renderProblems elem h)
  | chan dir elem => exact .chan dir (isRenderable_of_renderProblems elem h)
  | map key elem =>
    rw [Ty.renderProblems, leaves, List.filterMap_append] at h
    obtain ⟨hkey, helem⟩ := List.append_eq_nil_iff.1 h
    exact .map (isRenderable_of_renderProblems key hkey) (isRenderable_of_renderProblems elem helem)
  | basic kind => exact .basic kind
  | interface methods embedded => exact .interface methods embedded
  | signature | struct => simp [Ty.renderProblems, leaves, unrenderable?, unsupported?] at h
  | named name =>
    cases name with
    | none => simp [Ty.renderProblems, leaves, unrenderable?] at h
    | some name => exact .named name
termination_by structural t

end Problems

section Realiased

open ImportRegistry

/-- With any imports the text of a type is that of the type with the qualifiers for the paths, and a
pen puts it down without a complaint; all other types are complained of. -/
theorem Ty.render_displays_realiased (r : ImportRegistry) (t : Ty) :
    (t.renderProblems = [] ↔ t.IsRenderable) ∧
    (t.IsRenderable → r.render t = (r.realiasType t).display ∧
      ∀ reported paths, r.writeType ⟨reported, paths.eraseDups⟩ t =
        ((r.realiasType t).display, ⟨reported, (paths ++ r.qualifiedPaths t).eraseDups⟩)) := by
  refine ⟨⟨t.isRenderable_of_renderProblems, Ty.IsRenderable.renderProblems⟩, fun ht ↦ ⟨?_, ?_⟩⟩
  · rw [display_realiasType r ht]
  · intro reported paths
    rw [writeType_eq, ht.renderProblems, List.append_nil, display_realiasType r ht]

def deskRegistry : ImportRegistry :=
  ((forDestination "desk").register "" "a/log").register "" "b/log"

def ofModule (name path : String) : Ty := .named (some ⟨name, some ⟨path, "log"⟩⟩)

def deskTable : Ty :=
  .map (ofModule "Level" "a/log") (.map (ofModule "Key" "desk") (.map (ofModule "Sink" "b/log")
    (.map (ofModule "Sink" "c/log") (.chan .recv (.interface [] [ofModule "Sink" "b/log"])))))

theorem render_displays_realiased_desk : deskTable.IsRenderable ∧
    deskRegistry.render deskTable = (deskRegistry.realiasType deskTable).display ∧
    deskRegistry.realiasType deskTable =
      .map (ofModule "Level" "log")
        (.map (.named (some ⟨"Key", none⟩)) (.map (ofModule "Sink" "log1")
        (.map (.named (some ⟨"Sink", none⟩))
          (.chan .recv (.interface [] [ofModule "Sink" "b/log"]))))) ∧
    deskRegistry.render deskTable =
      "map[log.Level]map[Key]map[log1.Sink]map[Sink]<-chan interface\x7bb/log.Sink\x7d" := by
  have ht : deskTable.IsRenderable :=
    .map (.named _)
      (.map (.named _) (.map (.named _) (.map (.named _) (.chan .recv (.interface _ _)))))
  obtain ⟨hrender, -⟩ := (Ty.render_displays_realiased deskRegistry deskTable).2 ht
  have hlevel : deskRegistry.alias? ⟨"a/log", "log"⟩ = some ⟨"log", "log"⟩ := by decide +kernel
  have hkey : deskRegistry.alias? ⟨"desk", "log"⟩ = none := by decide +kernel
  have hsink : deskRegistry.alias? ⟨"b/log", "log"⟩ = some ⟨"log1", "log"⟩ := by decide +kernel
  have hother : deskRegistry.alias? ⟨"c/log", "log"⟩ = none := by decide +kernel
  refine ⟨ht, hrender, ?_, ?_⟩
  · simp [realiasType, realias, deskTable, ofModule, hlevel, hkey, hsink, hother]
  · decide +kernel

end Realiased

end Understudy
