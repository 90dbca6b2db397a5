import Understudy.Proofs.LoadSteps

namespace Understudy

theorem FileTree.mem_texts_of_read {t : FileTree} {path text : String}
    (h : t.read path = .ok text) : text ∈ t.texts := by
  cases hlocate : t.locate path with
  | error e =>
    rw [read, hlocate] at h
    cases h
  | ok place =>
    rw [read, hlocate] at h
    simp only [bind, Except.bind] at h
    split at h
    · rename_i hnode
      cases h
      unfold node? at hnode
      split at hnode
      · cases hnode
      · obtain ⟨l, r, hl, -⟩ := List.lookup_eq_some_iff.1 hnode
        have hmem : (place, Node.file (some text)) ∈ t.nodes :=
          hl ▸ List.mem_append_right l (List.mem_cons_self ..)
        exact List.mem_filterMap.2 ⟨_, hmem, rfl⟩
    · cases h
    · cases h

namespace Library

variable {lib : Library}

theorem read_of_entryText? {directory name text : String} {place : Location}
    (h : lib.entryText? directory place name = .ok (some text)) :
    lib.tree.read (joinPath directory name) = .ok text := by
  cases htarget : lib.entryTarget directory place name with
  | error e =>
    rw [entryText?, htarget] at h
    cases h
  | ok target =>
    rw [entryText?_of_entryTarget htarget] at h
    split at h
    · split at h
      · split at h
        · cases h
          assumption
        · cases h
      · cases h
    · cases h

structure IsRead (lib : Library) (path directory name : String) (f : ReadFile) : Prop where
  id : f.id = path ++ "/" ++ name
  path : f.path = joinPath directory name
  source : lib.tree.read f.path = .ok f.source
  reading : f.reading = readSource f.source

theorem IsRead.unique {path directory name name' : String} {f g : ReadFile}
    (hf : lib.IsRead path directory name f) (hg : lib.IsRead path directory name' g)
    (h : f.id = g.id) : f = g := by
  obtain rfl : name = name' := by
    rw [hf.id, hg.id] at h
    exact String.append_right_inj _ |>.1 h
  have hpath : f.path = g.path := hf.path.trans hg.path.symm
  have hsource : f.source = g.source := by
    have hread := hf.source
    rw [hpath, hg.source] at hread
    exact (Except.ok.inj hread).symm
  have hreading : f.reading = g.reading := by rw [hf.reading, hg.reading, hsource]
  cases f
  cases g
  simp_all

theorem mem_readEntries {path directory : String} {place : Location} {names : List String}
    {s s' : Session} {files : List ReadFile}
    (h : lib.readEntries path directory place names s = .ok files s') :
    ∀ f ∈ files, ∃ name ∈ names, lib.IsRead path directory name f := by
  induction names generalizing s files with
  | nil =>
    cases h
    exact List.forall_mem_nil _
  | cons name rest ih =>
    have hlater :
      ∀ {files : List ReadFile}, (∀ f ∈ files, ∃ other ∈ rest, lib.IsRead path directory other f) →
        ∀ f ∈ files, ∃ other ∈ name :: rest, lib.IsRead path directory other f := by
      intro files hfiles f hf
      obtain ⟨other, hother, hread⟩ := hfiles f hf
      exact ⟨other, List.mem_cons_of_mem _ hother, hread⟩
    cases htext : lib.entryText? directory place name with
    | error e =>
      rw [readEntries, htext] at h
      cases h
    | ok found =>
      rw [readEntries, htext] at h
      cases found with
      | none => exact hlater (ih h)
      | some source =>
        dsimp only at h
        rw [Load.log_bind] at h
        cases hrest : lib.readEntries path directory place rest
            { s with events := s.events ++ [.parsing (joinPath directory name)] } with
        | error e s₁ =>
          rw [Load.bind_error hrest] at h
          cases h
        | ok later s₁ =>
          rw [Load.bind_ok hrest] at h
          cases h
          refine List.forall_mem_cons.2 ⟨⟨name, List.mem_cons_self .., ?_⟩, hlater (ih hrest)⟩
          exact ⟨rfl, rfl, read_of_entryText? htext, rfl⟩

theorem mem_readFiles {path directory : String} {s s' : Session} {files : List ReadFile}
    (h : lib.readFiles path directory s = .ok files s') :
    ∀ f ∈ files, ∃ name, lib.IsRead path directory name f := by
  cases hlocate : lib.tree.locate directory with
  | error cause =>
    rw [readFiles, hlocate] at h
    cases h
  | ok place =>
    rw [readFiles_of_locate hlocate] at h
    cases hread : lib.readEntries path directory place (lib.tree.namesIn place) s with
    | error e s₁ =>
      rw [Load.bind_error hread] at h
      cases h
    | ok read s₁ =>
      rw [Load.bind_ok hread, checked] at h
      split at h
      · split at h
        · cases h
        · cases h
          intro f hf
          obtain ⟨name, -, hname⟩ := mem_readEntries hread f hf
          exact ⟨name, hname⟩
      · cases h

theorem mem_allRequests {path directory : String} {s s' : Session} {files : List ReadFile}
    (h : lib.readFiles path directory s = .ok files s') {r : String} (hr : r ∈ wanted files) :
    r ∈ lib.allRequests := by
  simp only [wanted, requests, List.mem_eraseDups, List.mem_flatMap, List.mem_filterMap,
    List.mem_map] at hr
  obtain ⟨p, ⟨f, hf, hp⟩, i, hi, rfl⟩ := hr
  obtain ⟨name, hread⟩ := mem_readFiles h f hf
  obtain ⟨file, hfile, rfl⟩ := Option.map_eq_some_iff.1 hp
  rw [hread.reading] at hfile
  refine List.mem_flatMap.2 ⟨f.source, FileTree.mem_texts_of_read hread.source, ?_⟩
  rw [hfile]
  exact List.mem_map_of_mem hi

end Library

end Understudy
