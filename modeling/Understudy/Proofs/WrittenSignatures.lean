import Understudy.Proofs.ParameterLists

namespace Understudy

mutual

def TypeExpr.signatures : TypeExpr → List (SignatureExpr TypeExpr)
  | .name _ _ _ => []
  | .pointer elem _ | .slice elem _ | .array _ elem _ | .chan _ elem _ => elem.signatures
  | .map key elem _ => key.signatures ++ elem.signatures
  | .func sig _ => sig.signatures
  | .interface elements _ =>
    ElementExpr.methodSignatures elements ++ ElementExpr.embeddedSignatures elements
  | .struct fields _ => FieldExpr.allSignatures fields
termination_by structural t => t

def SignatureExpr.signatures : SignatureExpr TypeExpr → List (SignatureExpr TypeExpr)
  | ⟨params, results, s⟩ =>
    ⟨params, results, s⟩ :: (ParamExpr.allSignatures params ++ ParamExpr.allSignatures results)
termination_by structural sig => sig

def ParamExpr.allSignatures : List (ParamExpr TypeExpr) → List (SignatureExpr TypeExpr)
  | [] => []
  | ⟨_, type, _, _⟩ :: rest => type.signatures ++ ParamExpr.allSignatures rest
termination_by structural ps => ps

def ElementExpr.methodSignatures : List (ElementExpr TypeExpr) → List (SignatureExpr TypeExpr)
  | [] => []
  | .method _ sig _ :: rest => sig.signatures ++ ElementExpr.methodSignatures rest
  | .embedded _ :: rest => ElementExpr.methodSignatures rest
termination_by structural es => es

def ElementExpr.embeddedSignatures : List (ElementExpr TypeExpr) → List (SignatureExpr TypeExpr)
  | [] => []
  | .method _ _ _ :: rest => ElementExpr.embeddedSignatures rest
  | .embedded type :: rest => type.signatures ++ ElementExpr.embeddedSignatures rest
termination_by structural es => es

def FieldExpr.allSignatures : List (FieldExpr TypeExpr) → List (SignatureExpr TypeExpr)
  | [] => []
  | ⟨_, type, _⟩ :: rest => type.signatures ++ FieldExpr.allSignatures rest
termination_by structural fs => fs

end

def ElementExpr.signatures : ElementExpr TypeExpr → List (SignatureExpr TypeExpr)
  | .method _ sig _ => sig.signatures
  | .embedded type => type.signatures

section Mem

variable {sig : SignatureExpr TypeExpr}

theorem ParamExpr.mem_allSignatures {ps : List (ParamExpr TypeExpr)} :
    sig ∈ allSignatures ps ↔ ∃ p ∈ ps, sig ∈ p.type.signatures := by
  induction ps with
  | nil => simp [allSignatures]
  | cons p rest ih => simp [allSignatures, ih]

theorem ElementExpr.mem_signatures {es : List (ElementExpr TypeExpr)} :
    sig ∈ methodSignatures es ++ embeddedSignatures es ↔ ∃ e ∈ es, sig ∈ e.signatures := by
  induction es with
  | nil => simp [methodSignatures, embeddedSignatures]
  | cons e rest ih =>
    simp only [List.mem_cons, exists_eq_or_imp, ← ih]
    cases e with
    | method name own s =>
      simp only [methodSignatures, embeddedSignatures, signatures, List.mem_append, or_assoc]
    | embedded type =>
      simp only [methodSignatures, embeddedSignatures, signatures, List.mem_append]
      exact or_left_comm

theorem FieldExpr.mem_allSignatures {fs : List (FieldExpr TypeExpr)} :
    sig ∈ allSignatures fs ↔ ∃ f ∈ fs, sig ∈ f.type.signatures := by
  induction fs with
  | nil => simp [allSignatures]
  | cons f rest ih => simp [allSignatures, ih]

end Mem

namespace Reader

/-- What reads the types of a declared function, and what reads those inside a type. -/
inductive IsTypeReader : Reader TypeExpr → Prop
  | whole : IsTypeReader type
  | within (n : Nat) : IsTypeReader (typeWithin n)

theorem IsTypeReader.exists_within {p : Reader TypeExpr} (h : IsTypeReader p) (c : Cursor) :
    ∃ n, p c = typeWithin n c := by
  cases h with
  | whole => exact ⟨_, rfl⟩
  | within n => exact ⟨n, rfl⟩

/-- Some tokens further on, `p` reads `a`. -/
def Occurs {α : Type} (p : Reader α) (a : α) (c : Cursor) : Prop :=
  ∃ c₁ c₂, c.Steps c₁ ∧ p c₁ = .done a c₂

theorem Occurs.of_steps {α : Type} {p : Reader α} {a : α} {c c₁ : Cursor} (h : Occurs p a c₁)
    (hsteps : c.Steps c₁) : Occurs p a c := by
  obtain ⟨c₂, c₃, h₂, ha⟩ := h
  exact ⟨c₂, c₃, hsteps.trans h₂, ha⟩

def Stands (sig : SignatureExpr TypeExpr) (c : Cursor) : Prop :=
  ∃ p, IsTypeReader p ∧ Occurs (signature p) sig c

/-- Tokens were taken from the left, and each of these signatures was read from some of them. -/
structure Gathers (c : Cursor) (sigs : List (SignatureExpr TypeExpr)) (c' : Cursor) : Prop where
  steps : c.Steps c'
  stands : ∀ sig ∈ sigs, Stands sig c

/-- If `p` makes something at `c`, the signatures in it were read from tokens that it took. -/
def FindsAt {α : Type} (p : Reader α) (c : Cursor)
    (signatures : α → List (SignatureExpr TypeExpr)) : Prop :=
  ∀ ⦃a c'⦄, p c = .done a c' → Gathers c (signatures a) c'

def Finds {α : Type} (p : Reader α) (signatures : α → List (SignatureExpr TypeExpr)) : Prop :=
  ∀ ⦃c⦄, FindsAt p c signatures

variable {p : Reader TypeExpr} {c c₁ c' : Cursor} {sigs : List (SignatureExpr TypeExpr)}

theorem Stands.of_steps {sig : SignatureExpr TypeExpr} (h : Stands sig c₁) (hsteps : c.Steps c₁) :
    Stands sig c := by
  obtain ⟨p, hp, hsig⟩ := h
  exact ⟨p, hp, hsig.of_steps hsteps⟩

theorem Gathers.of_steps (h : Gathers c₁ sigs c') (hsteps : c.Steps c₁) : Gathers c sigs c' :=
  ⟨hsteps.trans h.steps, fun sig hsig ↦ (h.stands sig hsig).of_steps hsteps⟩

theorem Gathers.append {others : List (SignatureExpr TypeExpr)} (h : Gathers c sigs c₁)
    (h' : Gathers c₁ others c') : Gathers c (sigs ++ others) c' :=
  ⟨h.steps.trans h'.steps, List.forall_mem_append.2 ⟨h.stands, (h'.of_steps h.steps).stands⟩⟩

theorem Gathers.steps_right {c₂ : Cursor} (h : Gathers c sigs c₁) (hsteps : c₁.Steps c₂) :
    Gathers c sigs c₂ :=
  ⟨h.steps.trans hsteps, h.stands⟩

theorem Gathers.of_subset {others : List (SignatureExpr TypeExpr)} (h : Gathers c sigs c')
    (hsub : ∀ sig ∈ others, sig ∈ sigs) : Gathers c others c' :=
  ⟨h.steps, fun sig hsig ↦ h.stands sig (hsub sig hsig)⟩

theorem eat_steps {kind : TokenKind} {taken : Bool} (h : eat kind c = .done taken c') :
    c.Steps c' := by
  obtain ⟨t?, ht, -⟩ := eat_takesPerhaps h
  exact ht.steps

theorem expect_steps {kind : TokenKind} {message : String} {t : Token}
    (h : expect kind message c = .done t c') : c.Steps c' := (expect_eq_done.1 h).1.steps

theorem NameRead.gathers {e : TypeExpr} (h : NameRead c c' e) : Gathers c e.signatures c' := by
  cases h with
  | bare ht => exact ⟨ht.1.steps, List.forall_mem_nil _⟩
  | qualified ht hd hi =>
    exact ⟨ht.1.steps.trans (hd.1.steps.trans hi.1.steps), List.forall_mem_nil _⟩

theorem BracesRead.gathers {α : Type} {word : TokenKind} {body : Reader α} {a : α} {s : Span}
    (h : BracesRead word body c c' a s) {f : α → List (SignatureExpr TypeExpr)}
    (hbody : Finds body f) : Gathers c (f a) c' := by
  cases h with
  | mk ht hb ha hd =>
    exact ((hbody ha).steps_right hd.1.steps).of_steps (ht.1.steps.trans hb.1.steps)

theorem finds_bodyItems {α : Type} {what : String} {item : Reader (List α)}
    {f : α → List (SignatureExpr TypeExpr)} (hitem : Finds item (·.flatMap f)) {m : Nat} :
    Finds (bodyItems what item m) (·.flatMap f) := by
  intro c items c' h
  induction m generalizing c items with
  | zero => cases h
  | succ m ih =>
    rw [bodyItems, bind_eq_done] at h
    obtain ⟨_, c₁, hskip, h⟩ := h
    cases hskip
    have hskip := steps_skipSemicolons c
    rw [bind_cursor] at h
    obtain ⟨-, h⟩ | ⟨-, h⟩ := ite_eq_done h
    · obtain ⟨rfl, rfl⟩ := pure_eq_done.1 h
      exact ⟨hskip, List.forall_mem_nil _⟩
    · simp only [bind_eq_done, pure_eq_done] at h
      obtain ⟨first, c₂, hfirst, _, c₃, hend, later, c₄, hlater, rfl, rfl⟩ := h
      have hboth := ((hitem hfirst).steps_right (terminator_steps hend)).append (ih hlater)
      rw [← List.flatMap_append] at hboth
      exact hboth.of_steps hskip

theorem fieldNames_steps {m : Nat} {names : List (String × Span)}
    (h : fieldNames m c = .done names c') : c.Steps c' := by
  induction m generalizing c names with
  | zero => cases h
  | succ m ih =>
    simp only [fieldNames, bind_eq_done] at h
    obtain ⟨comma, c₁, hcomma, h⟩ := h
    have h₁ := eat_steps hcomma
    obtain ⟨-, h⟩ | ⟨-, h⟩ := ite_eq_done h
    · simp only [bind_eq_done, ident_eq_done, pure_eq_done] at h
      obtain ⟨_, c₂, ⟨t, ht, -, rfl⟩, later, c₃, hlater, rfl, rfl⟩ := h
      exact h₁.trans (ht.steps.trans (ih hlater))
    · obtain ⟨rfl, rfl⟩ := pure_eq_done.1 h
      exact h₁

theorem namedFields_eq_done {type : TypeExpr} {names : List (String × Span)}
    {fields : List (FieldExpr TypeExpr)} (h : namedFields type names c = .done fields c') :
    c' = c ∧ ∀ f ∈ fields, f.type = type := by
  induction names generalizing c fields with
  | nil =>
    obtain ⟨rfl, rfl⟩ := pure_eq_done.1 h
    exact ⟨rfl, nofun⟩
  | cons w rest ih =>
    simp only [namedFields, bind_eq_done, pure_eq_done] at h
    obtain ⟨s, c₁, hs, later, c₂, hlater, rfl, rfl⟩ := h
    obtain ⟨-, rfl⟩ := join_eq_done hs
    obtain ⟨rfl, hall⟩ := ih hlater
    exact ⟨rfl, List.forall_mem_cons.2 ⟨rfl, hall⟩⟩

section Over

variable (hp : Finds p TypeExpr.signatures)

include hp

theorem finds_paramEntry : Finds (paramEntry p) (·.type.signatures) := by
  intro c x c' h
  obtain ⟨name, ellipsis, c₁, c₂, hname, hellipsis, htype, -, -⟩ := paramEntry_eq_done h
  exact (hp htype).of_steps (hname.steps.trans hellipsis.steps)

theorem gathers_entries {xs : List (ParamExpr TypeExpr)} (h : EntriesRead p c xs c') :
    Gathers c (ParamExpr.allSignatures xs) c' := by
  induction h with
  | nil c => exact ⟨.refl, List.forall_mem_nil _⟩
  | last hx =>
    rw [ParamExpr.allSignatures, ParamExpr.allSignatures, List.append_nil]
    exact finds_paramEntry hp hx
  | cons hx hcomma _ _ ih => exact (finds_paramEntry hp hx).append (ih.of_steps hcomma.steps)

theorem finds_params : Finds (params p) ParamExpr.allSignatures := by
  intro c ps c' h
  obtain ⟨xs, hxs, hgroup⟩ := params_eq_done h
  obtain ⟨opening, c₁, c₂, closing, hopen, -, hentries, hclose, -⟩ := entryList_eq_done hxs
  obtain ⟨hsteps, hstands⟩ :=
    ((gathers_entries hp hentries).steps_right hclose.steps).of_steps hopen.steps
  refine ⟨hsteps, fun sig hsig ↦ hstands sig ?_⟩
  obtain ⟨q, hq, hsig⟩ := ParamExpr.mem_allSignatures.1 hsig
  obtain ⟨x, hx, htype⟩ := (keeps_groupParams hgroup).types q hq
  exact ParamExpr.mem_allSignatures.2 ⟨x, hx, htype ▸ hsig⟩

theorem ResultsRead.gathers {rs : List (ParamExpr TypeExpr)} (h : ResultsRead p c c' rs) :
    Gathers c (ParamExpr.allSignatures rs) c' := by
  cases h with
  | list h => exact finds_params hp h
  | single _ h =>
    rw [ParamExpr.allSignatures, ParamExpr.allSignatures, List.append_nil]
    exact hp h
  | empty h => exact ⟨h ▸ .refl, List.forall_mem_nil _⟩

theorem finds_signature (htype : IsTypeReader p) :
    Finds (signature p) SignatureExpr.signatures := by
  intro c sig c' h
  obtain ⟨c₁, hin, hout, -⟩ := signature_eq_done h
  have hparts := (finds_params hp hin).append (hout.gathers hp)
  cases sig with
  | mk inputs outputs s =>
    refine ⟨hparts.steps, List.forall_mem_cons.2 ⟨⟨p, htype, c, c', .refl, h⟩, hparts.stands⟩⟩

theorem finds_element (htype : IsTypeReader p) : Finds (element p) ElementExpr.signatures := by
  intro c e c' h
  rw [element, bind_cursor] at h
  obtain ⟨-, h⟩ | ⟨-, h⟩ := ite_eq_done h
  · simp only [bind_eq_done, ident_eq_done, pure_eq_done] at h
    obtain ⟨_, c₁, ⟨t, ht, -, rfl⟩, sig, c₂, hsig, s, c₃, hs, rfl, rfl⟩ := h
    obtain ⟨-, rfl⟩ := join_eq_done hs
    exact (finds_signature hp htype hsig).of_steps ht.steps
  · obtain ⟨-, h⟩ | ⟨-, h⟩ := ite_eq_done h
    · simp only [bind_eq_done, pure_eq_done] at h
      obtain ⟨type, c₁, hname, rfl, rfl⟩ := h
      exact (nameRead_of_typeName hname).gathers
    · cases h

theorem finds_elements (htype : IsTypeReader p) :
    Finds (bounded (bodyItems "interface element" ((fun e ↦ [e]) <$> element p)))
      (·.flatMap ElementExpr.signatures) := by
  have hitem : Finds ((fun e ↦ [e]) <$> element p) (·.flatMap ElementExpr.signatures) := by
    intro c es c' h
    obtain ⟨e, he, rfl⟩ := map_eq_done.1 h
    simpa using finds_element hp htype he
  exact fun _ _ _ h ↦ finds_bodyItems hitem h

theorem finds_fieldGroup : Finds (fieldGroup p) (·.flatMap (·.type.signatures)) := by
  intro c fields c' h
  rw [fieldGroup, bind_cursor] at h
  have htag : ∀ {fs : List (FieldExpr TypeExpr)} {c₁ : Cursor},
      Gathers c (fs.flatMap (·.type.signatures)) c₁ →
      (eat .str >>= fun _ ↦ pure fs : Reader _) c₁ = .done fields c' →
      Gathers c (fields.flatMap (·.type.signatures)) c' := by
    intro fs c₁ hfs h
    simp only [bind_eq_done, pure_eq_done] at h
    obtain ⟨_, c₂, htag, rfl, rfl⟩ := h
    exact hfs.steps_right (eat_steps htag)
  obtain ⟨-, h⟩ | ⟨-, h⟩ := ite_eq_done h
  · simp only [pure_bind] at h
    rw [bind_eq_done] at h
    obtain ⟨e, c₁, he, h⟩ := h
    refine htag ?_ h
    simpa using hp he
  · rw [bind_eq_done] at h
    obtain ⟨first, c₁, hfirst, h⟩ := h
    rw [bind_eq_done] at h
    obtain ⟨names, c₂, hnames, h⟩ := h
    rw [bind_eq_done] at h
    obtain ⟨e, c₃, he, h⟩ := h
    rw [bind_eq_done] at h
    obtain ⟨fs, c₄, hfs, h⟩ := h
    obtain ⟨t, ht, -, -⟩ := ident_eq_done.1 hfirst
    refine htag ?_ h
    obtain ⟨rfl, hall⟩ := namedFields_eq_done hfs
    refine ((hp he).of_steps (ht.steps.trans (fieldNames_steps hnames))).of_subset fun sig hsig ↦ ?_
    obtain ⟨f, hf, hsig⟩ := List.mem_flatMap.1 hsig
    exact hall f hf ▸ hsig

theorem finds_fields :
    Finds (bounded (bodyItems "struct field" (fieldGroup p))) (·.flatMap (·.type.signatures)) :=
  fun _ _ _ h ↦ finds_bodyItems (finds_fieldGroup hp) h

theorem finds_typeOver (htype : IsTypeReader p) : Finds (typeOver p) TypeExpr.signatures := by
  intro c e c' h
  cases typeRead_of_typeOver h with
  | name hname => exact hname.gathers
  | pointer ht helem | chan ht _ helem => exact (hp helem).of_steps ht.1.steps
  | slice ht hb helem | send ht hb helem | recv ht hb helem =>
    exact (hp helem).of_steps (ht.1.steps.trans hb.1.steps)
  | array ht hn _ hb helem =>
    exact (hp helem).of_steps (ht.1.steps.trans (hn.1.steps.trans hb.1.steps))
  | map ht hb hkey hd helem =>
    have hboth := ((hp hkey).steps_right hd.1.steps).append (hp helem)
    exact hboth.of_steps (ht.1.steps.trans hb.1.steps)
  | func ht helem => exact (finds_signature hp htype helem).of_steps ht.1.steps
  | interface hbraces =>
    refine (hbraces.gathers (finds_elements hp htype)).of_subset fun sig hsig ↦ ?_
    exact List.mem_flatMap.2 (ElementExpr.mem_signatures.1 hsig)
  | struct hbraces =>
    refine (hbraces.gathers (finds_fields hp)).of_subset fun sig hsig ↦ ?_
    exact List.mem_flatMap.2 (FieldExpr.mem_allSignatures.1 hsig)
  | parens ht helem hb => exact ((hp helem).steps_right hb.1.steps).of_steps ht.1.steps

end Over

theorem finds_typeWithin (n : Nat) : Finds (typeWithin n) TypeExpr.signatures := by
  induction n with
  | zero => exact nofun
  | succ n ih => exact finds_typeOver ih (.within n)

theorem IsTypeReader.finds (h : IsTypeReader p) : Finds p TypeExpr.signatures := by
  intro c e c' hdone
  obtain ⟨n, hn⟩ := h.exists_within c
  exact finds_typeWithin n (hn ▸ hdone)

theorem IsTypeReader.movesOn (h : IsTypeReader p) : MovesOn p := fun hdone ↦ (h.finds hdone).steps

end Reader

end Understudy
