import Understudy.Proofs.ReaderRuns
import Understudy.Proofs.TypeReading

namespace Understudy

mutual

def TypeExpr.spans : TypeExpr → List Span
  | .name _ _ s => [s]
  | .pointer elem s | .slice elem s | .array _ elem s | .chan _ elem s => s :: elem.spans
  | .map key elem s => s :: (key.spans ++ elem.spans)
  | .func sig s => s :: sig.spans
  | .interface elements s => s :: ElementExpr.allSpans elements
  | .struct fields s => s :: FieldExpr.allSpans fields
termination_by structural t => t

def SignatureExpr.spans : SignatureExpr TypeExpr → List Span
  | ⟨params, results, s⟩ => s :: (ParamExpr.allSpans params ++ ParamExpr.allSpans results)
termination_by structural sig => sig

def ParamExpr.allSpans : List (ParamExpr TypeExpr) → List Span
  | [] => []
  | ⟨_, type, _, s⟩ :: rest => s :: (type.spans ++ ParamExpr.allSpans rest)
termination_by structural ps => ps

def ElementExpr.allSpans : List (ElementExpr TypeExpr) → List Span
  | [] => []
  | .method _ sig s :: rest => s :: (sig.spans ++ ElementExpr.allSpans rest)
  | .embedded type :: rest => type.spans ++ ElementExpr.allSpans rest
termination_by structural es => es

def FieldExpr.allSpans : List (FieldExpr TypeExpr) → List Span
  | [] => []
  | ⟨_, type, s⟩ :: rest => s :: (type.spans ++ FieldExpr.allSpans rest)
termination_by structural fs => fs

end

def ParamExpr.spans (p : ParamExpr TypeExpr) : List Span := p.span :: p.type.spans

def ElementExpr.spans : ElementExpr TypeExpr → List Span
  | .method _ sig s => s :: sig.spans
  | .embedded type => type.spans

def FieldExpr.spans (f : FieldExpr TypeExpr) : List Span := f.span :: f.type.spans

theorem ParamExpr.allSpans_eq (ps : List (ParamExpr TypeExpr)) :
    allSpans ps = ps.flatMap spans := by
  induction ps with
  | nil => rfl
  | cons p rest ih => simp [allSpans, spans, ih]

theorem ElementExpr.allSpans_eq (es : List (ElementExpr TypeExpr)) :
    allSpans es = es.flatMap spans := by
  induction es with
  | nil => rfl
  | cons e rest ih => cases e <;> simp [allSpans, spans, ih]

theorem FieldExpr.allSpans_eq (fs : List (FieldExpr TypeExpr)) :
    allSpans fs = fs.flatMap spans := by
  induction fs with
  | nil => rfl
  | cons f rest ih => simp [allSpans, spans, ih]

theorem SignatureExpr.spans_eq (sig : SignatureExpr TypeExpr) :
    sig.spans = sig.span ::
      (sig.params.flatMap ParamExpr.spans ++ sig.results.flatMap ParamExpr.spans) := by
  cases sig
  simp [SignatureExpr.spans, ParamExpr.allSpans_eq]

theorem TypeExpr.span_mem_spans (e : TypeExpr) : e.span ∈ e.spans := by
  cases e <;> simp [TypeExpr.span, TypeExpr.spans]

def AllWithin (size : Nat) (spans : List Span) : Prop := ∀ s ∈ spans, s.Within size

section AllWithin

variable {size : Nat} {s : Span} {xs ys : List Span}

@[simp]
theorem allWithin_nil : AllWithin size [] := nofun

@[simp]
theorem allWithin_cons : AllWithin size (s :: xs) ↔ s.Within size ∧ AllWithin size xs := by
  simp [AllWithin]

@[simp]
theorem allWithin_append : AllWithin size (xs ++ ys) ↔ AllWithin size xs ∧ AllWithin size ys := by
  simp [AllWithin, or_imp, forall_and]

theorem allWithin_flatMap {α : Type} {f : α → List Span} {as : List α} :
    AllWithin size (as.flatMap f) ↔ ∀ a ∈ as, AllWithin size (f a) := by
  simp only [AllWithin, List.mem_flatMap]
  exact ⟨fun h a ha s hs ↦ h s ⟨a, ha, hs⟩, fun h s ⟨a, ha, hs⟩ ↦ h a ha s hs⟩

end AllWithin

namespace Reader

variable {α : Type} {sorted : Prop} {size n : Nat} {c c₁ c' : Cursor} {p : Reader TypeExpr}

/-- At least one token was taken, and what it was taken for covers `spans`. -/
structure Spends (sorted : Prop) (size : Nat) (c : Cursor) (spans : List Span) (c' : Cursor) :
    Prop where
  passes : c.Passes c'
  within : sorted → AllWithin size spans

/-- What was taken is a node, which covers `span` itself. -/
structure Covers (sorted : Prop) (size : Nat) (c : Cursor) (span : Span) (spans : List Span)
    (c' : Cursor) : Prop
    extends Spends sorted size c spans c' where
  start_le : sorted → c.start ≤ span.stop

abbrev CoversType (sorted : Prop) (size : Nat) (c : Cursor) (e : TypeExpr) (c' : Cursor) : Prop :=
  Covers sorted size c e.span e.spans c'

/-- Fewer than `n` tokens are enough for `p` to read a type from. -/
def ReadsTypes (sorted : Prop) (size n : Nat) (p : Reader TypeExpr) : Prop :=
  ∀ c, c.tokens.length < n → (sorted → c.IsOrderly size) →
    Runs sorted size p c (CoversType sorted size c)

theorem Covers.of_steps {span : Span} {spans : List Span} (h : Covers sorted size c₁ span spans c')
    (hc : sorted → c.IsOrderly size) (hsteps : c.Steps c₁) :
    Covers sorted size c span spans c' where
  passes := hsteps.trans_passes h.passes
  within := h.within
  start_le hs := Nat.le_trans ((hc hs).start_le hsteps h.passes.tokens_ne) (h.start_le hs)

theorem Covers.range {span : Span} {spans : List Span} (before : List Span)
    (h : Covers sorted size c span spans c') (hspan : span ∈ spans)
    (hbefore : sorted → AllWithin size before) :
    Covers sorted size c ⟨c.start, span.stop⟩ (⟨c.start, span.stop⟩ :: (before ++ spans)) c' where
  passes := h.passes
  within hs := by
    simp only [allWithin_cons, allWithin_append]
    exact ⟨.of_le (h.start_le hs) (h.within hs span hspan).2, hbefore hs, h.within hs⟩
  start_le := h.start_le

theorem runs_spanning (hp : ReadsTypes sorted size n p) (hc : sorted → c.IsOrderly size)
    (hsteps : c.Steps c₁) (hlen : c₁.tokens.length < n) {make : TypeExpr → Span → TypeExpr}
    (before : List Span) (hbefore : sorted → AllWithin size before)
    (hspan : ∀ e s, (make e s).span = s)
    (hspans : ∀ e s, (make e s).spans = s :: (before ++ e.spans)) :
    Runs sorted size (spanning p c.start make) c₁ (CoversType sorted size c) := by
  have hc₁ : sorted → c₁.IsOrderly size := fun hs ↦ (hc hs).steps hsteps
  refine (hp c₁ hlen hc₁).bind hc₁ fun e c₂ _ _ he ↦ ?_
  have he' := he.of_steps hc hsteps
  refine runs_range_bind he'.start_le (.pure ?_)
  rw [CoversType, hspan, hspans]
  exact he'.range before e.span_mem_spans hbefore

theorem runs_typeName (hc : sorted → c.IsOrderly size) :
    Runs sorted size typeName c (CoversType sorted size c) := by
  refine runs_ident_bind hc fun t c₁ ht hc₁ ↦ ?_
  have hfirst : sorted → t.span.Within size := fun hs ↦ ((hc hs).takes ht).2.1
  have hstart : sorted → c.start ≤ t.span.stop := fun hs ↦ ht.start_eq ▸ (hfirst hs).1
  refine runs_eat_bind hc₁ (fun d c₂ hd _ hc₂ ↦ ?_) (.pure ?_)
  · refine runs_ident_bind hc₂ fun i c₃ hi _ ↦ ?_
    have hsecond : sorted → i.span.Within size := fun hs ↦ ((hc₂ hs).takes hi).2.1
    refine runs_join_bind (fun hs ↦ (hfirst hs).1)
      (.pure ⟨⟨ht.passes.trans_steps (hd.steps.trans hi.steps), ?_⟩, ?_⟩)
    · intro hs
      simpa [TypeExpr.spans] using (hfirst hs).join (hsecond hs)
    · intro hs
      exact Nat.le_trans (hstart hs) (Nat.le_max_left ..)
  · refine ⟨⟨ht.passes, ?_⟩, hstart⟩
    simpa [TypeExpr.spans] using hfirst

section Params

theorem runs_paramEntry (hp : ReadsTypes sorted size n p) (hc : sorted → c.IsOrderly size)
    (hlen : c.tokens.length < n) :
    Runs sorted size (paramEntry p) c fun entry c' ↦ Spends sorted size c entry.spans c' := by
  have htype : ∀ name variadic c₂, c.Steps c₂ → (sorted → c₂.IsOrderly size) → Runs sorted size (do
      let type ← p
      return (⟨name, type, variadic, ← range c.start type.span.stop⟩ : ParamExpr TypeExpr)) c₂
        fun entry c' ↦ Spends sorted size c entry.spans c' := by
    intro name variadic c₂ h₂ hc₂
    refine (hp c₂ (h₂.length_lt hlen) hc₂).bind hc₂ fun e c₃ _ _ he ↦ ?_
    have he' := he.of_steps hc h₂
    have hall := he'.range [] e.span_mem_spans fun _ ↦ allWithin_nil
    exact runs_range_bind he'.start_le (.pure hall.toSpends)
  have hrest : ∀ name c₁, c.Steps c₁ → (sorted → c₁.IsOrderly size) → Runs sorted size (do
      let variadic ← eat .ellipsis
      let type ← p
      return (⟨name, type, variadic, ← range c.start type.span.stop⟩ : ParamExpr TypeExpr)) c₁
        fun entry c' ↦ Spends sorted size c entry.spans c' := by
    intro name c₁ h₁ hc₁
    exact runs_eat_bind hc₁ (fun t c₂ ht _ hc₂ ↦ htype name true c₂ (h₁.trans ht.steps) hc₂)
      (htype name false c₁ h₁ hc₁)
  refine runs_cursor_bind (runs_ite ?_ (hrest none c .refl hc))
  rw [bind_map_left]
  refine runs_ident_bind hc fun t c₁ ht hc₁ ↦ ?_
  exact hrest t.text c₁ ht.steps hc₁

theorem runs_paramEntries (hp : ReadsTypes sorted size n p) {m : Nat} (hm : c.tokens.length < m)
    (hc : sorted → c.IsOrderly size) (hlen : c.tokens.length < n) :
    Runs sorted size (paramEntries p m) c fun entries _ ↦
      sorted → AllWithin size (entries.flatMap ParamExpr.spans) := by
  induction m generalizing c with
  | zero => omega
  | succ m ih =>
    refine runs_cursor_bind (runs_ite (.pure fun _ ↦ allWithin_nil) ?_)
    refine (runs_paramEntry hp hc hlen).bind hc fun entry c₁ _ hc₁ ⟨h₁, hentry⟩ ↦ ?_
    refine runs_eat_bind hc₁ (fun t c₂ ht _ hc₂ ↦ ?_) (.pure ?_)
    · have hlt := (h₁.trans_steps ht.steps).length_lt
      refine (ih (by omega) hc₂ (by omega)).bind hc₂ fun entries c₃ _ _ hentries ↦ .pure ?_
      intro hs
      simpa using ⟨hentry hs, hentries hs⟩
    · intro hs
      simpa using hentry hs

def GroupedWithin (size : Nat) : Except Diagnostic (List (ParamExpr TypeExpr)) → Prop
  | .ok params => AllWithin size (params.flatMap ParamExpr.spans)
  | .error d => d.Within size

theorem sharedWithin {pending : List (String × Span)} {type : TypeExpr}
  (hpending : AllWithin size (pending.map (·.2)))
    (htype : AllWithin size type.spans) : AllWithin size ((pending.map fun (name, span) ↦
      (⟨some name, type, false, span⟩ : ParamExpr TypeExpr)).flatMap ParamExpr.spans) := by
  simp only [allWithin_flatMap, List.mem_map]
  rintro _ ⟨w, hw, rfl⟩
  exact allWithin_cons.2 ⟨hpending w.2 (List.mem_map_of_mem hw), htype⟩

theorem shareTypes_within {pending : List (String × Span)} {entries : List (ParamExpr TypeExpr)}
    (hpending : AllWithin size (pending.map (·.2)))
    (hentries : AllWithin size (entries.flatMap ParamExpr.spans)) :
    GroupedWithin size (shareTypes pending entries) := by
  fun_induction shareTypes pending entries with
  | case1 => exact hentries
  | case2 name span rest =>
    simp only [List.map_cons, allWithin_cons] at hpending
    exact Diagnostic.within_error _ hpending.1
  | case3 pending entry rest =>
    simp only [List.flatMap_cons, ParamExpr.spans, allWithin_append, allWithin_cons] at hentries
    exact Diagnostic.within_error _ hentries.1.1
  | case4 pending entry rest name hname hlast d hd ih =>
    simp only [List.flatMap_cons, allWithin_append] at hentries
    have h := ih allWithin_nil hentries.2
    rwa [hd] at h
  | case5 pending entry rest name hname hlast later hlater ih =>
    simp only [List.flatMap_cons, allWithin_append] at hentries
    have h := ih allWithin_nil hentries.2
    rw [hlater] at h
    have hshared := sharedWithin hpending (allWithin_cons.1 hentries.1).2
    simpa [GroupedWithin] using ⟨hshared, hentries.1, h⟩
  | case6 pending entry rest hname name span hvariadic htype ih =>
    simp only [List.flatMap_cons, allWithin_append, ParamExpr.spans, allWithin_cons,
      htype] at hentries
    have hspan : Span.Within size span := by simpa [TypeExpr.spans] using hentries.1.2
    exact ih (by simpa using ⟨hpending, hspan⟩) hentries.2
  | case7 pending entry rest =>
    simp only [List.flatMap_cons, ParamExpr.spans, allWithin_append, allWithin_cons] at hentries
    exact Diagnostic.within_error _ (hentries.1.2 _ entry.type.span_mem_spans)

theorem groupParams_within {entries : List (ParamExpr TypeExpr)}
    (h : AllWithin size (entries.flatMap ParamExpr.spans)) :
    GroupedWithin size (groupParams entries) := by
  rw [groupParams]
  split
  · rename_i entry hfind
    have hmem := List.dropLast_subset _ (List.mem_of_find?_eq_some hfind)
    exact Diagnostic.within_error _ (allWithin_cons.1 (allWithin_flatMap.1 h entry hmem)).1
  · split
    · exact h
    · exact shareTypes_within allWithin_nil h

theorem runs_params (hp : ReadsTypes sorted size n p) (hc : sorted → c.IsOrderly size)
    (hlen : c.tokens.length < n) : Runs sorted size (params p) c fun ps c' ↦
      Spends sorted size c (ps.flatMap ParamExpr.spans) c' := by
  refine runs_expect_bind hc fun t c₁ ht hc₁ ↦ ?_
  have hlen₁ := ht.steps.length_lt hlen
  refine (runs_bounded (runs_paramEntries hp (Nat.lt_succ_self _) hc₁ hlen₁)).bind hc₁
    fun entries c₂ h₂ hc₂ hall ↦ ?_
  refine runs_expect_bind hc₂ fun close c₃ hclose _ ↦ ?_
  have hpasses : c.Passes c₃ := ht.passes.trans_steps (h₂.trans hclose.steps)
  have hgrouped : sorted → GroupedWithin size (groupParams entries) :=
    fun hs ↦ groupParams_within (hall hs)
  split
  · rename_i grouped heq
    rw [heq] at hgrouped
    exact .pure ⟨hpasses, hgrouped⟩
  · rename_i d heq
    rw [heq] at hgrouped
    exact ⟨.refl, hgrouped⟩

theorem runs_results (hp : ReadsTypes sorted size n p) (hc : sorted → c.IsOrderly size)
    (hlen : c.tokens.length < n) : Runs sorted size (results p) c fun rs _ ↦
      sorted → AllWithin size (rs.flatMap ParamExpr.spans) := by
  refine runs_cursor_bind (runs_ite ?_ (runs_ite ?_ (.pure fun _ ↦ allWithin_nil)))
  · exact (runs_params hp hc hlen).mono fun _ _ _ h ↦ h.within
  · refine (hp c hlen hc).bind hc fun e c' _ _ he ↦ .pure ?_
    intro hs
    have hall := he.within hs
    simpa [ParamExpr.spans] using ⟨hall _ e.span_mem_spans, hall⟩

theorem runs_signature (hp : ReadsTypes sorted size n p) (hc : sorted → c.IsOrderly size)
    (hlen : c.tokens.length < n) : Runs sorted size (signature p) c fun sig c' ↦
      Covers sorted size c sig.span sig.spans c' := by
  refine runs_cursor_bind ?_
  refine (runs_params hp hc hlen).bind hc fun inputs c₁ h₁ hc₁ hin ↦ ?_
  refine (runs_results hp hc₁ (h₁.length_lt hlen)).bind hc₁ fun outputs c₂ h₂ hc₂ hout ↦ ?_
  have hpasses : c.Passes c₂ := hin.passes.trans_steps h₂
  split
  · rename_i output hfind
    have hmem := List.mem_of_find?_eq_some hfind
    exact runs_rejectAt
      (fun hs ↦ (allWithin_cons.1 (allWithin_flatMap.1 (hout hs) output hmem)).1) _
  · have hle : sorted → c.start ≤ c₂.lastStop := fun hs ↦ (hc hs).start_le_lastStop hpasses
    refine runs_cursor_bind (runs_range_bind hle (.pure ⟨⟨hpasses, fun hs ↦ ?_⟩, hle⟩))
    simp only [SignatureExpr.spans_eq, allWithin_cons, allWithin_append]
    exact ⟨.of_le (hle hs) ((hc hs).lastStop_le_size hpasses), hin.within hs, hout hs⟩

end Params

section Bodies

theorem runs_bodyItems {what : String} {item : Reader (List α)} {spans : α → List Span}
    (hitem : ∀ c, c.tokens.length < n → (sorted → c.IsOrderly size) →
      Runs sorted size item c fun items c' ↦
      Spends sorted size c (items.flatMap spans) c') {m : Nat} (hm : c.tokens.length < m)
    (hc : sorted → c.IsOrderly size) (hlen : c.tokens.length < n) :
    Runs sorted size (bodyItems what item m) c fun items _ ↦ sorted →
    AllWithin size (items.flatMap spans) := by
  induction m generalizing c with
  | zero => omega
  | succ m ih =>
    refine runs_skipSemicolons.bind hc fun _ c₁ h₁ hc₁ _ ↦ ?_
    refine runs_cursor_bind (runs_ite (.pure fun _ ↦ allWithin_nil) ?_)
    refine (hitem c₁ (h₁.length_lt hlen) hc₁).bind hc₁ fun items c₂ _ hc₂ hitems ↦ ?_
    refine (runs_terminator hc₂ what).bind hc₂ fun _ c₃ h₃ hc₃ _ ↦ ?_
    -- an item takes a token, so one step of the bound pays for it
    have hle := h₁.length_le
    have hlt := (hitems.passes.trans_steps h₃).length_lt
    refine (ih (by omega) hc₃ (by omega)).bind hc₃ fun later c₄ _ _ hlater ↦ .pure ?_
    intro hs
    simpa using ⟨hitems.within hs, hlater hs⟩

theorem runs_element (hp : ReadsTypes sorted size n p) (hc : sorted → c.IsOrderly size)
    (hlen : c.tokens.length < n) :
    Runs sorted size (element p) c fun e c' ↦ Spends sorted size c e.spans c' := by
  refine runs_cursor_bind (runs_ite ?_ (runs_ite ?_ (runs_reject hc _)))
  · refine runs_ident_bind hc fun t c₁ ht hc₁ ↦ ?_
    refine (runs_signature hp hc₁ (ht.steps.length_lt hlen)).bind hc₁ fun sig c₂ h₂ _ hsig ↦ ?_
    have hname : sorted → t.span.Within size := fun hs ↦ ((hc hs).takes ht).2.1
    refine runs_join_bind (fun hs ↦ (hname hs).1) (.pure ⟨ht.passes.trans_steps h₂, ?_⟩)
    intro hs
    have hall := hsig.within hs
    have hown : sig.span.Within size := by
      rw [SignatureExpr.spans_eq, allWithin_cons] at hall
      exact hall.1
    simpa [ElementExpr.spans] using ⟨(hname hs).join hown, hall⟩
  · exact (runs_typeName hc).bind hc fun e c₁ _ _ he ↦ .pure he.toSpends

theorem covers_braces {word close : Token} {c₂ c₃ : Cursor} {inner : List Span}
    (hc : sorted → c.IsOrderly size) (hc₂ : sorted → c₂.IsOrderly size) (hword : c.Takes word c₁)
    (hsteps : c₁.Steps c₂) (hclose : c₂.Takes close c₃) (hinner : sorted → AllWithin size inner) :
    Covers sorted size c ⟨word.span.start, close.span.stop⟩
      (⟨word.span.start, close.span.stop⟩ :: inner) c₃ := by
  have hpasses : c.Passes c₃ := hword.passes.trans_steps (hsteps.trans hclose.steps)
  have hle : sorted → c.start ≤ close.span.stop :=
    fun hs ↦ hclose.lastStop ▸ (hc hs).start_le_lastStop hpasses
  refine ⟨⟨hpasses, fun hs ↦ allWithin_cons.2 ⟨.of_le ?_ ((hc₂ hs).takes hclose).2.1.2, hinner hs⟩⟩,
    hle⟩
  exact hword.start_eq ▸ hle hs

theorem runs_interfaceType (hp : ReadsTypes sorted size n p) (hc : sorted → c.IsOrderly size)
    (hlen : c.tokens.length ≤ n) :
    Runs sorted size (interfaceType p) c (CoversType sorted size c) := by
  refine runs_expect_bind hc fun word c₁ hword hc₁ ↦ ?_
  refine runs_expect_bind hc₁ fun brace c₂ hbrace hc₂ ↦ ?_
  have hlt := (hword.passes.trans_steps hbrace.steps).length_lt
  have hitem : ∀ c, c.tokens.length < n → (sorted → c.IsOrderly size) →
      Runs sorted size ((fun e ↦ [e]) <$> element p) c fun es c' ↦
        Spends sorted size c (es.flatMap ElementExpr.spans) c' := by
    intro c hlen hc
    refine .map ((runs_element hp hc hlen).mono fun e c' _ he ↦ ?_)
    simpa using he
  refine (runs_bounded (runs_bodyItems hitem (Nat.lt_succ_self _) hc₂ (by omega))).bind hc₂
    fun elements c₃ h₃ hc₃ hall ↦ ?_
  refine runs_expect_bind hc₃ fun close c₄ hclose _ ↦ ?_
  have hwhole := covers_braces hc hc₃ hword (hbrace.steps.trans h₃) hclose hall
  refine runs_range_bind (fun hs ↦ hword.start_eq ▸ hwhole.start_le hs) (.pure ?_)
  simpa [CoversType, TypeExpr.spans, TypeExpr.span, ElementExpr.allSpans_eq] using hwhole

theorem runs_fieldNames {m : Nat} (hm : c.tokens.length < m) (hc : sorted → c.IsOrderly size) :
    Runs sorted size (fieldNames m) c fun names _ ↦ sorted → AllWithin size (names.map (·.2)) := by
  induction m generalizing c with
  | zero => omega
  | succ m ih =>
    refine runs_eat_bind hc (fun comma c₁ hcomma _ hc₁ ↦ ?_) (.pure fun _ ↦ allWithin_nil)
    refine runs_ident_bind hc₁ fun t c₂ ht hc₂ ↦ ?_
    have hlt := (hcomma.passes.trans_steps ht.steps).length_lt
    refine (ih (by omega) hc₂).bind hc₂ fun names c₃ _ _ hnames ↦ .pure ?_
    intro hs
    simpa using ⟨((hc₁ hs).takes ht).2.1, hnames hs⟩

theorem runs_namedFields {e : TypeExpr} (hc : sorted → c.IsOrderly size) (he : sorted →
  AllWithin size e.spans)
    {names : List (String × Span)} (hnames : sorted → AllWithin size (names.map (·.2))) :
    Runs sorted size (namedFields e names) c fun fields _ ↦
      sorted → AllWithin size (fields.flatMap FieldExpr.spans) := by
  induction names with
  | nil => exact .pure fun _ ↦ allWithin_nil
  | cons w rest ih =>
    simp only [List.map_cons, allWithin_cons] at hnames
    refine runs_join_bind (fun hs ↦ (hnames hs).1.1) ?_
    refine (ih fun hs ↦ (hnames hs).2).bind hc fun fields c' _ _ hfields ↦ .pure ?_
    intro hs
    have hspan := (hnames hs).1.join (he hs _ e.span_mem_spans)
    simpa [FieldExpr.spans] using ⟨hspan, he hs, hfields hs⟩

theorem runs_fieldGroup (hp : ReadsTypes sorted size n p) (hc : sorted → c.IsOrderly size)
    (hlen : c.tokens.length < n) : Runs sorted size (fieldGroup p) c fun fields c' ↦
      Spends sorted size c (fields.flatMap FieldExpr.spans) c' := by
  have htag : ∀ (fields : List (FieldExpr TypeExpr)) (c₁ : Cursor), (sorted → c₁.IsOrderly size) →
      Spends sorted size c (fields.flatMap FieldExpr.spans) c₁ → Runs sorted size (do
        let _ ← eat .str
        return fields) c₁ fun fields c' ↦ Spends sorted size c
          (fields.flatMap FieldExpr.spans) c' := by
    intro fields c₁ hc₁ h
    exact runs_eat_bind hc₁ (fun t c₂ ht _ _ ↦ .pure ⟨h.passes.trans_steps ht.steps, h.within⟩)
      (.pure h)
  refine runs_cursor_bind (runs_ite ?_ ?_)
  · refine (hp c hlen hc).bind hc fun e c₁ _ hc₁ he ↦ ?_
    refine htag [⟨none, e, e.span⟩] c₁ hc₁ ⟨he.passes, ?_⟩
    intro hs
    have hall := he.within hs
    simpa [FieldExpr.spans] using ⟨hall _ e.span_mem_spans, hall⟩
  · refine runs_ident_bind hc fun t c₁ ht hc₁ ↦ ?_
    refine (runs_bounded (runs_fieldNames (Nat.lt_succ_self _) hc₁)).bind hc₁
      fun names c₂ h₂ hc₂ hnames ↦ ?_
    refine (hp c₂ ((ht.steps.trans h₂).length_lt hlen) hc₂).bind hc₂ fun e c₃ h₃ hc₃ he ↦ ?_
    have hall : sorted → AllWithin size (((t.text, t.span) :: names).map (·.2)) := by
      intro hs
      simpa using ⟨((hc hs).takes ht).2.1, hnames hs⟩
    refine (runs_namedFields hc₃ he.within hall).bind hc₃ fun fields c₄ h₄ hc₄ hfields ↦ ?_
    exact htag fields c₄ hc₄ ⟨ht.passes.trans_steps (h₂.trans (h₃.trans h₄)), hfields⟩

theorem runs_structType (hp : ReadsTypes sorted size n p) (hc : sorted → c.IsOrderly size)
    (hlen : c.tokens.length ≤ n) :
    Runs sorted size (structType p) c (CoversType sorted size c) := by
  refine runs_expect_bind hc fun word c₁ hword hc₁ ↦ ?_
  refine runs_expect_bind hc₁ fun brace c₂ hbrace hc₂ ↦ ?_
  have hlt := (hword.passes.trans_steps hbrace.steps).length_lt
  refine (runs_bounded
    (runs_bodyItems (fun c hlen hc ↦ runs_fieldGroup hp hc hlen) (Nat.lt_succ_self _) hc₂
    (by omega))).bind hc₂ fun fields c₃ h₃ hc₃ hall ↦ ?_
  refine runs_expect_bind hc₃ fun close c₄ hclose _ ↦ ?_
  have hwhole := covers_braces hc hc₃ hword (hbrace.steps.trans h₃) hclose hall
  refine runs_range_bind (fun hs ↦ hword.start_eq ▸ hwhole.start_le hs) (.pure ?_)
  simpa [CoversType, TypeExpr.spans, TypeExpr.span, FieldExpr.allSpans_eq] using hwhole

end Bodies

section Types

theorem runs_bracketed (hp : ReadsTypes sorted size n p) (hc : sorted → c.IsOrderly size)
    (hsteps : c.Steps c₁) (hlen : c₁.tokens.length < n) :
    Runs sorted size (bracketed p c.start) c₁ (CoversType sorted size c) := by
  have hc₁ : sorted → c₁.IsOrderly size := fun hs ↦ (hc hs).steps hsteps
  have helem : ∀ make c₂, c₁.Steps c₂ → (∀ e s, TypeExpr.span (make e s) = s) →
      (∀ e s, TypeExpr.spans (make e s) = s :: e.spans) →
      Runs sorted size (spanning p c.start make) c₂ (CoversType sorted size c) := fun make c₂ h₂ ↦
    runs_spanning hp hc (hsteps.trans h₂) (h₂.length_lt hlen) [] fun _ ↦ allWithin_nil
  refine runs_eat_bind hc₁ (fun t c₂ ht _ _ ↦ ?_) ?_
  · exact helem .slice c₂ ht.steps (fun _ _ ↦ rfl) fun _ _ ↦ rfl
  · refine runs_expect_bind hc₁ fun t c₂ ht hc₂ ↦ ?_
    dsimp only
    split
    · exact runs_rejectAt (fun hs ↦ ((hc₁ hs).takes ht).2.1) _
    · rename_i length _
      refine runs_expect_bind hc₂ fun close c₃ hclose _ ↦ ?_
      exact helem (.array length) c₃ (ht.steps.trans hclose.steps) (fun _ _ ↦ rfl) fun _ _ ↦ rfl

/-- If fewer than `n` tokens are enough for `p`, one more is enough around it. -/
theorem readsTypes_typeOver (hp : ReadsTypes sorted size n p) :
    ReadsTypes sorted size (n + 1) (typeOver p) := by
  intro c hlen hc
  have hlen' : c.tokens.length ≤ n := Nat.le_of_lt_succ hlen
  have hshort : ∀ {c'}, c.Passes c' → c'.tokens.length < n :=
    fun h ↦ Nat.lt_of_lt_of_le h.length_lt hlen'
  have helem : ∀ make c', c.Passes c' → (∀ e s, TypeExpr.span (make e s) = s) →
      (∀ e s, TypeExpr.spans (make e s) = s :: e.spans) →
      Runs sorted size (spanning p c.start make) c' (CoversType sorted size c) := fun make c' h ↦
    runs_spanning hp hc h.steps (hshort h) [] fun _ ↦ allWithin_nil
  refine runs_cursor_bind ?_
  split
  · exact runs_reject hc _
  rename_i t hhead
  have hstart : t.span.start = c.start := by simp [Cursor.start, Cursor.span?, hhead]
  dsimp only
  rw [hstart]
  split
  · exact runs_typeName hc
  · rename_i hkind
    refine runs_eat_head hc hhead hkind fun c₁ ht _ ↦ ?_
    exact helem .pointer c₁ ht.passes (fun _ _ ↦ rfl) fun _ _ ↦ rfl
  · rename_i hkind
    refine runs_eat_head hc hhead hkind fun c₁ ht _ ↦ ?_
    exact runs_bracketed hp hc ht.steps (hshort ht.passes)
  · rename_i hkind
    refine runs_eat_head hc hhead hkind fun c₁ ht hc₁ ↦ ?_
    refine runs_expect_bind hc₁ fun b c₂ hb hc₂ ↦ ?_
    have h₂ := ht.passes.trans_steps hb.steps
    refine (hp c₂ (hshort h₂) hc₂).bind hc₂ fun key c₃ h₃ hc₃ hkey ↦ ?_
    refine runs_expect_bind hc₃ fun d c₄ hd _ ↦ ?_
    have h₄ := h₂.trans_steps (h₃.trans hd.steps)
    exact runs_spanning hp hc h₄.steps (hshort h₄) key.spans hkey.within
      (fun _ _ ↦ rfl) fun _ _ ↦ rfl
  · rename_i hkind
    refine runs_eat_head hc hhead hkind fun c₁ ht hc₁ ↦ ?_
    refine runs_eat_bind hc₁ (fun b c₂ hb _ _ ↦ ?_) ?_
    · exact helem (.chan .send) c₂ (ht.passes.trans_steps hb.steps) (fun _ _ ↦ rfl) fun _ _ ↦ rfl
    · exact helem (.chan .both) c₁ ht.passes (fun _ _ ↦ rfl) fun _ _ ↦ rfl
  · rename_i hkind
    refine runs_eat_head hc hhead hkind fun c₁ ht hc₁ ↦ ?_
    refine runs_expect_bind hc₁ fun b c₂ hb hc₂ ↦ ?_
    exact helem (.chan .recv) c₂ (ht.passes.trans_steps hb.steps) (fun _ _ ↦ rfl) fun _ _ ↦ rfl
  · rename_i hkind
    refine runs_eat_head hc hhead hkind fun c₁ ht hc₁ ↦ ?_
    refine (runs_signature hp hc₁ (hshort ht.passes)).bind hc₁ fun sig c₂ _ _ hsig ↦ ?_
    have hall := (hsig.of_steps hc ht.steps).range [] (by simp [SignatureExpr.spans_eq])
      fun _ ↦ allWithin_nil
    exact runs_range_bind (hsig.of_steps hc ht.steps).start_le (.pure hall)
  · exact runs_interfaceType hp hc hlen'
  · exact runs_structType hp hc hlen'
  · rename_i hkind
    refine runs_eat_head hc hhead hkind fun c₁ ht hc₁ ↦ ?_
    refine (hp c₁ (hshort ht.passes) hc₁).bind hc₁ fun inner c₂ h₂ hc₂ hinner ↦ ?_
    refine runs_expect_bind hc₂ fun close c₃ hclose _ ↦ .pure ?_
    have h := hinner.of_steps hc ht.steps
    exact ⟨⟨h.passes.trans_steps hclose.steps, h.within⟩, h.start_le⟩
  · exact runs_reject hc _

theorem readsTypes_typeWithin : ReadsTypes sorted size n (typeWithin n) := by
  induction n with
  | zero => exact fun _ hlen ↦ absurd hlen (Nat.not_lt_zero _)
  | succ n ih => exact readsTypes_typeOver ih

theorem readsTypes_type : ReadsTypes sorted size n type := fun c _ hc ↦
  readsTypes_typeWithin c (Nat.lt_succ_self _) hc

end Types

end Reader

end Understudy
