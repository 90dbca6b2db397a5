import Mathlib.Logic.Relation
import Understudy.Syntax.File
import Understudy.Proofs.ReaderSteps

namespace Understudy

/-- A stretch that does not end before it starts, in a text of `size` bytes. -/
def Span.Within (size : Nat) (s : Span) : Prop := s.IsOrdered ∧ s.stop ≤ size

def Diagnostic.Within (size : Nat) (d : Diagnostic) : Prop := ∀ s ∈ d.span, s.Within size

theorem Span.Within.of_le {size start stop : Nat} (h : start ≤ stop) (hstop : stop ≤ size) :
    Span.Within size ⟨start, stop⟩ := ⟨h, hstop⟩

theorem Span.Within.join {size : Nat} {s t : Span} (hs : s.Within size) (ht : t.Within size) :
    Span.Within size ⟨min s.start t.start, max s.stop t.stop⟩ := by
  have hle : s.start ≤ s.stop := hs.1
  have hs' := hs.2
  have ht' := ht.2
  refine .of_le ?_ ?_ <;> omega

theorem Diagnostic.within_error {size : Nat} {s : Span} (message : String) (h : s.Within size) :
    (Diagnostic.error message (some s)).Within size := by
  rintro _ ⟨⟩
  exact h

namespace Cursor

variable {c c₁ c₂ : Cursor} {t : Token} {size : Nat}

/-- The tokens stand in order in a text of `size` bytes, behind what has been read. -/
structure IsOrderly (size : Nat) (c : Cursor) : Prop where
  inOrder : Token.InOrder c.lastStop c.tokens
  stop_le : ∀ t ∈ c.tokens, t.span.stop ≤ size

structure Takes (c : Cursor) (t : Token) (c₁ : Cursor) : Prop where
  tokens : c.tokens = t :: c₁.tokens
  lastStop : c₁.lastStop = t.span.stop

def Step (c c₁ : Cursor) : Prop := ∃ t, c.Takes t c₁

abbrev Steps : Cursor → Cursor → Prop := Relation.ReflTransGen Step

abbrev Passes : Cursor → Cursor → Prop := Relation.TransGen Step

theorem Takes.passes (h : c.Takes t c₁) : c.Passes c₁ := .single ⟨t, h⟩

theorem Takes.steps (h : c.Takes t c₁) : c.Steps c₁ := .single ⟨t, h⟩

theorem Passes.steps (h : c.Passes c₁) : c.Steps c₁ := Relation.TransGen.to_reflTransGen h

theorem Steps.trans (h : c.Steps c₁) (h₁ : c₁.Steps c₂) : c.Steps c₂ :=
  Relation.ReflTransGen.trans h h₁

theorem Passes.trans_steps (h : c.Passes c₁) (h₁ : c₁.Steps c₂) : c.Passes c₂ :=
  Relation.TransGen.trans_left h h₁

theorem Steps.trans_passes (h : c.Steps c₁) (h₁ : c₁.Passes c₂) : c.Passes c₂ :=
  Relation.TransGen.trans_right h h₁

theorem takes_mk {rest : List Token} {last : Nat} : Takes ⟨t :: rest, last⟩ t ⟨rest, t.span.stop⟩ :=
  ⟨rfl, rfl⟩

theorem Takes.start_eq (h : c.Takes t c₁) : c.start = t.span.start := by
  simp [Cursor.start, Cursor.span?, h.tokens]

theorem Steps.length_le (h : c.Steps c₁) : c₁.tokens.length ≤ c.tokens.length := by
  induction h with
  | refl => exact Nat.le_refl _
  | tail _ hstep ih =>
    obtain ⟨t, ht⟩ := hstep
    rw [ht.tokens, List.length_cons] at ih
    omega

theorem Steps.length_lt {n : Nat} (h : c.Steps c₁) (hn : c.tokens.length < n) :
    c₁.tokens.length < n :=
  Nat.lt_of_le_of_lt h.length_le hn

theorem Passes.length_lt (h : c.Passes c₁) : c₁.tokens.length < c.tokens.length := by
  obtain ⟨c', ⟨t, ht⟩, hsteps⟩ := Relation.TransGen.head'_iff.1 h
  have := Steps.length_le hsteps
  rw [ht.tokens, List.length_cons]
  omega

theorem Passes.tokens_ne (h : c.Passes c₁) : c.tokens ≠ [] := by
  have := h.length_lt
  rintro hnil
  simp [hnil] at this

theorem Steps.eq_or_passes (h : c.Steps c₁) : c₁ = c ∨ c.Passes c₁ :=
  Relation.reflTransGen_iff_eq_or_transGen.1 h

namespace IsOrderly

theorem takes (hc : c.IsOrderly size) (h : c.Takes t c₁) :
    c.lastStop ≤ t.span.start ∧ t.span.Within size ∧ c₁.IsOrderly size := by
  obtain ⟨hin, hstop⟩ := hc
  rw [h.tokens] at hin hstop
  obtain ⟨hstart, hord, hin⟩ := hin
  exact ⟨hstart, ⟨hord, hstop t (List.mem_cons_self ..)⟩, by rwa [h.lastStop],
    fun u hu ↦ hstop u (List.mem_cons_of_mem _ hu)⟩

theorem steps (hc : c.IsOrderly size) (h : c.Steps c₁) : c₁.IsOrderly size := by
  induction h with
  | refl => exact hc
  | tail _ hstep ih => exact (ih.takes hstep.choose_spec).2.2

theorem lastStop_le_of_steps (hc : c.IsOrderly size) (h : c.Steps c₁) :
    c.lastStop ≤ c₁.lastStop := by
  induction h with
  | refl => exact Nat.le_refl _
  | tail hsteps hstep ih =>
    obtain ⟨t, ht⟩ := hstep
    obtain ⟨hstart, hwithin, -⟩ := (hc.steps hsteps).takes ht
    rw [ht.lastStop]
    exact Nat.le_trans ih (Nat.le_trans hstart hwithin.1)

theorem start_le_lastStop (hc : c.IsOrderly size) (h : c.Passes c₁) : c.start ≤ c₁.lastStop := by
  obtain ⟨c', ⟨t, ht⟩, hsteps⟩ := Relation.TransGen.head'_iff.1 h
  obtain ⟨-, hwithin, hc'⟩ := hc.takes ht
  have hle := hc'.lastStop_le_of_steps hsteps
  rw [ht.start_eq]
  exact Nat.le_trans hwithin.1 (ht.lastStop ▸ hle)

theorem lastStop_le_start (hc : c.IsOrderly size) (h : c.tokens ≠ []) : c.lastStop ≤ c.start := by
  obtain ⟨tokens, last⟩ := c
  cases tokens with
  | nil => exact absurd rfl h
  | cons t rest => exact hc.inOrder.1

theorem start_le (hc : c.IsOrderly size) (h : c.Steps c₁) (hne : c₁.tokens ≠ []) :
    c.start ≤ c₁.start := by
  rcases h.eq_or_passes with rfl | hpasses
  · exact Nat.le_refl _
  · exact Nat.le_trans (hc.start_le_lastStop hpasses) ((hc.steps h).lastStop_le_start hne)

theorem lastStop_le_size (hc : c.IsOrderly size) (h : c.Passes c₁) : c₁.lastStop ≤ size := by
  obtain ⟨c', hsteps, t, ht⟩ := Relation.TransGen.tail'_iff.1 h
  obtain ⟨-, hwithin, -⟩ := (hc.steps hsteps).takes ht
  exact ht.lastStop ▸ hwithin.2

theorem within_span? (hc : c.IsOrderly size) : ∀ s ∈ c.span?, s.Within size := by
  obtain ⟨tokens, last⟩ := c
  cases tokens with
  | nil => nofun
  | cons t rest =>
    rintro _ ⟨⟩
    exact (hc.takes takes_mk).2.1

end IsOrderly

end Cursor

namespace Reader

variable {α β : Type} {sorted : Prop} {size : Nat} {c : Cursor} {p : Reader α}
    {Q : α → Cursor → Prop}

/-- A reply at `c` that took tokens so that `Q` holds of its value, or took tokens and reports a
place in the text. It is no answer only where a stretch is reversed, and on tokens in order not even
then. -/
def Meets (sorted : Prop) (size : Nat) (c : Cursor) (Q : α → Cursor → Prop) : Reply α → Prop
  | .done a c' => c.Steps c' ∧ Q a c'
  | .rejected d c' => c.Steps c' ∧ (sorted → d.Within size)
  | .fault e => e = .reversedSpan ∧ ¬sorted

def Runs (sorted : Prop) (size : Nat) (p : Reader α) (c : Cursor) (Q : α → Cursor → Prop) : Prop :=
  Meets sorted size c Q (p c)

theorem Runs.mono {Q' : α → Cursor → Prop} (h : Runs sorted size p c Q)
    (hQ : ∀ a c', c.Steps c' → Q a c' → Q' a c') : Runs sorted size p c Q' := by
  unfold Runs at h ⊢
  cases hp : p c with
  | done a c' =>
    rw [hp] at h
    exact ⟨h.1, hQ a c' h.1 h.2⟩
  | rejected d c' => rwa [hp] at h
  | fault e => rwa [hp] at h

theorem Runs.pure {a : α} (h : Q a c) : Runs sorted size (pure a) c Q := ⟨.refl, h⟩

theorem Runs.bind {f : α → Reader β} {R : β → Cursor → Prop} (hp : Runs sorted size p c Q)
    (hc : sorted → c.IsOrderly size)
    (hf : ∀ a c', c.Steps c' → (sorted → c'.IsOrderly size) → Q a c' →
      Runs sorted size (f a) c' R) : Runs sorted size (p >>= f) c R := by
  unfold Runs at hp ⊢
  rw [bind_apply]
  cases hpc : p c with
  | done a c' =>
    rw [hpc] at hp
    obtain ⟨hsteps, hQ⟩ := hp
    have h : Meets sorted size c' R (f a c') := hf a c' hsteps (fun hs ↦ (hc hs).steps hsteps) hQ
    dsimp only
    cases hfc : f a c' with
    | done b c'' =>
      rw [hfc] at h
      exact ⟨hsteps.trans h.1, h.2⟩
    | rejected d c'' =>
      rw [hfc] at h
      exact ⟨hsteps.trans h.1, h.2⟩
    | fault e => rwa [hfc] at h
  | rejected d c' => rwa [hpc] at hp
  | fault e => rwa [hpc] at hp

theorem Runs.map {f : α → β} {R : β → Cursor → Prop}
    (h : Runs sorted size p c fun a c' ↦ R (f a) c') : Runs sorted size (f <$> p) c R := by
  unfold Runs at h ⊢
  rw [← bind_pure_comp, bind_apply]
  cases hp : p c <;> rwa [hp] at h

theorem runs_ite {b : Bool} {p' : Reader α} (h : Runs sorted size p c Q)
    (h' : Runs sorted size p' c Q) : Runs sorted size (if b then p else p') c Q := by
  split
  · exact h
  · exact h'

theorem runs_bounded {p : Nat → Reader α} (h : Runs sorted size (p (c.tokens.length + 1)) c Q) :
    Runs sorted size (bounded p) c Q := h

theorem Runs.attempt_bind {f : Except Diagnostic α → Reader β} {R : β → Cursor → Prop}
    (h : Runs sorted size p c Q) (hc : sorted → c.IsOrderly size)
    (hok : ∀ a c', c.Steps c' → (sorted → c'.IsOrderly size) → Q a c' →
      Runs sorted size (f (.ok a)) c' R)
    (herror : ∀ d c', c.Steps c' → (sorted → c'.IsOrderly size) → (sorted → d.Within size) →
      Runs sorted size (f (.error d)) c' R) : Runs sorted size (attempt p >>= f) c R := by
  have hattempt : Runs sorted size (attempt p) c fun r c' ↦
      (∃ a, r = .ok a ∧ Q a c') ∨ ∃ d, r = .error d ∧ (sorted → d.Within size) := by
    unfold Runs attempt at *
    cases hp : p c with
    | done a c' =>
      rw [hp] at h
      exact ⟨h.1, .inl ⟨a, rfl, h.2⟩⟩
    | rejected d c' =>
      rw [hp] at h
      exact ⟨h.1, .inr ⟨d, rfl, h.2⟩⟩
    | fault e => rwa [hp] at h
  refine hattempt.bind hc fun r c' hsteps hc' hr ↦ ?_
  obtain ⟨a, rfl, ha⟩ | ⟨d, rfl, hd⟩ := hr
  · exact hok a c' hsteps hc' ha
  · exact herror d c' hsteps hc' hd

section Primitives

variable {f : Bool → Reader β} {R : β → Cursor → Prop} {kind : TokenKind}

theorem runs_cursor_bind {f : Cursor → Reader β} (h : Runs sorted size (f c) c R) :
    Runs sorted size (cursor >>= f) c R := h

theorem runs_reject (hc : sorted → c.IsOrderly size) (message : String) :
    Runs sorted size (reject message) c Q := ⟨.refl, fun hs ↦ (hc hs).within_span?⟩

theorem runs_rejectAt {s : Span} (hs : sorted → s.Within size) (message : String) :
    Runs sorted size (rejectAt message s) c Q :=
  ⟨.refl, fun h ↦ Diagnostic.within_error message (hs h)⟩

theorem runs_eat_bind (hc : sorted → c.IsOrderly size)
    (hf : ∀ t c', c.Takes t c' → t.kind = kind → (sorted → c'.IsOrderly size) →
      Runs sorted size (f true) c' R) (hn : Runs sorted size (f false) c R) :
    Runs sorted size (eat kind >>= f) c R := by
  have h : Runs sorted size (eat kind) c fun taken c' ↦
      taken = true ∧ (∃ t, c.Takes t c' ∧ t.kind = kind) ∨ taken = false ∧ c' = c := by
    obtain ⟨tokens, last⟩ := c
    cases tokens with
    | nil => exact ⟨.refl, .inr ⟨rfl, rfl⟩⟩
    | cons t rest =>
      unfold Runs
      by_cases hk : t.kind = kind
      · rw [eat_cons hk]
        exact ⟨Cursor.takes_mk.steps, .inl ⟨rfl, t, Cursor.takes_mk, hk⟩⟩
      · rw [eat_of_head? (by simpa using hk)]
        exact ⟨.refl, .inr ⟨rfl, rfl⟩⟩
  refine h.bind hc fun taken c' _ hc' ht ↦ ?_
  obtain ⟨rfl, t, ht, hk⟩ | ⟨rfl, rfl⟩ := ht
  · exact hf t c' ht hk hc'
  · exact hn

theorem runs_eat_head {t : Token} (hc : sorted → c.IsOrderly size) (hhead : c.tokens.head? = some t)
    (hk : t.kind = kind)
    (hf : ∀ c', c.Takes t c' → (sorted → c'.IsOrderly size) → Runs sorted size (f true) c' R) :
    Runs sorted size (eat kind >>= f) c R := by
  obtain ⟨tokens, last⟩ := c
  cases tokens with
  | nil => cases hhead
  | cons x rest =>
    cases hhead
    have h : Runs sorted size (eat kind) ⟨t :: rest, last⟩ fun taken c' ↦
        taken = true ∧ Cursor.Takes ⟨t :: rest, last⟩ t c' := by
      unfold Runs
      rw [eat_cons hk]
      exact ⟨Cursor.takes_mk.steps, rfl, Cursor.takes_mk⟩
    refine h.bind hc fun taken c' _ hc' ht ↦ ?_
    obtain ⟨rfl, ht⟩ := ht
    exact hf c' ht hc'

theorem runs_expect (hc : sorted → c.IsOrderly size) (kind : TokenKind) (message : String) :
    Runs sorted size (expect kind message) c fun t c' ↦ c.Takes t c' ∧ t.kind = kind := by
  obtain ⟨tokens, last⟩ := c
  cases tokens with
  | nil => exact ⟨.refl, fun _ ↦ nofun⟩
  | cons t rest =>
    unfold Runs
    by_cases h : t.kind = kind
    · rw [expect_cons h]
      exact ⟨Cursor.takes_mk.steps, Cursor.takes_mk, h⟩
    · have hr : expect kind message ⟨t :: rest, last⟩ = .rejected (.error message (some t.span))
          ⟨t :: rest, last⟩ :=
        if_neg h
      rw [hr]
      exact ⟨.refl, fun hs ↦ Diagnostic.within_error message ((hc hs).takes Cursor.takes_mk).2.1⟩

theorem runs_expect_bind {f : Token → Reader β} {message : String} (hc : sorted → c.IsOrderly size)
    (hf : ∀ t c', c.Takes t c' → (sorted → c'.IsOrderly size) → Runs sorted size (f t) c' R) :
    Runs sorted size (expect kind message >>= f) c R :=
  (runs_expect hc kind message).bind hc fun t c' _ hc' ht ↦ hf t c' ht.1 hc'

theorem runs_ident (hc : sorted → c.IsOrderly size) (message : String) :
    Runs sorted size (ident message) c fun word c' ↦ ∃ t, c.Takes t c' ∧ word = (t.text, t.span) :=
  runs_expect_bind hc fun t _ ht _ ↦ .pure ⟨t, ht, rfl⟩

theorem runs_ident_bind {f : String × Span → Reader β} {message : String}
    (hc : sorted → c.IsOrderly size)
    (hf : ∀ t c', c.Takes t c' → (sorted → c'.IsOrderly size) →
      Runs sorted size (f (t.text, t.span)) c' R) : Runs sorted size (ident message >>= f) c R := by
  refine (runs_ident hc message).bind hc fun word c' _ hc' hword ↦ ?_
  obtain ⟨t, ht, rfl⟩ := hword
  exact hf t c' ht hc'

theorem runs_range_bind {f : Span → Reader β} {start stop : Nat} (h : sorted → start ≤ stop)
    (hf : Runs sorted size (f ⟨start, stop⟩) c R) :
    Runs sorted size (range start stop >>= f) c R := by
  by_cases hle : start ≤ stop
  · unfold Runs
    rwa [bind_done (range_of_le hle c)]
  · have hfault : range start stop = fault .reversedSpan := by simp [range, Span.between?, hle]
    rw [hfault]
    exact ⟨rfl, fun hs ↦ hle (h hs)⟩

theorem runs_join_bind {f : Span → Reader β} {s t : Span} (h : sorted → s.IsOrdered)
    (hf : Runs sorted size (f ⟨min s.start t.start, max s.stop t.stop⟩) c R) :
    Runs sorted size (join s t >>= f) c R := by
  refine runs_range_bind (fun hs ↦ ?_) hf
  have hle : s.start ≤ s.stop := h hs
  omega

theorem steps_skipSemicolons (c : Cursor) :
    c.Steps (Cursor.skipSemicolons c.lastStop c.tokens) := by
  obtain ⟨tokens, last⟩ := c
  induction tokens generalizing last with
  | nil => exact .refl
  | cons t rest ih =>
    rw [Cursor.skipSemicolons]
    split
    · exact Cursor.takes_mk.steps.trans (ih t.span.stop)
    · exact .refl

theorem head?_skipSemicolons (stop : Nat) (ts : List Token) :
    ∀ t ∈ (Cursor.skipSemicolons stop ts).tokens.head?, t.kind ≠ .semicolon := by
  induction ts generalizing stop with
  | nil => nofun
  | cons t rest ih =>
    rw [Cursor.skipSemicolons]
    split
    · exact ih t.span.stop
    · rintro _ ⟨⟩
      assumption

theorem runs_skipSemicolons : Runs sorted size skipSemicolons c fun _ c' ↦
    ∀ t ∈ c'.tokens.head?, t.kind ≠ .semicolon :=
  ⟨steps_skipSemicolons c, head?_skipSemicolons c.lastStop c.tokens⟩

theorem steps_resume (c : Cursor) (depth : Nat) :
    c.Steps (Cursor.resume depth c.lastStop c.tokens) := by
  obtain ⟨tokens, last⟩ := c
  induction tokens generalizing last depth with
  | nil => exact .refl
  | cons t rest ih =>
    have hfurther (depth : Nat) :
      Cursor.Steps ⟨t :: rest, last⟩ (Cursor.resume depth t.span.stop rest) :=
      Cursor.takes_mk.steps.trans (ih depth t.span.stop)
    rw [Cursor.resume]
    split
    · exact hfurther _
    split
    · exact hfurther _
    split
    · exact Cursor.takes_mk.steps
    split
    · exact .refl
    · exact hfurther _

theorem passes_resume (c : Cursor) (depth : Nat) (h : c.isAt .eof = false) :
    c.Passes (Cursor.resume depth c.lastStop c.tokens) := by
  obtain ⟨tokens, last⟩ := c
  cases tokens with
  | nil => cases h
  | cons t rest =>
    have hkind : t.kind ≠ .eof := by simpa [Cursor.isAt] using h
    have hfurther (depth : Nat) :
        Cursor.Passes ⟨t :: rest, last⟩ (Cursor.resume depth t.span.stop rest) :=
      Cursor.takes_mk.passes.trans_steps (steps_resume ⟨rest, t.span.stop⟩ depth)
    rw [Cursor.resume]
    split
    · exact hfurther _
    split
    · exact hfurther _
    split
    · exact Cursor.takes_mk.passes
    · exact hfurther _

theorem runs_resume : Runs sorted size resume c fun _ c' ↦ c.isAt .eof = false → c.Passes c' :=
  ⟨steps_resume c 0, passes_resume c 0⟩

theorem runs_terminator (hc : sorted → c.IsOrderly size) (what : String) :
    Runs sorted size (terminator what) c fun _ _ ↦ True := by
  refine runs_eat_bind hc (fun _ _ _ _ _ ↦ .pure trivial) (runs_cursor_bind ?_)
  split
  · exact .pure trivial
  · exact runs_reject hc _

end Primitives

end Reader

end Understudy
