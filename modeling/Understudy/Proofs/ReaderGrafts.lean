import Understudy.Proofs.ReaderRounds

namespace Understudy

namespace Cursor

variable (s : Token) (r z : List Token)

/-- The tokens behind `s`, which are `r`, replaced by `z`; a cursor behind `s` stays as it is. -/
def graft (c : Cursor) : Cursor :=
  if s :: r <:+ c.tokens then ⟨c.tokens.take (c.tokens.length - r.length) ++ z, c.lastStop⟩ else c

variable {s r z} {c d : Cursor}

theorem graft_append (u : List Token) (last : Nat) :
    graft s r z ⟨u ++ s :: r, last⟩ = ⟨u ++ s :: z, last⟩ := by
  have hlen : (u ++ s :: r).length - r.length = (u ++ [s]).length := by
    simp only [List.length_append, List.length_cons, List.length_nil]
    omega
  have htake : (u ++ s :: r).take (u ++ [s]).length = u ++ [s] := by
    rw [List.append_cons u s r, List.take_left]
  rw [graft, if_pos (List.suffix_append _ _), hlen, htake, List.append_assoc, List.singleton_append]

theorem graft_of_suffix (h : s :: r <:+ c.tokens) :
    ∃ u, c.tokens = u ++ s :: r ∧ graft s r z c = ⟨u ++ s :: z, c.lastStop⟩ := by
  obtain ⟨u, hu⟩ := h
  refine ⟨u, hu.symm, ?_⟩
  rw [← graft_append u, hu]

theorem graft_of_not_suffix (h : ¬s :: r <:+ c.tokens) : graft s r z c = c := if_neg h

theorem head?_graft (c : Cursor) : (graft s r z c).tokens.head? = c.tokens.head? := by
  by_cases h : s :: r <:+ c.tokens
  · obtain ⟨u, hc, hgraft⟩ := graft_of_suffix (z := z) h
    rw [hgraft, hc]
    cases u <;> rfl
  · rw [graft_of_not_suffix h]

theorem span?_graft (c : Cursor) : (graft s r z c).span? = c.span? := by
  rw [Cursor.span?, head?_graft, Cursor.span?]

theorem following?_graft (hs : s.kind = .semicolon) (hc : c.isAt .ident = true) :
    (graft s r z c).following? = c.following? := by
  by_cases h : s :: r <:+ c.tokens
  · obtain ⟨u, hu, hgraft⟩ := graft_of_suffix (z := z) h
    rw [hgraft, Cursor.following?, Cursor.following?, hu]
    rw [Cursor.isAt, hu] at hc
    cases u with
    | nil => simp [hs] at hc
    | cons t u => cases u <;> rfl
  · rw [graft_of_not_suffix h]

theorem lastStop_graft (c : Cursor) : (graft s r z c).lastStop = c.lastStop := by
  by_cases h : s :: r <:+ c.tokens
  · obtain ⟨u, -, hgraft⟩ := graft_of_suffix (z := z) h
    rw [hgraft]
  · rw [graft_of_not_suffix h]

theorem Steps.suffix (h : c.Steps d) : d.tokens <:+ c.tokens := by
  obtain ⟨text, htext⟩ := h.exists_tokens
  exact ⟨text, htext.symm⟩

theorem Takes.graft {t : Token} (h : c.Takes t d) (hd : s :: r <:+ d.tokens) :
    (c.graft s r z).Takes t (d.graft s r z) := by
  obtain ⟨u, hu, hgraft⟩ := graft_of_suffix (z := z) hd
  obtain ⟨tokens, last⟩ := c
  obtain rfl : tokens = (t :: u) ++ s :: r := h.tokens.trans (congrArg (t :: ·) hu)
  rw [graft_append, hgraft]
  exact ⟨rfl, h.lastStop⟩

end Cursor

namespace Reader

variable {α β : Type} {s : Token} {r z : List Token} {c d : Cursor}

/-- What `p` replies at `c` in front of the semicolon `s`, the reader `q` replies on the grafted
tokens. -/
def Replays (s : Token) (r z : List Token) (c : Cursor) (p q : Reader α) : Prop :=
  match p c with
  | .done a d => c.Steps d ∧ (s :: r <:+ d.tokens → q (c.graft s r z) = .done a (d.graft s r z))
  | .rejected problem d =>
    c.Steps d ∧ (s :: r <:+ d.tokens → q (c.graft s r z) = .rejected problem (d.graft s r z))
  | .fault _ => True

section Primitives

variable {p q : Reader α} {kind : TokenKind}

theorem Replays.bind {f g : α → Reader β} (h : Replays s r z c p q)
    (hf : ∀ a d, Replays s r z d (f a) (g a)) : Replays s r z c (p >>= f) (q >>= g) := by
  unfold Replays at h ⊢
  rw [bind_apply, bind_apply]
  cases hp : p c with
  | fault => trivial
  | rejected problem d =>
    rw [hp] at h
    exact ⟨h.1, fun hd ↦ by rw [h.2 hd]⟩
  | done a d =>
    rw [hp] at h
    have hfd := hf a d
    unfold Replays at hfd
    dsimp only
    cases hfa : f a d with
    | fault => trivial
    | rejected problem e =>
      rw [hfa] at hfd
      refine ⟨h.1.trans hfd.1, fun he ↦ ?_⟩
      rw [h.2 (he.trans hfd.1.suffix)]
      exact hfd.2 he
    | done b e =>
      rw [hfa] at hfd
      refine ⟨h.1.trans hfd.1, fun he ↦ ?_⟩
      rw [h.2 (he.trans hfd.1.suffix)]
      exact hfd.2 he

theorem Replays.ite {b : Bool} {p' q' : Reader α} (h : Replays s r z c p q)
    (h' : Replays s r z c p' q') : Replays s r z c (if b then p else p') (if b then q else q') := by
  cases b
  · exact h'
  · exact h

theorem Replays.attempt (h : Replays s r z c p q) : Replays s r z c (attempt p) (attempt q) := by
  unfold Replays at h ⊢
  unfold Reader.attempt
  cases hp : p c with
  | fault => trivial
  | rejected problem d =>
    rw [hp] at h
    exact ⟨h.1, fun hd ↦ by rw [h.2 hd]⟩
  | done a d =>
    rw [hp] at h
    exact ⟨h.1, fun hd ↦ by rw [h.2 hd]⟩

theorem eat_of_takes {t : Token} (h : c.Takes t d) (hkind : t.kind = kind) :
    eat kind c = .done true d := by
  obtain ⟨tokens, last⟩ := c
  obtain ⟨tokens', last'⟩ := d
  obtain rfl : tokens = t :: tokens' := h.tokens
  obtain rfl : last' = t.span.stop := h.lastStop
  exact eat_cons hkind

theorem eat_of_ne (h : ∀ t ∈ c.tokens.head?, t.kind ≠ kind) : eat kind c = .done false c := by
  obtain ⟨tokens, last⟩ := c
  exact eat_of_head? h

theorem expect_of_ne {message : String} (h : ∀ t ∈ c.tokens.head?, t.kind ≠ kind) :
    expect kind message c = .rejected (.error message c.span?) c := by
  obtain ⟨tokens, last⟩ := c
  cases tokens with
  | nil => rfl
  | cons t rest => exact if_neg (h t rfl)

theorem eat_cases (c : Cursor) (kind : TokenKind) :
    (∃ t d, c.Takes t d ∧ t.kind = kind) ∨ ∀ t ∈ c.tokens.head?, t.kind ≠ kind := by
  obtain ⟨tokens, last⟩ := c
  cases tokens with
  | nil => exact .inr nofun
  | cons t rest =>
    by_cases h : t.kind = kind
    · exact .inl ⟨t, _, Cursor.takes_mk, h⟩
    · refine .inr ?_
      rintro _ ⟨⟩
      exact h

theorem replays_eat (c : Cursor) (kind : TokenKind) : Replays s r z c (eat kind) (eat kind) := by
  unfold Replays
  obtain ⟨t, d, ht, hkind⟩ | hne := eat_cases c kind
  · rw [eat_of_takes ht hkind]
    exact ⟨ht.steps, fun hd ↦ eat_of_takes (ht.graft hd) hkind⟩
  · rw [eat_of_ne hne]
    exact ⟨.refl, fun _ ↦ eat_of_ne (by rwa [Cursor.head?_graft])⟩

theorem replays_expect (c : Cursor) (kind : TokenKind) (message : String) :
    Replays s r z c (expect kind message) (expect kind message) := by
  unfold Replays
  obtain ⟨t, d, ht, hkind⟩ | hne := eat_cases c kind
  · rw [expect_eq_done.2 ⟨ht, hkind⟩]
    exact ⟨ht.steps, fun hd ↦ expect_eq_done.2 ⟨ht.graft hd, hkind⟩⟩
  · rw [expect_of_ne hne, ← Cursor.span?_graft]
    exact ⟨.refl, fun _ ↦ expect_of_ne (by rwa [Cursor.head?_graft])⟩

theorem replays_skipSemicolons (hs : s.kind = .semicolon) (c : Cursor) :
    Replays s r z c skipSemicolons skipSemicolons := by
  refine ⟨steps_skipSemicolons c, fun hd ↦ ?_⟩
  have hc := hd.trans (steps_skipSemicolons c).suffix
  obtain ⟨tokens, last⟩ := c
  obtain ⟨u, rfl⟩ := hc
  rw [Cursor.graft_append, skipSemicolons]
  dsimp only at hd ⊢
  refine congrArg _ ?_
  induction u generalizing last with
  | nil =>
    rw [List.nil_append, Cursor.skipSemicolons, if_pos hs] at hd
    have hlen := (hd.trans (steps_skipSemicolons ⟨r, s.span.stop⟩).suffix).length_le
    exact absurd hlen (Nat.not_succ_le_self _)
  | cons t u ih =>
    rw [List.cons_append, List.cons_append, Cursor.skipSemicolons, Cursor.skipSemicolons] at *
    split
    · rename_i ht
      rw [if_pos ht] at hd
      exact ih _ hd
    · exact (Cursor.graft_append (t :: u) last).symm

theorem walks_replays (hs : s.kind = .semicolon) :
    Walks (fun _ c p q ↦ Replays s r z c p q) (Cursor.graft s r z) where
  head? := Cursor.head?_graft
  following? _ := Cursor.following?_graft hs
  lastStop := Cursor.lastStop_graft
  pure _ _ := ⟨.refl, fun _ ↦ rfl⟩
  bind := .bind
  cursor h := h
  attempt := .attempt
  fault _ _ := trivial
  reject c message := ⟨.refl, fun _ ↦ by rw [reject, Cursor.span?_graft]⟩
  rejected _ _ := ⟨.refl, fun _ ↦ rfl⟩
  eat := replays_eat
  expect := replays_expect
  skipSemicolons := replays_skipSemicolons hs

end Primitives

section Types

variable {p : Reader TypeExpr}

/-- The first rounds of a loop are replayed by the whole recursion if one round is. -/
theorem replays_loop {loop : Nat → Reader α} {round round' : Reader α → Reader α} {whole : Reader α}
    (hzero : loop 0 = fault .exhausted) (hsucc : ∀ n, loop (n + 1) = round (loop n))
    (hwhole : whole = round' whole)
    (hround : ∀ {p : Reader α}, (∀ c, Replays s r z c p whole) → ∀ c,
      Replays s r z c (round p) (round' whole)) (n : Nat) (c : Cursor) :
    Replays s r z c (loop n) whole := by
  induction n generalizing c with
  | zero =>
    rw [hzero]
    trivial
  | succ n ih =>
    rw [hsucc, hwhole]
    exact hround ih c

theorem replays_fieldNames (hs : s.kind = .semicolon) (c : Cursor) :
    Replays s r z c (bounded fieldNames) (bounded fieldNames) :=
  replays_loop unrolls_names.zero unrolls_names.succ unrolls_names.unfolds
    (walks_replays hs).nameRound _ c

theorem nests_replays (hs : s.kind = .semicolon) (hp : ∀ c, Replays s r z c p type) :
    Walks.Nests (fun _ c p q ↦ Replays s r z c p q) p type := by
  have hwalks := walks_replays (r := r) (z := z) hs
  have hparams (c : Cursor) :
      Replays s r z c (bounded (paramEntries p)) (bounded (paramEntries type)) :=
    replays_loop rfl (fun _ ↦ rfl) unrolls_params.unfolds (hwalks.paramRound hp) _ c
  refine ⟨hp, hparams, fun c ↦ ?_, fun c ↦ ?_⟩
  · exact replays_loop rfl (fun _ ↦ rfl) unrolls_elements.unfolds
      (hwalks.bodyRound fun c ↦ hwalks.map (hwalks.element hp hparams c) _) _ c
  · exact replays_loop rfl (fun _ ↦ rfl) unrolls_fields.unfolds
      (hwalks.bodyRound (hwalks.fieldGroup hp (replays_fieldNames hs))) _ c

theorem replays_typeWithin (hs : s.kind = .semicolon) (n : Nat) (c : Cursor) :
    Replays s r z c (typeWithin n) type :=
  replays_loop rfl (fun _ ↦ rfl) unrolls_types.unfolds
    (fun hp ↦ (walks_replays hs).typeOver (nests_replays hs hp)) n c

theorem replays_type (hs : s.kind = .semicolon) (c : Cursor) : Replays s r z c type type :=
  replays_typeWithin hs _ c

end Types

end Reader

/-- Between the cursors tokens are taken, and the last of them is no semicolon. -/
def Cursor.Closes (c d : Cursor) : Prop := ∃ c₁ t, c.Steps c₁ ∧ c₁.Takes t d ∧ t.kind ≠ .semicolon

theorem Cursor.Closes.steps {c d : Cursor} (h : c.Closes d) : c.Steps d := by
  obtain ⟨c₁, t, hsteps, ht, -⟩ := h
  exact hsteps.trans ht.steps

theorem Cursor.Closes.of_steps {c c₁ d : Cursor} (h : c.Steps c₁) (hd : c₁.Closes d) :
    c.Closes d := by
  obtain ⟨c₂, t, hsteps, ht, hkind⟩ := hd
  exact ⟨c₂, t, h.trans hsteps, ht, hkind⟩

namespace Reader

section Closes

variable {α β : Type} {s : Token} {r z : List Token} {p : Reader α}

/-- A reader whose last token is never a semicolon. -/
def Closes (p : Reader α) : Prop := ∀ c a d, p c = .done a d → c.Closes d

def IsStill (p : Reader α) : Prop := ∀ c a d, p c = .done a d → d = c

theorem Closes.bind {f : α → Reader β} (hp : MovesOn p) (hf : ∀ a, Closes (f a)) :
    Closes (p >>= f) := by
  intro c b d h
  obtain ⟨a, c₁, ha, hb⟩ := bind_eq_done.1 h
  exact .of_steps (hp ha) (hf a c₁ b d hb)

theorem Closes.bind_still {f : α → Reader β} (hp : Closes p) (hf : ∀ a, IsStill (f a)) :
    Closes (p >>= f) := by
  intro c b d h
  obtain ⟨a, c₁, ha, hb⟩ := bind_eq_done.1 h
  rw [hf a c₁ b d hb]
  exact hp c a c₁ ha

theorem isStill_pure (a : α) : IsStill (pure a : Reader α) := by
  rintro c _ _ ⟨⟩
  rfl

theorem isStill_range (start stop : Nat) (f : Span → α) :
IsStill (do let s ← range start stop; return f s) := by
  intro c a d h
  obtain ⟨u, c₁, hu, h⟩ := bind_eq_done.1 h
  cases h
  exact (range_eq_done hu).2

theorem closes_expect {kind : TokenKind} (hkind : kind ≠ .semicolon) (message : String) :
    Closes (expect kind message) := by
  intro c t d h
  obtain ⟨ht, rfl⟩ := expect_eq_done.1 h
  exact ⟨c, t, .refl, ht, hkind⟩

theorem closes_ident (message : String) : Closes (ident message) :=
  (closes_expect (by decide) message).bind_still fun _ ↦ isStill_pure _

theorem movesOn_expect (kind : TokenKind) (message : String) : MovesOn (expect kind message) :=
  expect_steps

theorem Closes.movesOn (h : Closes p) : MovesOn p := fun hp ↦ (h _ _ _ hp).steps

theorem movesOn_map (hp : MovesOn p) (f : α → β) : MovesOn (f <$> p) := by
  intro c b d h
  obtain ⟨a, ha, -⟩ := map_eq_done.1 h
  exact hp ha

theorem IsStill.bind {f : α → Reader β} (hp : IsStill p) (hf : ∀ a, IsStill (f a)) :
    IsStill (p >>= f) := by
  intro c b d h
  obtain ⟨a, c₁, ha, hb⟩ := bind_eq_done.1 h
  rw [hf a c₁ b d hb, hp c a c₁ ha]

theorem IsStill.movesOn (h : IsStill p) : MovesOn p := by
  intro c a d hp
  rw [h c a d hp]

theorem movesOn_of_replays {q : Reader α} (h : ∀ c, Replays s r z c p q) : MovesOn p := by
  intro c a d hp
  have hreplays := h c
  rw [Replays, hp] at hreplays
  exact hreplays.1

theorem Closes.ite {b : Bool} {p' : Reader α} (hp : Closes p) (hp' : Closes p') :
    Closes (if b then p else p') := by
  cases b
  · exact hp'
  · exact hp

theorem Closes.cursor_bind {f : Cursor → Reader β} (h : ∀ c, Closes (f c)) :
    Closes (cursor >>= f) :=
  fun c _ _ hf ↦ h c _ _ _ hf

end Closes

section Types

variable {s : Token} {r z : List Token} {p : Reader TypeExpr}

theorem closes_params (hn : Walks.Nests (fun _ c p q ↦ Replays s r z c p q) p type) :
    Closes (params p) := by
  refine .bind (movesOn_expect _ _) fun _ ↦ .bind (movesOn_of_replays hn.params) fun entries ↦ ?_
  refine (closes_expect (by decide) _).bind_still fun _ ↦ ?_
  split
  · exact isStill_pure _
  · exact fun _ _ _ h ↦ nomatch h

theorem closes_signature (hn : Walks.Nests (fun _ c p q ↦ Replays s r z c p q) p type)
    (hp : Closes p) : Closes (signature p) := by
  intro c sig d h
  obtain ⟨c₁, hparams, hresults, -⟩ := signature_eq_done h
  obtain ⟨inputs, outputs, s⟩ := sig
  have hclosed := closes_params hn _ _ _ hparams
  cases hresults with
  | list hlist => exact .of_steps hclosed.steps (closes_params hn _ _ _ hlist)
  | single _ htype => exact .of_steps hclosed.steps (hp _ _ _ htype)
  | empty hend => exact hend ▸ hclosed

theorem BracesRead.closes {α : Type} {word : TokenKind} {body : Reader α} {c d : Cursor} {a : α}
    {u : Span} (h : BracesRead word body c d a u) (hbody : MovesOn body) : c.Closes d := by
  cases h with
  | mk ht hb ha hd =>
    exact ⟨_, _, ht.1.steps.trans (hb.1.steps.trans (hbody ha)), hd.1, by rw [hd.2]; nofun⟩

theorem closes_typeOver (hn : Walks.Nests (fun _ c p q ↦ Replays s r z c p q) p type)
    (hp : Closes p) : Closes (typeOver p) := by
  intro c e d h
  cases typeRead_of_typeOver h with
  | name hname =>
    cases hname with
    | bare ht => exact ⟨_, _, .refl, ht.1, by rw [ht.2]; nofun⟩
    | qualified ht hdot hi => exact ⟨_, _, ht.1.steps.trans hdot.1.steps, hi.1, by rw [hi.2]; nofun⟩
  | pointer ht helem | chan ht _ helem => exact .of_steps ht.1.steps (hp _ _ _ helem)
  | slice ht hb helem | send ht hb helem | recv ht hb helem =>
    exact .of_steps (ht.1.steps.trans hb.1.steps) (hp _ _ _ helem)
  | array ht hn _ hb helem =>
    exact .of_steps (ht.1.steps.trans (hn.1.steps.trans hb.1.steps)) (hp _ _ _ helem)
  | map ht hb hkey hd helem =>
    have hsteps := (hp _ _ _ hkey).steps.trans hd.1.steps
    exact .of_steps (ht.1.steps.trans (hb.1.steps.trans hsteps)) (hp _ _ _ helem)
  | func ht helem => exact .of_steps ht.1.steps (closes_signature hn hp _ _ _ helem)
  | interface hbraces => exact hbraces.closes (movesOn_of_replays hn.elements)
  | struct hbraces => exact hbraces.closes (movesOn_of_replays hn.fields)
  | parens ht helem hb =>
    exact ⟨_, _, ht.1.steps.trans (hp _ _ _ helem).steps, hb.1, by rw [hb.2]; nofun⟩

theorem closes_type : Closes type := by
  have hclose (n : Nat) : Closes (typeWithin n) := by
    induction n with
    | zero => exact fun _ _ _ h ↦ nomatch h
    | succ n ih =>
      let s : Token := ⟨.semicolon, ⟨0, 0⟩, ""⟩
      exact closes_typeOver
        (nests_replays (s := s) (r := []) (z := []) rfl (replays_typeWithin rfl n)) ih
  exact fun c e d h ↦ hclose _ c e d h

end Types

end Reader

end Understudy
