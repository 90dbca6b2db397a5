import Understudy.Proofs.SpacedTexts

namespace Understudy

namespace Piece

/-- A comment goes to the end of its line, or else to the first mark that closes it. -/
inductive IsComment : List Char → List Char → Prop
  | line {text rest : List Char} (htext : '\n' ∉ text) (hrest : ∀ c ∈ rest.head?, c = '\n') :
      IsComment ('/' :: '/' :: text) rest
  | block {text rest : List Char} (htext : ¬['*', '/'] <:+: text ++ ['*']) :
      IsComment ('/' :: '*' :: (text ++ ['*', '/'])) rest

/-- Does a token start with this character, if `rest` stands behind it? -/
def startsToken (c : Char) (rest : List Char) : Bool :=
  startsWord c || c.isDigit || ['"', '\x60', '(', ')', '\x7b', '\x7d', '[', ']', ',', ';',
    '.', '*'].contains c
    || c == '<' && rest.head? == some '-'

/-- The texts that a piece of each shape may have in front of `rest`. -/
inductive HasForm : Shape → List Char → List Char → Prop
  | newline {rest : List Char} : HasForm .newline ['\n'] rest
  | blank {c : Char} {rest : List Char} (hc : isBlank c = true) : HasForm .blank [c] rest
  | comment {text rest : List Char} (h : IsComment text rest) : HasForm .comment text rest
  | word {c : Char} {tail rest : List Char} (hc : startsWord c = true) :
      HasForm (.token (.ofWord (.ofList (c :: tail)))) (c :: tail) rest
  | number {c : Char} {tail rest : List Char} (hc : c.isDigit = true) :
      HasForm (.token .int) (c :: tail) rest
  | literal {c : Char} {tail rest : List Char} (hc : c = '"' ∨ c = '\x60') :
      HasForm (.token .str) (c :: tail) rest
  | mark {c : Char} {tail rest : List Char} {kind : TokenKind}
      (h : mark? c (tail ++ rest) = some (kind, tail.length)) :
      HasForm (.token kind) (c :: tail) rest
  | openLiteral {c : Char} {tail rest : List Char} (hc : c = '"' ∨ c = '\x60') :
      HasForm .openString (c :: tail) rest
  | openComment {tail rest : List Char} : HasForm .openComment ('/' :: '*' :: tail) rest
  | unknown {c : Char} {rest : List Char} (hspace : isSpace c = false)
      (htoken : startsToken c rest = false) : HasForm .unknown [c] rest

section Forms

variable {c : Char} {text tail rest : List Char} {shape : Shape} {kind : TokenKind}

theorem take_blockTail {n : Nat} (h : blockTail text = (true, n)) :
    ∃ body, text.take n = body ++ ['*', '/'] ∧ ¬['*', '/'] <:+: body ++ ['*'] := by
  fun_induction blockTail text generalizing n with
  | case1 => cases h
  | case2 =>
    cases h
    exact ⟨[], rfl, by decide⟩
  | case3 x text hend closed k hk ih =>
    cases h
    obtain ⟨body, hbody, hfirst⟩ := ih hk
    refine ⟨x :: body, by simp [hbody], fun hinfix ↦ ?_⟩
    rcases List.infix_cons_iff.1 hinfix with ⟨later, hmark⟩ | hinfix
    · cases body with
      | nil => simp at hmark
      | cons y body =>
        -- A closing mark that begins with `x` would have ended the comment there.
        obtain ⟨rfl, rfl, -⟩ : '*' = x ∧ '/' = y ∧ later = body ++ ['*'] := by simpa using hmark
        cases text with
        | nil => simp at hbody
        | cons z text =>
          cases k with
          | zero => simp at hbody
          | succ k =>
            obtain ⟨rfl, -⟩ : z = '/' ∧ text.take k = body ++ ['*', '/'] := by simpa using hbody
            exact hend text rfl rfl
    · exact hfirst hinfix

theorem isComment_line
    (h : (('/' :: tail ++ rest).takeWhile (· ≠ '\n')).length = ('/' :: tail).length) :
    IsComment ('/' :: '/' :: tail) rest := by
  obtain ⟨hline, hend⟩ := takeWhile_eq h
  refine .line (fun hmem ↦ ?_) fun x hx ↦ by simpa using hend x hx
  simpa using hline '\n' (List.mem_cons_of_mem _ hmem)

theorem isSome_mark?
    (h : ['(', ')', '\x7b', '\x7d', '[', ']', ',', ';', '.', '*'].contains c = true) :
    (mark? c rest).isSome = true := by
  rw [mark?_eq]
  split
  · rfl
  split
  · rfl
  simp only [List.contains_eq_mem, decide_eq_true_eq, List.mem_cons, List.not_mem_nil,
    or_false] at h
  rcases h with rfl | rfl | rfl | rfl | rfl | rfl | rfl | rfl | rfl | rfl <;> rfl

theorem startsToken_of_mark? (hword : startsWord c = false) (hdigit : c.isDigit = false)
    (hquote : c ≠ '"') (hraw : c ≠ '\x60') (hmark : mark? c rest = none) :
    startsToken c rest = false := by
  have harrow : (c == '<' && rest.head? == some '-') = false := by
    rw [Bool.and_eq_false_imp]
    intro hc
    obtain rfl := beq_iff_eq.1 hc
    cases hhead : rest.head? == some '-' with
    | false => rfl
    | true =>
      obtain ⟨later, rfl⟩ := List.head?_eq_some_iff.1 (beq_iff_eq.1 hhead)
      cases hmark
  have hcontains : ['(', ')', '\x7b', '\x7d', '[', ']', ',', ';', '.', '*'].contains c = false := by
    cases h : ['(', ')', '\x7b', '\x7d', '[', ']', ',', ';', '.', '*'].contains c with
    | false => rfl
    | true =>
      have hsome : (mark? c rest).isSome = true := isSome_mark? h
      simp [hmark] at hsome
  rw [startsToken, hword, hdigit, harrow, List.contains_cons, List.contains_cons, hcontains]
  simp [hquote, hraw]

theorem Extends.hasForm (h : Extends c (tail ++ rest) tail.length shape) :
    HasForm shape (c :: tail) rest := by
  cases h with
  | newline hc hn =>
    obtain rfl := List.eq_nil_of_length_eq_zero hn
    exact hc ▸ .newline
  | blank hc hn =>
    obtain rfl := List.eq_nil_of_length_eq_zero hn
    exact .blank hc
  | word hc _ hkind =>
    rw [List.take_left] at hkind
    exact hkind ▸ .word hc
  | number hc => exact .number hc
  | quoted hc => exact .literal (.inl hc)
  | raw hc => exact .literal (.inr hc)
  | openQuoted hc => exact .openLiteral (.inl hc)
  | openRaw hc => exact .openLiteral (.inr hc)
  | line hc hrest hn =>
    obtain ⟨later, rfl⟩ := exists_cons_of_line hrest hn
    rw [hc]
    exact .comment (isComment_line hn)
  | block hc hrest hk hn =>
    obtain ⟨later, rfl, rfl⟩ := exists_cons_of_block hrest hn
    obtain ⟨body, hbody, hfirst⟩ := take_blockTail hk
    rw [List.cons_append, List.tail_cons, List.take_left] at hbody
    rw [hc, hbody]
    exact .comment (.block hfirst)
  | openBlock hc hrest _ hn =>
    obtain ⟨later, rfl, -⟩ := exists_cons_of_block hrest hn
    exact hc ▸ .openComment
  | mark h => exact .mark h
  | unknown hspace hword hdigit hliteral _ _ hmark hn =>
    obtain rfl := List.eq_nil_of_length_eq_zero hn
    refine .unknown (by simp [isSpace, hspace.1, hspace.2]) ?_
    exact startsToken_of_mark? hword hdigit hliteral.1 hliteral.2 hmark

theorem kind_ne_eof_of_mark? {n : Nat} (h : mark? c rest = some (kind, n)) : kind ≠ .eof := by
  rintro rfl
  unfold mark? at h
  split at h <;> cases h

theorem TokenKind.ofWord_ne_eof (word : String) : TokenKind.ofWord word ≠ .eof := by
  unfold TokenKind.ofWord
  repeat' split
  all_goals nofun

theorem HasForm.text_ne_nil (h : HasForm shape text rest) : text ≠ [] := by
  cases h with
  | comment h => cases h <;> nofun
  | _ => nofun

theorem HasForm.kind_ne_eof (h : HasForm (.token kind) text rest) : kind ≠ .eof := by
  cases h with
  | word => exact TokenKind.ofWord_ne_eof _
  | number | literal => nofun
  | mark h => exact kind_ne_eof_of_mark? h

end Forms

section Places

variable {text : List Char} {before ps qs : List Piece} {p q : Piece} {pos size x : Nat}
    {last : Option TokenKind}

theorem exists_hasForm (h : before ++ [p] <+: pieces text) :
    ∃ rest, text = textOf before ++ (p.text ++ rest) ∧ HasForm p.shape p.text rest := by
  fun_induction pieces text generalizing before with
  | case1 => simp at h
  | case2 c tail shape n hextent ih =>
    cases before with
    | nil =>
      obtain rfl : p = ⟨shape, c :: tail.take n⟩ := by simpa using h
      refine ⟨tail.drop n, by simp, Extends.hasForm ?_⟩
      rw [List.take_append_drop, length_take_extent hextent]
      exact extent_eq_iff.1 hextent
    | cons q before =>
      obtain ⟨rfl, hlater⟩ := List.cons_prefix_cons.1 h
      split at hlater
      · simp at hlater
      · obtain ⟨rest, htext, hform⟩ := ih hlater
        refine ⟨rest, ?_, hform⟩
        rw [textOf_cons, List.cons_append, List.cons_append, List.append_assoc, ← htext,
          List.take_append_drop]

/-- Byte `x` from the start of some pieces belongs to `p`, which stands behind `before`. -/
structure HasByte (ps : List Piece) (x : Nat) (before : List Piece) (p : Piece) : Prop where
  cut : before ++ [p] <+: ps
  start_le : byteCount (textOf before) ≤ x
  lt_stop : x < byteCount (textOf before) + p.size

theorem HasByte.cons (h : HasByte ps x before p) :
    HasByte (q :: ps) (q.size + x) (q :: before) p where
  cut := (List.prefix_cons_inj q).2 h.cut
  start_le := by
    rw [textOf_cons, byteCount_append]
    exact Nat.add_le_add_left h.start_le _
  lt_stop := by
    rw [textOf_cons, byteCount_append, Nat.add_assoc]
    exact Nat.add_lt_add_left h.lt_stop _

theorem exists_hasByte (h : x < byteCount (textOf ps)) : ∃ before p, HasByte ps x before p := by
  induction ps generalizing x with
  | nil => exact absurd h (Nat.not_lt_zero x)
  | cons q ps ih =>
    rcases Nat.lt_or_ge x q.size with hlt | hle
    · exact ⟨[], q, ⟨ps, rfl⟩, Nat.zero_le x, by simpa [byteCount] using hlt⟩
    · obtain ⟨y, rfl⟩ := Nat.exists_eq_add_of_le hle
      rw [textOf_cons, byteCount_append] at h
      obtain ⟨before, p, hbyte⟩ := ih (Nat.lt_of_add_lt_add_left h)
      exact ⟨q :: before, p, hbyte.cons⟩

theorem HasByte.unique {before' : List Piece} (h : HasByte ps x before p)
    (h' : HasByte ps x before' q) : before = before' ∧ p = q := by
  have hshort : ∀ {xs ys : List Piece} {p q : Piece}, HasByte ps x xs p → HasByte ps x ys q →
      xs.length < ys.length → False := by
    intro xs ys p q hp hq hlt
    have hcut : xs ++ [p] <+: ys := by
      refine List.prefix_of_prefix_length_le hp.cut ((List.prefix_append ys [q]).trans hq.cut) ?_
      simpa [Nat.succ_le_iff] using hlt
    obtain ⟨later, rfl⟩ := hcut
    have hle := hq.start_le
    have hlt := hp.lt_stop
    simp only [textOf_append, textOf_cons, textOf_nil, List.append_nil, byteCount_append] at hle
    rw [Piece.size] at hlt
    omega
  have hlength : before.length = before'.length := by
    rcases Nat.lt_trichotomy before.length before'.length with hlt | heq | hlt
    · exact (hshort h h' hlt).elim
    · exact heq
    · exact (hshort h' h hlt).elim
  have heq : before ++ [p] = before' ++ [q] := by
    refine (List.prefix_of_prefix_length_le h.cut h'.cut ?_).eq_of_length ?_ <;> simp [hlength]
  obtain ⟨hbefore, hp⟩ := List.append_inj heq hlength
  exact ⟨hbefore, List.singleton_inj.1 hp⟩

theorem mem_tokens_of_cut {kind : TokenKind} (h : before ++ [⟨.token kind, text⟩] <+: ps) :
    ⟨kind, ⟨pos + byteCount (textOf before), pos + byteCount (textOf before) + byteCount text⟩,
      String.ofList text⟩ ∈ tokens size last pos ps := by
  induction before generalizing last pos ps with
  | nil =>
    obtain ⟨later, rfl⟩ := h
    exact List.mem_cons_self ..
  | cons q before ih =>
    cases ps with
    | nil => simp at h
    | cons p ps =>
      obtain ⟨rfl, hlater⟩ := List.cons_prefix_cons.1 h
      have hlater : ∀ last, _ ∈ tokens size last (pos + q.size) ps := fun last ↦ ih hlater
      rw [textOf_cons, byteCount_append, ← Nat.add_assoc, tokens]
      split
      · exact List.mem_cons_of_mem _ (hlater _)
      · split
        · exact List.mem_cons_of_mem _ (hlater _)
        · exact hlater _

theorem exists_tokens_eq (size pos : Nat) (last : Option TokenKind)
    (h : ∀ p ∈ ps, p.shape ≠ .token .eof) :
    ∃ ts, tokens size last pos ps = ts ++ [⟨.eof, ⟨size, size⟩, ""⟩] ∧ (∀ t ∈ ts, t.kind ≠ .eof) ∧
      ((ts.getLast?.map (·.kind)).or last).any TokenKind.completesLine = false := by
  induction ps generalizing last pos with
  | nil =>
    rw [tokens]
    split
    · exact ⟨[⟨.semicolon, ⟨size, size⟩, ""⟩], rfl, by simp, rfl⟩
    · rename_i hlast
      exact ⟨[], rfl, List.forall_mem_nil _, by simpa using hlast⟩
  | cons p ps ih =>
    obtain ⟨hp, hps⟩ := List.forall_mem_cons.1 h
    -- A token in front of the others is the last one only if there are no others.
    have hfront : ∀ (t : Token) (ts : List Token), t.kind ≠ .eof → (∀ u ∈ ts, u.kind ≠ .eof) →
        ((ts.getLast?.map (·.kind)).or (some t.kind)).any TokenKind.completesLine = false →
        (∀ u ∈ t :: ts, u.kind ≠ .eof) ∧
          (((t :: ts).getLast?.map (·.kind)).or last).any TokenKind.completesLine = false := by
      intro t ts ht hts hlast
      refine ⟨List.forall_mem_cons.2 ⟨ht, hts⟩, ?_⟩
      rw [List.getLast?_cons]
      cases hends : ts.getLast? <;> simpa [hends] using hlast
    rw [tokens]
    split
    · rename_i kind hkind
      obtain ⟨ts, hts, hall, hlast⟩ := ih (pos + p.size) (some kind) hps
      rw [hts]
      refine ⟨_ :: ts, rfl, hfront _ ts ?_ hall hlast⟩
      rintro rfl
      exact hp hkind
    · split
      · obtain ⟨ts, hts, hall, hlast⟩ := ih (pos + p.size) (some .semicolon) hps
        rw [hts]
        exact ⟨_ :: ts, rfl, hfront _ ts (by simp) hall hlast⟩
      · exact ih (pos + p.size) last hps

end Places

end Piece

end Understudy
