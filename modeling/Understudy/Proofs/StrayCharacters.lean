import Understudy.Proofs.PartitionedTexts

namespace Understudy

open Piece

/-- The byte `x` of a text is in a literal or comment that does not end, or behind it, where nothing
is read. -/
def IsCutOff (source : String) (x : Nat) : Prop :=
  ∃ before p, before ++ [p] <+: pieces source.toList ∧ p.shape.isOpen = true ∧
    byteCount (textOf before) ≤ x

/-- Behind `u` stands a character that is neither a blank or line end nor in a token, in a comment
or cut off. -/
structure IsStray (source : String) (u : List Char) (c : Char) (v : List Char) : Prop where
  text : source.toList = u ++ c :: v
  space : isSpace c = false
  token : ∀ t ∈ (lex source).tokens, ¬t.Holds (byteCount u)
  comment : ¬InComment source (byteCount u)
  read : ¬IsCutOff source (byteCount u)

def unknownToken (c : Char) (span : Span) : Diagnostic :=
  .error ("unknown token `" ++ String.singleton c ++ "`") (some span)

/-- A report on each byte of a character from byte `x` on, naming the character that has this byte
as its code. -/
def byteReports (x : Nat) (c : Char) : List Diagnostic :=
  (String.utf8EncodeChar c).mapIdx fun i b ↦ unknownToken (.ofNat b.toNat) ⟨x + i, x + i + 1⟩

def Diagnostic.meets (d : Diagnostic) (s : Span) : Bool :=
  d.span.any fun r ↦ r.start < s.stop && s.start < r.stop

theorem Diagnostic.meets_iff {d : Diagnostic} {r s : Span} (h : d.span = some r) :
    d.meets s = true ↔ r.start < s.stop ∧ s.start < r.stop := by
  simp [meets, h]

def reportsOn (source : String) (s : Span) : List Diagnostic :=
  (lex source).diagnostics.filter (·.meets s)

def charSpan (u : List Char) (c : Char) : Span := ⟨byteCount u, byteCount u + c.utf8Size⟩

/-- Reports go by characters: none begins or ends inside one, and a stray character has one report,
which covers and names it. -/
def ReportsCharacters (source : String) : Prop :=
  (∀ d ∈ (lex source).diagnostics, ∀ s ∈ d.span, s.OnCharacters source) ∧
  ∀ u c v, IsStray source u c v → reportsOn source (charSpan u c) = [unknownToken c (charSpan u c)]

section Characters

variable {source : String} {text u v w rest : List Char} {c d : Char}

theorem eq_of_within_char (hw : w ++ rest = text) (h : u ++ c :: v = text)
    (hle : byteCount u ≤ byteCount w) (hlt : byteCount w < byteCount u + c.utf8Size) : w = u := by
  rw [← h] at hw
  rcases List.append_eq_append_iff.1 hw with ⟨later, rfl, -⟩ | ⟨later, rfl, hlater⟩
  · rw [byteCount_append] at hle
    have hlater : byteCount later = 0 := by omega
    rw [eq_nil_of_byteCount hlater, List.append_nil]
  · cases later with
    | nil => exact List.append_nil u
    | cons x later =>
      obtain rfl : c = x := (List.cons.inj hlater).1
      rw [byteCount_append, byteCount] at hlt
      omega

theorem eq_zero_of_isValid (h : source.toList = u ++ c :: v) {i : Nat} (hi : i < c.utf8Size)
    (hvalid : (⟨byteCount u + i⟩ : String.Pos.Raw).IsValid source) : i = 0 := by
  obtain ⟨s₁, s₂, hs, hpos⟩ := String.Pos.Raw.isValid_iff_exists_append.1 hvalid
  have hbytes : byteCount s₁.toList = byteCount u + i := by
    rw [byteCount_eq, String.ofList_toList]
    exact (congrArg String.Pos.Raw.byteIdx hpos).symm
  have hsplit : s₁.toList ++ s₂.toList = source.toList := by rw [hs, String.toList_append]
  have heq := eq_of_within_char hsplit h.symm (by omega) (by omega)
  rw [heq] at hbytes
  omega

theorem byteReports_of_one_byte (h : c.toNat < 128) (x : Nat) :
    byteReports x c = [unknownToken c ⟨x, x + c.utf8Size⟩] := by
  have hone := utf8Size_eq_one_iff_toNat.2 h
  have hcode : c.val.toUInt8.toNat = c.toNat := by
    rw [UInt32.toNat_toUInt8]
    exact Nat.mod_eq_of_lt (Nat.lt_trans h (by decide))
  rw [byteReports, String.utf8EncodeChar_eq_singleton hone, hone, List.mapIdx_cons,
    List.mapIdx_nil, hcode, Char.ofNat_toNat]
  rfl

theorem exists_of_mem_byteReports {x : Nat} {r : Diagnostic} (h : r ∈ byteReports x c) :
    ∃ i < c.utf8Size, r.span = some ⟨x + i, x + i + 1⟩ := by
  obtain ⟨i, hi, rfl⟩ := List.mem_mapIdx.1 h
  exact ⟨i, by simpa using hi, rfl⟩

/-- The reports on a character keep off its inside only if it has one byte. -/
theorem lt_of_onCharacters (h : source.toList = u ++ c :: v) {r : Diagnostic}
    (hr : r ∈ byteReports (byteCount u) c) (hwhole : ∀ s ∈ r.span, s.OnCharacters source) :
    c.toNat < 128 := by
  obtain ⟨i, hi, hspan⟩ := exists_of_mem_byteReports hr
  obtain ⟨hstart, hstop⟩ := hwhole _ hspan
  obtain rfl := eq_zero_of_isValid h hi hstart
  have hnext : ¬1 < c.utf8Size := fun hlt ↦ absurd (eq_zero_of_isValid h hlt hstop) Nat.one_ne_zero
  have hpos := c.utf8Size_pos
  rw [← utf8Size_eq_one_iff_toNat]
  omega

end Characters

section Strays

variable {source : String} {text u v : List Char} {before : List Piece} {p : Piece} {c : Char}

theorem eq_of_isOpen (h : before ++ [p] <+: pieces text) (hp : p.shape.isOpen = true) :
    pieces text = before ++ [p] := by
  fun_induction pieces text generalizing before with
  | case1 => simp at h
  | case2 c tail shape n _ ih =>
    cases before with
    | nil =>
      obtain rfl : p = ⟨shape, c :: tail.take n⟩ := by simpa using h
      have hopen : shape.isOpen = true := hp
      simp [hopen]
    | cons q before =>
      obtain ⟨rfl, hlater⟩ := List.cons_prefix_cons.1 h
      split at hlater
      · simp at hlater
      · rename_i hopen
        rw [if_neg hopen, ih hlater, List.cons_append]

theorem hasByte_of_unknown (h : before ++ [⟨.unknown, [c]⟩] <+: pieces source.toList) :
    HasByte (pieces source.toList) (byteCount (textOf before)) before ⟨.unknown, [c]⟩ :=
  ⟨h, Nat.le_refl _, Nat.lt_add_of_pos_right (by simpa [size, byteCount] using c.utf8Size_pos)⟩

theorem lt_of_not_isCutOff (htext : source.toList = u ++ c :: v)
    (hread : ¬IsCutOff source (byteCount u)) :
    byteCount u < byteCount (textOf (pieces source.toList)) := by
  refine Nat.lt_of_not_le fun hle ↦ ?_
  have hsound : ∀ p ∈ pieces source.toList, p.shape.isOpen = false := by
    intro p hp
    obtain ⟨before, after, hps⟩ := List.append_of_mem hp
    have hcut : before ++ [p] <+: pieces source.toList := ⟨after, by simp [hps]⟩
    rw [Bool.eq_false_iff]
    intro hopen
    refine hread ⟨before, p, hcut, hopen, Nat.le_trans ?_ hle⟩
    rw [eq_of_isOpen hcut hopen, textOf_append, byteCount_append]
    exact Nat.le_add_right ..
  have hpos := c.utf8Size_pos
  rw [textOf, text_pieces_eq hsound, htext, byteCount_append, byteCount] at hle
  omega

theorem exists_of_isStray (h : IsStray source u c v) :
    ∃ before, textOf before = u ∧ before ++ [⟨.unknown, [c]⟩] <+: pieces source.toList := by
  obtain ⟨before, p, hbyte⟩ := exists_hasByte (lt_of_not_isCutOff h.text h.read)
  obtain ⟨rest, htext, hform⟩ := exists_hasForm hbyte.cut
  have hstart := hbyte.start_le
  have hstop := hbyte.lt_stop
  have hsingle : ∀ x, p.text = [x] → textOf before = u ∧ x = c := by
    intro x hx
    rw [size, hx, byteCount, byteCount, Nat.add_zero] at hstop
    rw [hx, List.singleton_append] at htext
    have hu : u = textOf before := eq_of_within_char h.text.symm htext.symm hstart hstop
    rw [h.text, hu] at htext
    exact ⟨hu.symm, (List.cons.inj (List.append_cancel_left htext)).1.symm⟩
  obtain ⟨shape, text⟩ := p
  cases hform with
  | newline =>
    obtain rfl := (hsingle _ rfl).2
    cases h.space
  | blank hc =>
    obtain rfl := (hsingle _ rfl).2
    exact absurd h.space (by simp [isSpace, hc])
  | comment hcomment => exact absurd ⟨before, text, rest, hbyte, htext, hcomment⟩ h.comment
  | openLiteral | openComment => exact absurd ⟨before, _, hbyte.cut, rfl, hstart⟩ h.read
  | unknown =>
    obtain ⟨hu, rfl⟩ := hsingle _ rfl
    exact ⟨before, hu, hbyte.cut⟩
  | _ => exact absurd ⟨hstart, hstop⟩ (h.token _ (mem_lex hbyte.cut))

theorem isStray_of_cut (h : before ++ [⟨.unknown, [c]⟩] <+: pieces source.toList)
    (htext : source.toList = textOf before ++ c :: v) : IsStray source (textOf before) c v where
  text := htext
  space := by
    obtain ⟨rest, -, hform⟩ := exists_hasForm h
    cases hform
    assumption
  token t ht hholds := by
    cases gives_lex ht with
    | lexeme hcut hx =>
      rw [Nat.zero_add] at hx
      subst hx
      cases ((hasByte_of_unknown h).unique ⟨hcut, hholds.1, hholds.2⟩).2
    | _ => exact absurd hholds.2 (Nat.not_lt.2 hholds.1)
  comment := by
    rintro ⟨before', text, rest, hbyte, -, -⟩
    cases ((hasByte_of_unknown h).unique hbyte).2
  read := by
    rintro ⟨before', p, hcut, hopen, hle⟩
    rw [eq_of_isOpen hcut hopen] at h
    rcases List.prefix_concat_iff.1 h with heq | ⟨later, rfl⟩
    · obtain ⟨-, hp⟩ := List.append_inj' heq rfl
      cases hp
      cases hopen
    · have hpos := c.utf8Size_pos
      simp only [textOf_append, textOf_cons, textOf_nil, List.append_nil, byteCount_append,
        byteCount] at hle
      omega

theorem isStray_iff : IsStray source u c v ↔ source.toList = u ++ c :: v ∧
    ∃ before, textOf before = u ∧ before ++ [⟨.unknown, [c]⟩] <+: pieces source.toList := by
  constructor
  · exact fun h ↦ ⟨h.text, exists_of_isStray h⟩
  · rintro ⟨htext, before, rfl, hcut⟩
    exact isStray_of_cut hcut htext

end Strays

section Reports

variable {source : String} {u v : List Char} {before ps : List Piece} {p : Piece} {c : Char}
    {pos : Nat} {d : Diagnostic}

theorem unknownBytes_eq (pos : Nat) (bytes : List UInt8) :
    unknownBytes pos bytes = bytes.mapIdx fun i b ↦ unknownToken (.ofNat b.toNat)
      ⟨pos + i, pos + i + 1⟩ := by
  induction bytes generalizing pos with
  | nil => rfl
  | cons b bytes ih =>
    have hnext : ∀ i, pos + 1 + i = pos + (i + 1) := fun i ↦ by omega
    rw [unknownBytes, ih, List.mapIdx_cons]
    simp only [hnext]
    rfl

theorem problems_unknown (c : Char) (pos : Nat) :
    problems pos ⟨.unknown, [c]⟩ = byteReports pos c := by
  rw [byteReports, ← unknownBytes_eq]
  simp [problems]

theorem exists_span_problems (h : d ∈ p.problems pos) :
    ∃ s, d.span = some s ∧ pos ≤ s.start ∧ s.stop ≤ pos + p.size := by
  unfold problems at h
  split at h
  · rw [unknownBytes_eq] at h
    obtain ⟨i, hi, rfl⟩ := List.mem_mapIdx.1 h
    rw [length_flatMap_utf8EncodeChar] at hi
    exact ⟨_, rfl, Nat.le_add_right .., Nat.add_le_add_left hi pos⟩
  · rw [List.mem_singleton.1 h]
    exact ⟨_, rfl, Nat.le_refl _, Nat.le_refl _⟩
  · rw [List.mem_singleton.1 h]
    exact ⟨_, rfl, Nat.le_refl _, Nat.le_refl _⟩
  · cases h

theorem diagnostics_append (pos : Nat) (ps qs : List Piece) :
    diagnostics pos (ps ++ qs) = diagnostics pos ps ++ diagnostics
      (pos + byteCount (textOf ps)) qs := by
  induction ps generalizing pos with
  | nil => rfl
  | cons p ps ih =>
    rw [List.cons_append, diagnostics, diagnostics, ih, List.append_assoc, textOf_cons,
      byteCount_append, Nat.add_assoc]
    rfl

theorem exists_cut_of_mem (h : d ∈ diagnostics pos ps) :
    ∃ before p, before ++ [p] <+: ps ∧ d ∈ p.problems (pos + byteCount (textOf before)) := by
  induction ps generalizing pos with
  | nil => cases h
  | cons q ps ih =>
    rcases List.mem_append.1 h with h | h
    · exact ⟨[], q, ⟨ps, rfl⟩, h⟩
    · obtain ⟨before, p, hcut, hp⟩ := ih h
      refine ⟨q :: before, p, (List.prefix_cons_inj q).2 hcut, ?_⟩
      rwa [textOf_cons, byteCount_append, ← Nat.add_assoc]

theorem exists_span (h : d ∈ diagnostics pos ps) :
    ∃ s, d.span = some s ∧ pos ≤ s.start ∧ s.stop ≤ pos + byteCount (textOf ps) := by
  obtain ⟨before, p, ⟨after, rfl⟩, hp⟩ := exists_cut_of_mem h
  obtain ⟨s, hs, hstart, hstop⟩ := exists_span_problems hp
  refine ⟨s, hs, by omega, ?_⟩
  simp only [textOf_append, textOf_cons, textOf_nil, List.append_nil, byteCount_append]
  rw [size] at hstop
  omega

theorem reportsOn_of_cut (h : before ++ [⟨.unknown, [c]⟩] <+: pieces source.toList) :
    reportsOn source (charSpan (textOf before) c) = byteReports (byteCount (textOf before)) c := by
  obtain ⟨after, hafter⟩ := h
  have hsize : byteCount (textOf [⟨.unknown, [c]⟩]) = c.utf8Size := by simp [byteCount]
  have hbefore : ∀ d ∈ diagnostics 0 before, ¬d.meets (charSpan (textOf before) c) = true := by
    intro d hd
    obtain ⟨s, hs, -, hstop⟩ := exists_span hd
    simp only [Diagnostic.meets_iff hs, charSpan]
    omega
  have hafter' : ∀ d ∈ diagnostics (byteCount (textOf before) + c.utf8Size) after,
      ¬d.meets (charSpan (textOf before) c) = true := by
    intro d hd
    obtain ⟨s, hs, hstart, -⟩ := exists_span hd
    simp only [Diagnostic.meets_iff hs, charSpan]
    omega
  have hinside : ∀ d ∈ byteReports (byteCount (textOf before)) c,
      d.meets (charSpan (textOf before) c) = true := by
    intro d hd
    obtain ⟨i, hi, hs⟩ := exists_of_mem_byteReports hd
    simp only [Diagnostic.meets_iff hs, charSpan]
    omega
  have hall : (lex source).diagnostics =
      diagnostics 0 before ++ (byteReports (byteCount (textOf before)) c ++
      diagnostics (byteCount (textOf before) + c.utf8Size) after) := by
    rw [lex, ← hafter, List.append_assoc, diagnostics_append, diagnostics_append, Nat.zero_add,
      hsize, diagnostics, diagnostics, List.append_nil, problems_unknown]
  rw [reportsOn, hall, List.filter_append, List.filter_append, List.filter_eq_nil_iff.2 hbefore,
    List.filter_eq_self.2 hinside, List.filter_eq_nil_iff.2 hafter', List.nil_append,
    List.append_nil]

/-- A report is on a byte of a stray character, or on a literal or comment that does not end. -/
theorem stray_or_open (h : d ∈ (lex source).diagnostics) :
    (∃ u c v, IsStray source u c v ∧ d ∈ byteReports (byteCount u) c) ∨
      (d.message = "unterminated string literal" ∨ d.message = "unterminated block comment") ∧
        ∃ s, d.span = some s ∧ s.OnCharacters source := by
  obtain ⟨before, p, hcut, hp⟩ := exists_cut_of_mem h
  obtain ⟨rest, htext, hform⟩ := exists_hasForm hcut
  have hwhole := Scanner.RestAt.onCharacters ⟨_, htext, rfl⟩
  rw [Nat.zero_add] at hp
  obtain ⟨shape, text⟩ := p
  cases hform with
  | openLiteral =>
    rw [List.mem_singleton.1 hp]
    exact .inr ⟨.inl rfl, _, rfl, hwhole⟩
  | openComment =>
    rw [List.mem_singleton.1 hp]
    exact .inr ⟨.inr rfl, _, rfl, hwhole⟩
  | @unknown c rest hspace htoken =>
    rw [problems_unknown] at hp
    exact .inl ⟨_, c, rest, isStray_of_cut hcut htext, hp⟩
  | _ => cases hp

theorem reportsOn_stray (h : IsStray source u c v) :
    reportsOn source (charSpan u c) = byteReports (byteCount u) c := by
  obtain ⟨before, rfl, hcut⟩ := exists_of_isStray h
  exact reportsOn_of_cut hcut

theorem startsToken_of_isStray (h : IsStray source u c v) : startsToken c v = false := by
  obtain ⟨before, rfl, hcut⟩ := exists_of_isStray h
  obtain ⟨rest, htext, hform⟩ := exists_hasForm hcut
  rw [h.text] at htext
  obtain rfl : v = rest := (List.cons.inj (List.append_cancel_left htext)).2
  cases hform
  assumption

theorem reportsCharacters_iff (source : String) :
    ReportsCharacters source ↔ ∀ u c v, IsStray source u c v → c.toNat < 128 := by
  constructor
  · rintro ⟨hwhole, -⟩ u c v h
    obtain ⟨d, hd⟩ := List.exists_mem_of_ne_nil (byteReports (byteCount u) c) (by
      simp [byteReports, List.mapIdx_eq_nil_iff, String.utf8EncodeChar_ne_nil])
    have hmem : d ∈ (lex source).diagnostics := (List.mem_filter.1 (reportsOn_stray h ▸ hd)).1
    exact lt_of_onCharacters h.text hd (hwhole d hmem)
  · intro h
    refine ⟨fun d hd s hs ↦ ?_, fun u c v hstray ↦ ?_⟩
    · rcases stray_or_open hd with ⟨u, c, v, hstray, hmem⟩ | ⟨-, s', hs', hwhole⟩
      · rw [byteReports_of_one_byte (h u c v hstray), List.mem_singleton] at hmem
        subst hmem
        cases hs
        have hc : Scanner.RestAt source (byteCount u) ([c] ++ v) := ⟨u, hstray.text, rfl⟩
        exact hc.onCharacters
      · cases hs.symm.trans hs'
        exact hwhole
    · rw [reportsOn_stray hstray]
      exact byteReports_of_one_byte (h u c v hstray) _

/-- A character that is neither blank nor in a token, a comment or an open literal starts no token,
and what is reported on it is one report for each of its bytes, named by the character with this
code. There are no other reports but on literals and comments that do not end, and these cover whole
characters. So reports go by characters in exactly those texts whose stray characters all have one
byte. -/
theorem reports_on_strays (source : String) : (∀ u c v, IsStray source u c v →
      startsToken c v = false ∧ reportsOn source (charSpan u c) = byteReports (byteCount u) c) ∧
    (∀ d ∈ (lex source).diagnostics,
      (∃ u c v, IsStray source u c v ∧ d ∈ byteReports (byteCount u) c) ∨
      (d.message = "unterminated string literal" ∨ d.message = "unterminated block comment") ∧
        ∃ s, d.span = some s ∧ s.OnCharacters source) ∧
    (ReportsCharacters source ↔ ∀ u c v, IsStray source u c v → c.toNat < 128) := by
  refine ⟨fun u c v h ↦ ⟨startsToken_of_isStray h, reportsOn_stray h⟩,
    fun d hd ↦ stray_or_open hd, ?_⟩
  exact reportsCharacters_iff source

/-- A stray character of two bytes, and a literal that does not end. -/
def accentedText : String := "a = é \"ü"

theorem reports_on_strays_accentedText :
    IsStray accentedText ['a', ' ', '=', ' '] 'é' [' ', '"', 'ü'] ∧
    reportsOn accentedText ⟨4, 6⟩ = [unknownToken 'Ã' ⟨4, 5⟩, unknownToken '©' ⟨5, 6⟩] ∧
    Span.OnCharacters accentedText ⟨7, 10⟩ ∧ ¬ReportsCharacters accentedText := by
  have hstray : IsStray accentedText ['a', ' ', '=', ' '] 'é' [' ', '"', 'ü'] :=
    isStray_iff.2
      ⟨by decide +kernel,
        [⟨.token .ident, ['a']⟩, ⟨.blank, [' ']⟩, ⟨.unknown, ['=']⟩, ⟨.blank, [' ']⟩],
      by decide, by decide +kernel⟩
  obtain ⟨hstrays, hall, hexact⟩ := reports_on_strays accentedText
  refine ⟨hstray, ?_, ?_, fun h ↦ ?_⟩
  · exact (hstrays _ _ _ hstray).2.trans (by decide +kernel)
  · have hmem :
        .error "unterminated string literal" (some ⟨7, 10⟩) ∈ (lex accentedText).diagnostics := by
      decide +kernel
    rcases hall _ hmem with ⟨u, c, v, -, hbyte⟩ | ⟨-, s, hs, hwhole⟩
    · obtain ⟨i, -, hs⟩ := exists_of_mem_byteReports hbyte
      obtain ⟨hstart, hstop⟩ := Span.mk.inj (Option.some.inj hs)
      omega
    · cases hs
      exact hwhole
  · exact absurd (hexact.1 h _ _ _ hstray) (by decide)

end Reports

end Understudy
