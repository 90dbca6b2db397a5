import Understudy.Proofs.PieceEnds

namespace Understudy

def Shape.isToken : Shape → Bool
  | .token _ => true
  | _ => false

namespace Piece

def textOf (ps : List Piece) : List Char := ps.flatMap (·.text)

@[simp]
theorem textOf_nil : textOf [] = [] := rfl

@[simp]
theorem textOf_cons (p : Piece) (ps : List Piece) : textOf (p :: ps) = p.text ++ textOf ps := rfl

@[simp]
theorem textOf_append (ps qs : List Piece) : textOf (ps ++ qs) = textOf ps ++ textOf qs :=
  List.flatMap_append

/-- What a comment comes down to: a blank, or the line end that it runs over. -/
def gist (p : Piece) : Piece := if p.text.contains '\n' then ⟨.newline, ['\n']⟩ else ⟨.blank, [' ']⟩

section Precede

/-- In front of `rest` stand these pieces, as reading from the left cuts them. -/
inductive Precede : List Piece → List Char → Prop
  | nil {rest : List Char} : Precede [] rest
  | cons {shape : Shape} {c : Char} {tail rest : List Char} {ps : List Piece}
      (hextent : extent c (tail ++ (textOf ps ++ rest)) = (shape, tail.length))
      (hopen : shape.isOpen = false) (hps : Precede ps rest) :
      Precede (⟨shape, c :: tail⟩ :: ps) rest

variable {ps qs : List Piece} {p : Piece} {rest : List Char}

theorem Precede.pieces (h : Precede ps rest) :
    pieces (textOf ps ++ rest) = ps ++ Piece.pieces rest := by
  induction h with
  | nil => rfl
  | @cons shape c tail rest ps hextent hopen _ ih =>
    have hcut := pieces_lexeme tail hextent hopen
    rw [textOf_cons, List.cons_append, List.cons_append, List.append_assoc, hcut, ih,
      List.cons_append]

theorem Precede.eq_nil (h : Precede ps rest) (htext : textOf ps = []) : ps = [] := by
  cases h with
  | nil => rfl
  | cons => cases htext

theorem Precede.of_append (h : Precede (ps ++ qs) rest) :
    Precede ps (textOf qs ++ rest) ∧ Precede qs rest := by
  induction ps with
  | nil => exact ⟨.nil, h⟩
  | cons p ps ih =>
    cases h with
    | cons hextent hopen hps =>
      rw [List.append_eq, textOf_append, List.append_assoc] at hextent
      exact ⟨.cons hextent hopen (ih hps).1, (ih hps).2⟩

theorem precede_pieces {text : List Char} (h : ∀ p ∈ Piece.pieces text, p.shape.isOpen = false) :
    Precede (Piece.pieces text) [] ∧ textOf (Piece.pieces text) = text := by
  refine ⟨?_, text_pieces_eq h⟩
  fun_induction Piece.pieces text with
  | case1 => exact .nil
  | case2 c rest shape n hextent ih =>
    obtain ⟨hopen, hlater⟩ := List.forall_mem_cons.1 h
    have hopen : shape.isOpen = false := hopen
    simp only [hopen, Bool.false_eq_true, if_false] at hlater ⊢
    refine .cons ?_ hopen (ih hlater)
    rw [textOf, text_pieces_eq hlater, List.append_nil, List.take_append_drop,
      length_take_extent hextent, hextent]

/-- Pieces stay as they are where a blank or line end takes the place of `v`, or nothing does. -/
theorem Precede.space {u v w : List Char} (h : Precede ps (u ++ v)) (hw : StartsSpace w)
    (hline : u = [] → ∀ p ∈ ps.getLast?, p.fillsLine = false) : Precede ps (u ++ w) := by
  induction ps with
  | nil => exact .nil
  | cons p ps ih =>
    cases h with
    | cons hextent hopen hps =>
      refine .cons ?_ hopen (ih hps fun hu q hq ↦ hline hu q ?_)
      · rw [← List.append_assoc (textOf ps)] at hextent ⊢
        refine extent_eq_iff.2 ((extent_eq_iff.1 hextent).space hw hopen fun hnil ↦ ?_)
        obtain ⟨hnil, rfl⟩ := List.append_eq_nil_iff.1 hnil
        obtain rfl := hps.eq_nil (by simpa using hnil)
        exact hline rfl _ rfl
      · rw [List.getLast?_cons, hq, Option.getD_some]
        rfl

theorem Precede.append (h : Precede ps (textOf qs ++ rest)) (hqs : Precede qs rest) :
    Precede (ps ++ qs) rest := by
  induction ps with
  | nil => exact hqs
  | cons p ps ih =>
    cases h with
    | cons hextent hopen hps =>
      refine .cons ?_ hopen (ih hps)
      rwa [List.append_eq, textOf_append, List.append_assoc]

theorem Precede.cons_of (h : Precede [p] (textOf ps ++ rest)) (hps : Precede ps rest) :
    Precede (p :: ps) rest :=
  h.append hps

theorem Precede.tail (h : Precede (p :: ps) rest) : Precede ps rest := by
  cases h
  assumption

theorem precede_blank {d : Char} (hd : isBlank d = true) : Precede [⟨.blank, [d]⟩] rest :=
  .cons (extent_eq_iff.2 (.blank hd rfl)) rfl .nil

theorem precede_newline : Precede [⟨.newline, ['\n']⟩] rest := .cons rfl rfl .nil

theorem precede_blanks {run : List Char} (h : ∀ x ∈ run, isBlank x = true) :
    Precede (run.map fun x ↦ ⟨.blank, [x]⟩) rest := by
  induction run with
  | nil => exact .nil
  | cons x run ih =>
    obtain ⟨hx, hrun⟩ := List.forall_mem_cons.1 h
    exact (precede_blank hx).cons_of (ih hrun)

theorem textOf_blanks (run : List Char) : textOf (run.map fun x ↦ ⟨.blank, [x]⟩) = run := by
  induction run with
  | nil => rfl
  | cons x run ih => simp [ih]

theorem extent_comment {c : Char} {n : Nat} (h : extent c rest = (.comment, n)) : c = '/' := by
  cases extent_eq_iff.1 h with
  | line hc | block hc => exact hc

/-- Only a line end, or the end of the text, stands behind a comment to the end of its line. -/
theorem Precede.of_fillsLine (h : Precede [p] rest) (hp : p.fillsLine = true) :
    ∃ text, p = ⟨.comment, '/' :: '/' :: text⟩ ∧ (∀ x ∈ text, x ≠ '\n') ∧
    ∀ x ∈ rest.head?, x = '\n' := by
  cases h with
  | @cons shape c tail _ _ hextent hopen hps =>
    simp only [fillsLine, Bool.and_eq_true, decide_eq_true_eq, beq_iff_eq,
      List.getElem?_cons_succ] at hp
    obtain ⟨rfl, htail⟩ := hp
    obtain rfl := extent_comment hextent
    cases tail with
    | nil => cases htail
    | cons x text =>
      obtain rfl : x = '/' := by simpa using htail
      have htake := takeWhile_eq (congrArg Prod.snd hextent)
      refine ⟨text, rfl, fun x hx ↦ ?_, fun x hx ↦ ?_⟩
      · simpa using htake.1 x (List.mem_cons_of_mem _ hx)
      · simpa using htake.2 x hx

theorem precede_lineComment {text : List Char} (htext : ∀ x ∈ text, x ≠ '\n')
    (hrest : ∀ x ∈ rest.head?, x = '\n') : Precede [⟨.comment, '/' :: '/' :: text⟩] rest := by
  refine .cons (extent_eq_iff.2 (.line rfl rfl ?_)) rfl .nil
  rw [textOf_nil, List.nil_append, takeWhile_of_breaks]
  · simpa using htext
  · simpa using hrest

end Precede

section Keeps

def IsSound (p : Piece) : Prop := ∀ pos, p.problems pos = []

/-- `qs` give the same words as `ps`, and nothing more to report. -/
structure Keeps (ps qs : List Piece) : Prop where
  words_eq (last : Option TokenKind) (rest : List Piece) : words last (qs ++ rest) =
      words last (ps ++ rest)
  sound (h : ∀ p ∈ ps, p.IsSound) : ∀ q ∈ qs, q.IsSound

variable {ps ps' qs qs' : List Piece} {p q : Piece} {rest : List Char}

theorem Keeps.refl (ps : List Piece) : Keeps ps ps := ⟨fun _ _ ↦ rfl, fun h ↦ h⟩

theorem words_congr {xs ys : List Piece} (h : ∀ last, words last xs = words last ys)
    (ps : List Piece) (last : Option TokenKind) :
    words last (ps ++ xs) = words last (ps ++ ys) := by
  induction ps generalizing last with
  | nil => exact h last
  | cons p ps ih => simp only [List.cons_append, words, ih]

theorem Keeps.append (h : Keeps ps ps') (h' : Keeps qs qs') : Keeps (ps ++ qs) (ps' ++ qs') where
  words_eq last rest := by
    rw [List.append_assoc, List.append_assoc, h.words_eq]
    exact words_congr (fun last ↦ h'.words_eq last rest) ps last
  sound hs := by
    rw [List.forall_mem_append] at hs ⊢
    exact ⟨h.sound hs.1, h'.sound hs.2⟩

theorem words_of_not_token (hp : p.shape.isToken = false) (last : Option TokenKind)
    (rest : List Piece) : words last (p :: rest) =
      if p.endsLine && last.any TokenKind.completesLine then (.semicolon, "") :: words
        (some .semicolon) rest
      else words last rest := by
  rw [words]
  split
  · rename_i kind hkind
    simp [hkind, Shape.isToken] at hp
  · rfl

theorem Keeps.of_endsLine (hp : p.shape.isToken = false) (hq : q.shape.isToken = false)
    (hline : q.endsLine = p.endsLine) (hsound : q.IsSound) : Keeps [p] [q] where
  words_eq last rest := by
    rw [List.singleton_append, List.singleton_append, words_of_not_token hp,
      words_of_not_token hq, hline]
  sound _ := by simpa using hsound

theorem keeps_blanks (run : List Char) : Keeps [] (run.map fun x ↦ ⟨.blank, [x]⟩) where
  words_eq last rest := by
    induction run with
    | nil => rfl
    | cons x run ih => simpa using ih
  sound _ := by
    simp only [List.forall_mem_map]
    exact fun _ _ _ ↦ rfl

theorem Precede.blanks {run : List Char} (h : Precede ps rest)
    (hrun : ∀ x ∈ run, isBlank x = true) :
    ∃ qs, Precede qs rest ∧ textOf qs = textOf ps ++ run ∧ Keeps ps qs := by
  cases run with
  | nil => exact ⟨ps, h, by simp, .refl ps⟩
  | cons d run =>
    have hd : isSpace d = true := by simp [isSpace, hrun d (List.mem_cons_self ..)]
    by_cases hline : ∃ p ∈ ps.getLast?, p.fillsLine = true
    · obtain ⟨p, hp, hline⟩ := hline
      obtain ⟨init, rfl⟩ := List.getLast?_eq_some_iff.1 hp
      obtain ⟨hinit, hlast⟩ := h.of_append
      obtain ⟨text, rfl, htext, hrest⟩ := hlast.of_fillsLine hline
      have hend : ∀ x ∈ text ++ d :: run, x ≠ '\n' :=
        List.forall_mem_append.2 ⟨htext, fun x hx ↦ ne_of_isBlank (hrun x hx)⟩
      refine ⟨init ++ [⟨.comment, '/' :: '/' :: (text ++ d :: run)⟩], ?_,
        by simp, (Keeps.refl init).append ?_⟩
      · refine Precede.append ?_ (precede_lineComment hend hrest)
        have hspace :=
          Precede.space (u := '/' :: '/' :: text) (w := d :: run ++ rest) (by simpa using hinit)
          (startsSpace_cons hd) fun h ↦
          absurd h (List.cons_ne_nil _ _)
        simpa using hspace
      · refine .of_endsLine rfl rfl ?_ fun _ ↦ rfl
        have htext' : '\n' ∉ text := fun h ↦ htext _ h rfl
        have hend' : '\n' ∉ text ++ d :: run := fun h ↦ hend _ h rfl
        simp [endsLine, htext', hend', -List.mem_append]
    · have hline : ∀ p ∈ ps.getLast?, p.fillsLine = false := by simpa using hline
      refine ⟨ps ++ (d :: run).map fun x ↦ ⟨.blank, [x]⟩, ?_, ?_, ?_⟩
      · refine Precede.append ?_ (precede_blanks hrun)
        rw [textOf_blanks]
        exact h.space (u := []) (startsSpace_cons hd) fun _ ↦ hline
      · rw [textOf_append, textOf_blanks]
      · simpa using (Keeps.refl ps).append (keeps_blanks (d :: run))

/-- A comment says as much as the blank or line end in its place. -/
theorem keeps_gist (hp : p.shape = .comment) : Keeps [p] [p.gist] := by
  have hother : p.shape.isToken = false := by simp [hp, Shape.isToken]
  have hline : p.endsLine = p.text.contains '\n' := by simp [endsLine, hp]
  unfold gist
  split
  · rename_i h
    exact .of_endsLine hother rfl (hline.trans h).symm fun _ ↦ rfl
  · rename_i h
    exact .of_endsLine hother rfl (hline.trans (Bool.not_eq_true _ ▸ h)).symm fun _ ↦ rfl

theorem Precede.fillsLine_eq_false (h : Precede ps (textOf (p :: qs) ++ rest))
    (hp : Precede (p :: qs) rest) (hcomment : p.shape = .comment) :
    ∀ q ∈ ps.getLast?, q.fillsLine = false := by
  intro q hq
  obtain ⟨init, rfl⟩ := List.getLast?_eq_some_iff.1 hq
  cases hfills : q.fillsLine with
  | false => rfl
  | true =>
    obtain ⟨text, -, -, hend⟩ := h.of_append.2.of_fillsLine hfills
    cases hp with
    | cons hextent =>
      obtain rfl : _ = Shape.comment := hcomment
      obtain rfl := extent_comment hextent
      exact absurd (hend '/' rfl) (by decide)

theorem Precede.replace_gist (h : Precede (ps ++ p :: qs) rest) (hp : p.shape = .comment) :
    Precede (ps ++ p.gist :: qs) rest := by
  obtain ⟨hps, hlater⟩ := h.of_append
  have hline := hps.fillsLine_eq_false hlater hp
  unfold gist
  split
  · exact (hps.space (u := []) (startsSpace_cons (by decide)) fun _ ↦ hline).append
      (precede_newline.cons_of hlater.tail)
  · exact (hps.space (u := []) (startsSpace_cons (by decide)) fun _ ↦ hline).append
      ((precede_blank rfl).cons_of hlater.tail)

end Keeps

section Boundaries

/-- The byte `x` is where some of the pieces from byte `pos` on end. -/
def IsBoundary (pos : Nat) (ps : List Piece) (x : Nat) : Prop :=
  ∃ qs, qs <+: ps ∧ x = pos + byteCount (textOf qs)

variable {p : Piece} {ps : List Piece} {size pos : Nat} {last : Option TokenKind}

/-- Where the tokens of pieces come from that start at byte `pos` of a text of `size` bytes. -/
inductive Gives (size pos : Nat) (ps : List Piece) : Token → Prop
  | eof : Gives size pos ps ⟨.eof, ⟨size, size⟩, ""⟩
  | lexeme {before : List Piece} {kind : TokenKind} {text : List Char} {x : Nat}
      (hcut : before ++ [⟨.token kind, text⟩] <+: ps) (hx : pos + byteCount (textOf before) = x) :
      Gives size pos ps ⟨kind, ⟨x, x + byteCount text⟩, String.ofList text⟩
  | lineEnd {before : List Piece} {p : Piece} {x : Nat} (hcut : before ++ [p] <+: ps)
      (hp : p.endsLine = true) (hx : pos + byteCount (textOf before) = x) :
      Gives size pos ps ⟨.semicolon, ⟨x, x⟩, ""⟩
  | textEnd : Gives size pos ps ⟨.semicolon, ⟨size, size⟩, ""⟩

theorem Gives.cons {t : Token} (h : Gives size (pos + p.size) ps t) :
    Gives size pos (p :: ps) t := by
  have hplace : ∀ {before : List Piece} {x : Nat}, pos + p.size + byteCount (textOf before) = x →
      pos + byteCount (textOf (p :: before)) = x := by
    rintro before _ rfl
    rw [textOf_cons, byteCount_append, Piece.size, Nat.add_assoc]
  cases h with
  | eof => exact .eof
  | lexeme hcut hx => exact .lexeme ((List.prefix_cons_inj p).2 hcut) (hplace hx)
  | lineEnd hcut hp hx => exact .lineEnd ((List.prefix_cons_inj p).2 hcut) hp (hplace hx)
  | textEnd => exact .textEnd

theorem gives_of_mem {t : Token} (ht : t ∈ tokens size last pos ps) : Gives size pos ps t := by
  induction ps generalizing last pos with
  | nil =>
    rw [tokens] at ht
    split at ht
    · rcases List.mem_cons.1 ht with rfl | ht
      · exact .textEnd
      · rw [List.mem_singleton.1 ht]
        exact .eof
    · rw [List.mem_singleton.1 ht]
      exact .eof
  | cons p ps ih =>
    obtain ⟨shape, text⟩ := p
    rw [tokens] at ht
    split at ht
    · rename_i kind hkind
      obtain rfl : shape = .token kind := hkind
      rcases List.mem_cons.1 ht with rfl | ht
      · have hcut : [] ++ [⟨.token kind, text⟩] <+: ⟨.token kind, text⟩ :: ps := ⟨ps, rfl⟩
        exact .lexeme hcut rfl
      · exact (ih ht).cons
    · split at ht
      · rename_i hline
        rcases List.mem_cons.1 ht with rfl | ht
        · have hcut : [] ++ [⟨shape, text⟩] <+: ⟨shape, text⟩ :: ps := ⟨ps, rfl⟩
          exact .lineEnd hcut (Bool.and_eq_true_iff.1 hline).1 rfl
        · exact (ih ht).cons
      · exact (ih ht).cons

theorem Gives.isBoundary {t : Token} (hsize : pos + byteCount (textOf ps) = size)
    (h : Gives size pos ps t) : IsBoundary pos ps t.span.start ∧ IsBoundary pos ps t.span.stop := by
  have hend : IsBoundary pos ps size := ⟨ps, List.prefix_rfl, hsize.symm⟩
  cases h with
  | eof | textEnd => exact ⟨hend, hend⟩
  | @lexeme before kind text x hcut hx =>
    refine ⟨⟨before, (List.prefix_append ..).trans hcut, hx.symm⟩, _, hcut, ?_⟩
    rw [textOf_append, byteCount_append, ← Nat.add_assoc, hx]
    simp
  | @lineEnd before p x hcut hp hx =>
    have hstart : IsBoundary pos ps x := ⟨before, (List.prefix_append ..).trans hcut, hx.symm⟩
    exact ⟨hstart, hstart⟩

theorem eq_nil_of_byteCount {text : List Char} (h : byteCount text = 0) : text = [] := by
  cases text with
  | nil => rfl
  | cons c rest =>
    have hpos := c.utf8Size_pos
    rw [byteCount] at h
    omega

theorem eq_of_byteCount {u v text : List Char} (hu : u <+: text) (hv : v <+: text)
    (h : byteCount u = byteCount v) : u = v := by
  have hshort : ∀ {u v : List Char}, u <+: v → byteCount u = byteCount v → u = v := by
    rintro u _ ⟨rest, rfl⟩ h
    rw [byteCount_append, Nat.left_eq_add] at h
    rw [eq_nil_of_byteCount h, List.append_nil]
  rcases List.prefix_or_prefix_of_prefix hu hv with huv | hvu
  · exact hshort huv h
  · exact (hshort hvu h.symm).symm

end Boundaries

theorem unknownBytes_eq_nil {pos : Nat} {bytes : List UInt8} (h : unknownBytes pos bytes = []) :
    bytes = [] := by
  cases bytes with
  | nil => rfl
  | cons => cases h

theorem isSound_of_problems {p : Piece} {pos : Nat} (h : p.problems pos = []) : p.IsSound := by
  intro pos'
  unfold problems at h ⊢
  split at h
  · rw [unknownBytes_eq_nil h]
    rfl
  · cases h
  · cases h
  · rfl

theorem isSound_of_diagnostics {ps : List Piece} {pos : Nat} (h : diagnostics pos ps = []) :
    ∀ p ∈ ps, p.IsSound := by
  induction ps generalizing pos with
  | nil => nofun
  | cons p ps ih =>
    obtain ⟨hp, hps⟩ := List.append_eq_nil_iff.1 h
    exact List.forall_mem_cons.2 ⟨isSound_of_problems hp, ih hps⟩

theorem IsSound.isOpen_eq_false {p : Piece} (h : p.IsSound) : p.shape.isOpen = false := by
  have hproblems := h 0
  unfold problems at hproblems
  cases hshape : p.shape <;> simp_all [Shape.isOpen]

end Piece

/-- Nothing is wrong with the text `spaced`, and its words are those of `source`. -/
def LexesLike (source spaced : String) : Prop :=
  (lex spaced).diagnostics = [] ∧ (lex spaced).tokens.map Token.word =
    (lex source).tokens.map Token.word

namespace Piece

theorem lexesLike_textOf {source : String} {ps : List Piece} (h : (lex source).diagnostics = [])
    (hkeeps : Keeps (pieces source.toList) ps) (hps : Precede ps []) :
    LexesLike source (String.ofList (textOf ps)) := by
  have hpieces : pieces (String.ofList (textOf ps)).toList = ps := by
    have hpieces := hps.pieces
    rwa [List.append_nil, pieces, List.append_nil, ← String.toList_ofList (l := textOf ps)]
      at hpieces
  constructor
  · rw [lex, hpieces]
    exact diagnostics_eq_nil (hkeeps.sound (isSound_of_diagnostics h)) 0
  · have hwords := hkeeps.words_eq none []
    rwa [List.append_nil, List.append_nil, ← map_word_lex source, ← hpieces, ← map_word_lex]
      at hwords

variable {source : String}

theorem precede_source (h : (lex source).diagnostics = []) :
    Precede (pieces source.toList) [] ∧ textOf (pieces source.toList) = source.toList :=
  precede_pieces fun p hp ↦ (isSound_of_diagnostics h p hp).isOpen_eq_false

theorem lexesLike_gist (h : (lex source).diagnostics = []) {before after : List Piece} {p : Piece}
    (hpieces : pieces source.toList = before ++ p :: after) (hp : p.shape = .comment) :
    LexesLike source (String.ofList (textOf (before ++ p.gist :: after))) := by
  obtain ⟨hall, -⟩ := precede_source h
  have hkeeps := (Keeps.refl before).append ((keeps_gist hp).append (.refl after))
  rw [hpieces] at hall
  exact lexesLike_textOf h (hpieces ▸ hkeeps) (hall.replace_gist hp)

theorem lexesLike_blanks (h : (lex source).diagnostics = []) {before after run : List Char}
    {t : Token} (hsource : source.toList = before ++ after) (ht : t ∈ (lex source).tokens)
    (hplace : byteCount before = t.span.start ∨ byteCount before = t.span.stop)
    (hrun : ∀ c ∈ run, isBlank c = true) :
    LexesLike source (String.ofList (before ++ run ++ after)) := by
  obtain ⟨hall, htext⟩ := precede_source h
  have hsize : 0 + byteCount (textOf (pieces source.toList)) = source.utf8ByteSize := by
    rw [htext, byteCount_eq, String.ofList_toList, Nat.zero_add]
  obtain ⟨ps, ⟨qs, hpieces⟩, hbytes⟩ : IsBoundary 0 (pieces source.toList) (byteCount before) := by
    obtain ⟨hstart, hstop⟩ := (gives_of_mem ht).isBoundary hsize
    rcases hplace with hplace | hplace <;> rwa [hplace]
  rw [← hpieces] at hall
  rw [← hpieces, textOf_append, hsource] at htext
  obtain rfl : before = textOf ps :=
    eq_of_byteCount ⟨after, rfl⟩ ⟨textOf qs, htext⟩ (by rw [hbytes, Nat.zero_add])
  obtain rfl := List.append_cancel_left htext
  obtain ⟨hps, hqs⟩ := hall.of_append
  obtain ⟨ps', hps', htext', hkeeps⟩ := hps.blanks hrun
  rw [← htext', ← textOf_append]
  refine lexesLike_textOf h (hpieces ▸ hkeeps.append (.refl qs)) (Precede.append ?_ hqs)
  exact hps'

end Piece

open Piece in
/-- Spacing a text out and taking its comments away changes none of its words. In a text without a
report, a comment may become a blank, or a line end if it runs over one, and blanks may come in
wherever a token starts or ends, those tokens included that stand for line ends and the end of the
text. -/
theorem lexesLike_spaced (source : String) (h : (lex source).diagnostics = []) :
    (∀ before p after, pieces source.toList = before ++ p :: after → p.shape = .comment →
      LexesLike source (String.ofList (textOf (before ++ p.gist :: after)))) ∧
    ∀ before after run, source.toList = before ++ after → ∀ t ∈ (lex source).tokens,
      byteCount before = t.span.start ∨ byteCount before = t.span.stop →
      (∀ c ∈ run, isBlank c = true) → LexesLike source (String.ofList (before ++ run ++ after)) :=
  ⟨fun _ _ _ ↦ lexesLike_gist h, fun _ _ _ hsource _ ↦ lexesLike_blanks h hsource⟩

open Piece in
theorem lexesLike_spaced_comment : (lex "type A int// b").diagnostics = [] ∧
    LexesLike "type A int// b" "type A int " ∧ LexesLike "type A int// b" "type\t A int// b" := by
  have h : (lex "type A int// b").diagnostics = [] := by decide +kernel
  obtain ⟨hgist, hblanks⟩ := lexesLike_spaced "type A int// b" h
  refine ⟨h, ?_, ?_⟩
  · exact hgist [⟨.token .typeWord, "type".toList⟩, ⟨.blank, [' ']⟩, ⟨.token .ident, ['A']⟩,
      ⟨.blank, [' ']⟩,
      ⟨.token .ident, "int".toList⟩] ⟨.comment, "// b".toList⟩ [] (by decide +kernel) rfl
  · exact hblanks "type".toList " A int// b".toList ['\t'] rfl ⟨.typeWord, ⟨0, 4⟩, "type"⟩
      (by decide +kernel)
      (.inr (by decide)) (List.forall_mem_singleton.2 rfl)

end Understudy
