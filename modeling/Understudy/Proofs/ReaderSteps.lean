import Understudy.Syntax.Types
import Understudy.Proofs.Lexemes

namespace Understudy.Reader

variable {α β : Type}

theorem bind_done {p : Reader α} {f : α → Reader β} {c c' : Cursor} {a : α} (h : p c = .done a c') :
    (p >>= f) c = f a c' := by
  rw [bind_apply, h]

theorem bind_cursor (f : Cursor → Reader β) (c : Cursor) : (cursor >>= f) c = f c c := rfl

theorem attempt_done {p : Reader α} {c c' : Cursor} {a : α} (h : p c = .done a c') :
    attempt p c = .done (.ok a) c' := by
  rw [attempt, h]

theorem bounded_done {p : Nat → Reader α} {c c' : Cursor} {a : α}
    (h : p (c.tokens.length + 1) c = .done a c') :
    bounded p c = .done a c' := h

variable {t : Token} {rest : List Token} {kind : TokenKind} {last : Nat}

theorem expect_cons (h : t.kind = kind) (message : String) :
    expect kind message ⟨t :: rest, last⟩ = .done t ⟨rest, t.span.stop⟩ := if_pos h

theorem ident_cons (h : t.kind = .ident) (message : String) :
    ident message ⟨t :: rest, last⟩ = .done (t.text, t.span) ⟨rest, t.span.stop⟩ :=
  bind_done (expect_cons h message)

theorem eat_cons (h : t.kind = kind) :
    eat kind ⟨t :: rest, last⟩ = .done true ⟨rest, t.span.stop⟩ := if_pos h

theorem eat_of_head? {ts : List Token} (h : ∀ t ∈ ts.head?, t.kind ≠ kind) :
    eat kind ⟨ts, last⟩ = .done false ⟨ts, last⟩ := by
  cases ts with
  | nil => rfl
  | cons t rest => exact if_neg (h t rfl)

theorem head?_ne {other : TokenKind} (h : t.kind = kind) (hne : kind ≠ other) :
    ∀ x ∈ (t :: rest).head?, x.kind ≠ other := by
  rintro x ⟨⟩
  rwa [h]

theorem range_of_le {start stop : Nat} (h : start ≤ stop) (c : Cursor) :
    range start stop c = .done ⟨start, stop⟩ c := by
  rw [range, Span.between?_of_le h]
  rfl

theorem terminator_cons (h : t.kind = .semicolon) (what : String) :
    terminator what ⟨t :: rest, last⟩ = .done () ⟨rest, t.span.stop⟩ :=
  bind_done (eat_cons h)

theorem skipSemicolons_of_head? {ts : List Token} (h : ∀ t ∈ ts.head?, t.kind ≠ .semicolon) :
    skipSemicolons ⟨ts, last⟩ = .done () ⟨ts, last⟩ := by
  cases ts with
  | nil => rfl
  | cons t rest =>
    rw [skipSemicolons, Cursor.skipSemicolons, if_neg (h t rfl)]

end Understudy.Reader
