namespace Understudy

/-- A half-open range of byte offsets. They are numbers without a bound, where texts are shorter
than `2 ^ 32` bytes. -/
structure Span where
  start : Nat
  stop : Nat
deriving DecidableEq, Inhabited

namespace Span

def between? (start stop : Nat) : Option Span :=
  if start ≤ stop then some ⟨start, stop⟩ else none

def length (s : Span) : Nat := s.stop - s.start

def isEmpty (s : Span) : Bool := s.start == s.stop

/-- The smallest range that covers both, if it is a range at all. -/
def join? (s t : Span) : Option Span :=
  between? (min s.start t.start) (max s.stop t.stop)

def IsOrdered (s : Span) : Prop := s.start ≤ s.stop

instance (s : Span) : Decidable s.IsOrdered := inferInstanceAs (Decidable (_ ≤ _))

theorem between?_of_le {start stop : Nat} (h : start ≤ stop) :
    between? start stop = some ⟨start, stop⟩ := if_pos h

end Span

end Understudy
