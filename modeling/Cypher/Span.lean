/-!
# Spans — byte ranges of a query text

A span counts BYTES of the text's UTF-8 form and leaves its end out. The
two operations here are the only ones that build a span from other spans,
and neither can answer an inverted one: whatever it is given, the start it
answers is at most the stop it answers.
-/

namespace Cypher

/-- A half-open range of byte offsets. Nothing forces `start ≤ stop`:
a span handed in from outside may be inverted, and `clamp` mends it. -/
structure Span where
  start : Nat
  stop : Nat
  deriving DecidableEq, Inhabited

namespace Span

/-- The number of bytes covered; an inverted span covers none. -/
def length (s : Span) : Nat := s.stop - s.start

/-- From where `first` starts to where `last` stops. A `last` that stops
before `first` starts leaves the empty span at that start. -/
def join (first last : Span) : Span :=
  ⟨first.start, max last.stop first.start⟩

/-- The span cut to a text of `limit` bytes, its stop raised to its start
when it was inverted. -/
def clamp (limit : Nat) (s : Span) : Span :=
  ⟨min s.start limit, max (min s.stop limit) (min s.start limit)⟩

/-- A joined span is never inverted. -/
theorem join_ordered (first last : Span) :
    (join first last).start ≤ (join first last).stop :=
  Nat.le_max_right _ _

/-- A clamped span is never inverted. -/
theorem clamp_ordered (limit : Nat) (s : Span) :
    (s.clamp limit).start ≤ (s.clamp limit).stop :=
  Nat.le_max_right _ _

/-- A clamped span lies inside the text. -/
theorem clamp_stop_le (limit : Nat) (s : Span) : (s.clamp limit).stop ≤ limit :=
  Nat.max_le.2 ⟨Nat.min_le_right _ _, Nat.min_le_right _ _⟩

end Span

end Cypher
