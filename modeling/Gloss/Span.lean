import Gloss.Kind
import Gloss.Text.Basic
/-!
# Spans

A span is a half-open range of byte offsets. It names a part of a text only if
both ends lie in the text, between characters (`text?`).
-/

namespace Gloss

/-- Byte offsets from `start` up to `stop`. -/
structure Span where
  start : Nat
  stop : Nat
  start_le_stop : start ≤ stop := by omega
  deriving DecidableEq, Repr

namespace Span

/-- The empty span at the front of a text. -/
def zero : Span := ⟨0, 0, Nat.le_refl 0⟩

/-- The span of `n` bytes from an offset on. -/
def ofLength (start n : Nat) : Span := ⟨start, start + n, Nat.le_add_right start n⟩

def length (s : Span) : Nat := s.stop - s.start

def isEmpty (s : Span) : Bool := s.start == s.stop

def contains (s : Span) (offset : Nat) : Bool := s.start ≤ offset && offset < s.stop

/-- Two spans of which the second starts where the first stops, as one. -/
def join? (s t : Span) : Option Span :=
  if h : s.stop = t.start then
    some ⟨s.start, t.stop, by have := s.start_le_stop; have := t.start_le_stop; omega⟩
  else none

/-- Spans are ordered by their starts, then by their stops. -/
def compare (s t : Span) : Ordering :=
  (Ord.compare s.start t.start).then (Ord.compare s.stop t.stop)

/-- The part of the text under the span. -/
def text? (s : Span) (source : Text) : Option Text := Text.slice? s.start s.stop source

/-- The span in a log. -/
def describe (s : Span) : String := s!"Span \x7b start: {s.start}, end: {s.stop} \x7d"

end Span

/-- A span with its kind. -/
structure Region where
  kind : Kind
  span : Span
  deriving DecidableEq, Repr

end Gloss
