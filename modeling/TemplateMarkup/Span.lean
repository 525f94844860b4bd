/-
# Spans

A span is a stretch of the source, from one byte offset up to another.  It never ends before
it starts: `start_le_stop` is part of the type, so whatever builds a span has shown it.

Text that a special character command produces (`{sp}`) is located at the command, so a text
and its span may differ in length; `Span.locate` places a byte of the text in the source in
both cases.
-/
namespace TemplateMarkup

/-- Bytes `start` up to `stop` of the source. -/
structure Span where
  start : Nat
  stop : Nat
  start_le_stop : start ≤ stop := by omega
deriving DecidableEq

namespace Span

/-- The empty span at an offset. -/
def point (offset : Nat) : Span := ⟨offset, offset, Nat.le_refl _⟩

/-- From `start` up to `offset`, and empty if that comes earlier. -/
def upTo (start offset : Nat) : Span := ⟨start, max start offset, Nat.le_max_left _ _⟩

@[simp] theorem upTo_start (start offset : Nat) : (upTo start offset).start = start := rfl

@[simp] theorem upTo_stop (start offset : Nat) :
    (upTo start offset).stop = max start offset := rfl

instance : Inhabited Span := ⟨point 0⟩

/-- The number of bytes. -/
def length (s : Span) : Nat := s.stop - s.start

/-- No bytes. -/
def isEmpty (s : Span) : Bool := s.start == s.stop

/-- The smallest span that covers both. -/
def union (s t : Span) : Span where
  start := min s.start t.start
  stop := max s.stop t.stop
  start_le_stop := by have := s.start_le_stop; omega

/-- The source offset of byte `index` of a text of `size` bytes that this span locates: exact
where the text is the source itself, else kept inside the span. -/
def locate (s : Span) (size index : Nat) : Nat :=
  if size = s.length then s.start + index else min (s.start + index) s.stop

end Span

end TemplateMarkup
