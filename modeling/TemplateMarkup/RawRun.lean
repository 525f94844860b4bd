/-
# Raw runs

A raw run is raw text that is read as one, with the place in the source that each of its pieces
came from.  Neighbouring pieces need not touch in the source: a command that produced no text
may stand between them, and a special character is shorter than its command.

A byte index of the run has two source offsets.  `locate` is where the byte starts, so at the
seam of two pieces it looks into the later one; `locateEnd` is where the byte before it ended,
so at a seam it looks into the earlier one.  A range of the run is located by the first at its
start and the second at its end.
-/
import TemplateMarkup.Text.Basic
import TemplateMarkup.Span

namespace TemplateMarkup

/-- A piece of raw text, where it stands in the source, and the number of its bytes: the pieces
of a run are measured once, not at every look. -/
structure Piece where
  text : Text
  location : Span
  size : Nat := text.size
  size_eq : size = text.size := by rfl
deriving DecidableEq

/-- One or more pieces of raw text, read as one. -/
structure RawRun where
  first : Piece
  later : List Piece
deriving DecidableEq

namespace Piece

/-- The source offset of byte `index` of the piece. -/
def locate (p : Piece) (index : Nat) : Nat := p.location.locate p.size index

/-- The source offset of byte `index` of the pieces: the byte of the last piece that starts at
`index` or before it. -/
def locateFrom (p : Piece) : List Piece → Nat → Nat
  | [], index => p.locate index
  | q :: later, index =>
    if p.size ≤ index then locateFrom q later (index - p.size) else p.locate index

/-- The source offset after the byte before `index`: in the last piece that starts before
`index`. -/
def locateEndFrom (p : Piece) : List Piece → Nat → Nat
  | [], index => p.locate index
  | q :: later, index =>
    if p.size < index then locateEndFrom q later (index - p.size) else p.locate index

end Piece

namespace RawRun

/-- The run of a single piece. -/
def single (text : Text) (location : Span) : RawRun :=
  ⟨{ text := text, location := location }, []⟩

/-- The run with one more piece at its end. -/
def push (r : RawRun) (text : Text) (location : Span) : RawRun :=
  ⟨r.first, r.later ++ [{ text := text, location := location }]⟩

/-- All pieces, in order. -/
def pieces (r : RawRun) : List Piece := r.first :: r.later

/-- The text of the run. -/
def text (r : RawRun) : Text := r.pieces.flatMap Piece.text

@[simp] theorem text_single (t : Text) (s : Span) : (single t s).text = t := by
  simp [single, text, pieces]

@[simp] theorem text_push (r : RawRun) (t : Text) (s : Span) :
    (r.push t s).text = r.text ++ t := by
  simp [push, text, pieces]

/-- The source offset at which byte `index` starts. -/
def locate (r : RawRun) (index : Nat) : Nat := r.first.locateFrom r.later index

/-- The source offset at which the byte before `index` ends; at the start of the run, where the
first byte starts. -/
def locateEnd (r : RawRun) (index : Nat) : Nat :=
  if index = 0 then r.locate 0 else r.first.locateEndFrom r.later index

/-- The span of the bytes from `start` up to `stop`. -/
def location (r : RawRun) (start stop : Nat) : Span :=
  Span.upTo (r.locate start) (r.locateEnd stop)

end RawRun

end TemplateMarkup
