/-
# Lines and columns

The place of a byte offset as people count it: lines and columns from one, columns in
characters.  An offset past the end is taken as the end.
-/
import TemplateMarkup.Text.Basic

namespace TemplateMarkup

/-- A line and a column, both counted from one. -/
structure Position where
  line : Nat
  column : Nat
deriving DecidableEq

namespace Position

/-- The first character of a text. -/
def first : Position := ⟨1, 1⟩

/-- The position after a character. -/
def after (p : Position) (c : Char) : Position :=
  if c = '\n' then ⟨p.line + 1, 1⟩ else ⟨p.line, p.column + 1⟩

/-- The position at the end of a text. -/
def afterText (t : Text) : Position := t.foldl after first

end Position

namespace Text

/-- The text before byte offset `n`; none where the offset is inside a character. -/
def beforeByte? : Nat → Text → Option Text
  | 0, _ => some []
  | _ + 1, [] => some []
  | n + 1, c :: cs =>
    if c.utf8Size ≤ n + 1 then (beforeByte? (n + 1 - c.utf8Size) cs).map (c :: ·) else none

/-- The position of a byte offset: the end of the text for an offset past it or inside a
character. -/
def position (src : Text) (offset : Nat) : Position :=
  Position.afterText ((beforeByte? offset src).getD src)

end Text

end TemplateMarkup
