/-
# Escaped text

A text written on one line: backslashes, double quotes, line breaks and tabs have an escape of
two characters, and the other control characters of ASCII are written by their number.
Everything else stands for itself.
-/
import TemplateMarkup.Text.Quoted

namespace TemplateMarkup

namespace Text

/-- A character as it is written on one line.  Numbers have at least two digits. -/
def escapeChar (c : Char) : Text :=
  if c = '\\' then ['\\', '\\']
  else if c = '"' then ['\\', '"']
  else if c = '\n' then ['\\', 'n']
  else if c = '\r' then ['\\', 'r']
  else if c = '\t' then ['\\', 't']
  else if c < ' ' then
    ['\\', 'u', '{', digit true (c.toNat / 16), digit true (c.toNat % 16), '}']
  else [c]

/-- The text on one line. -/
def escaped (t : Text) : Text := t.flatMap escapeChar

end Text

end TemplateMarkup
