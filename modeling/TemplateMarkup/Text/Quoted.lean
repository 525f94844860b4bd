/-
# Quoted text

A text written between double quotes for inspection: quotes and backslashes are escaped, the
usual controls have their letters, and every other character that does not print on its own is
written by its number in hexadecimal.
-/
import TemplateMarkup.Text.Basic
import TemplateMarkup.Text.Printable

namespace TemplateMarkup

namespace Text

/-- A digit above nine is a letter. -/
def digit (upper : Bool) (d : Nat) : Char :=
  if d < 10 then Char.ofNat ('0'.toNat + d)
  else Char.ofNat ((if upper then 'A' else 'a').toNat + (d - 10))

/-- The hexadecimal digits of a number, without leading zeros. -/
def hex (upper : Bool) (n : Nat) : Text :=
  if n < 16 then [digit upper n] else hex upper (n / 16) ++ [digit upper (n % 16)]
termination_by n

/-- A character as it is written between quotes. -/
def quoteChar (c : Char) : Text :=
  if c = '\x00' then ['\\', '0']
  else if c = '\t' then ['\\', 't']
  else if c = '\r' then ['\\', 'r']
  else if c = '\n' then ['\\', 'n']
  else if c = '"' then ['\\', '"']
  else if c = '\\' then ['\\', '\\']
  else if extendsGrapheme c || !isPrintable c then
    ['\\', 'u', '{'] ++ hex false c.toNat ++ ['}']
  else [c]

/-- The text between quotes. -/
def quoted (t : Text) : Text := '"' :: t.flatMap quoteChar ++ ['"']

end Text

end TemplateMarkup
