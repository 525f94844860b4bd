/-
# A place in a text

A cursor is a byte offset into a text together with what follows it.  Looking ahead is by bytes
too: a look that would start inside a character or past the end finds nothing.
-/
import TemplateMarkup.Text.Basic

namespace TemplateMarkup

/-- A byte offset and the text from there on. -/
structure Cursor where
  pos : Nat
  rest : Text

namespace Cursor

/-- The start of a text. -/
def start (t : Text) : Cursor := ⟨0, t⟩

/-- Nothing follows. -/
def atEnd (c : Cursor) : Bool := c.rest.isEmpty

/-- The next character. -/
def peek (c : Cursor) : Option Char := c.rest.head?

/-- The character that starts `n` bytes ahead. -/
def peekAt (c : Cursor) (n : Nat) : Option Char := (Text.dropBytes? n c.rest).bind List.head?

/-- The number of bytes of the next character. -/
def charSize (c : Cursor) : Nat := (c.peek.map Char.utf8Size).getD 0

/-- What follows begins with `t`. -/
def startsWith (c : Cursor) (t : Text) : Bool := t.beginsWith c.rest

/-- What follows in `n` bytes begins with `t`, letter case aside.  The empty text begins
everything that is not past the end. -/
def matchesAnyCase (c : Cursor) (n : Nat) (t : Text) : Bool :=
  if t.isEmpty then n ≤ c.rest.size
  else ((Text.dropBytes? n c.rest).bind (Text.afterAnyCase? t)).isSome

/-- The number of bytes before the first `t`. -/
def find (c : Cursor) (t : Text) : Option Nat :=
  if t.isEmpty then some 0
  else (Text.seek t.beginsWith c.rest).map fun n => Text.size (c.rest.take n)

/-- The byte offsets of every `t` in `rest`, which starts at offset `pos`; `skip` characters of
the last match are left. -/
def findAllFrom (t : Text) (pos skip : Nat) : Text → List Nat
  | [] => []
  | c :: cs =>
    if skip = 0 && t.beginsWith (c :: cs) then
      pos :: findAllFrom t (pos + c.utf8Size) (t.length - 1) cs
    else findAllFrom t (pos + c.utf8Size) (skip - 1) cs

/-- The byte offsets, from the cursor on, of every `t` that does not overlap the one before.
The empty text is found at every byte and at the end. -/
def findAll (c : Cursor) (t : Text) : List Nat :=
  if t.isEmpty then List.range (c.rest.size + 1) else findAllFrom t 0 0 c.rest

/-- The bytes of a character in UTF-8. -/
def bytesOf (c : Char) : List UInt8 := (String.ofList [c]).toUTF8.toList

/-- The number of bytes before the first byte `b`. -/
def findByte (c : Cursor) (b : UInt8) : Option Nat := (c.rest.flatMap bytesOf).findIdx? (· == b)

/-- The number of bytes of the longest beginning whose characters all satisfy `p`. -/
def run (c : Cursor) (p : Char → Bool) : Nat := Text.size (c.rest.takeWhile p)

/-- The cursor `n` bytes further on. -/
def advance (c : Cursor) (n : Nat) : Cursor := ⟨c.pos + n, (Text.dropBytes? n c.rest).getD []⟩

end Cursor

end TemplateMarkup
