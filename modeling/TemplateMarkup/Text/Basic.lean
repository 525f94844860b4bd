/-
# Text, and the bytes it takes

A text is a list of characters.  Every offset and every length that the library shows is a
number of bytes in UTF-8, so this module gives the bytes of a text (`size`), the part of a
text from a byte offset on (`dropBytes?`), and the searches that the readers of templates and
of html are written with: all of them walk the list, and none keeps an index into it.

`seek` is the one search: the number of characters before the first place where a condition
holds of what follows.  `of_seek_eq_some` says that the condition holds there, and
`eq_append_of_after?` that a text which begins with another is it and the rest.
-/
namespace TemplateMarkup

/-- Text, one character at a time. -/
abbrev Text := List Char

namespace Text

/-! ## 1. Bytes -/

/-- The number of bytes of the text in UTF-8. -/
def size : Text → Nat
  | [] => 0
  | c :: cs => c.utf8Size + size cs

@[simp] theorem size_nil : size [] = 0 := rfl

@[simp] theorem size_cons (c : Char) (cs : Text) : size (c :: cs) = c.utf8Size + size cs := rfl

@[simp] theorem size_append : ∀ s t : Text, size (s ++ t) = size s + size t
  | [], t => by simp
  | c :: s, t => by simp [size_append s t, Nat.add_assoc]

/-- The text from byte offset `n` on.  There is none when the offset lies past the end or
inside a character. -/
def dropBytes? : Nat → Text → Option Text
  | 0, t => some t
  | _ + 1, [] => none
  | n + 1, c :: cs => if c.utf8Size ≤ n + 1 then dropBytes? (n + 1 - c.utf8Size) cs else none

/-- The characters that end at byte offset `n` or before it. -/
def takeBytes : Nat → Text → Text
  | _, [] => []
  | n, c :: cs => if c.utf8Size ≤ n then c :: takeBytes (n - c.utf8Size) cs else []

/-! ## 2. What a text begins with -/

/-- What follows `lead` in a text that begins with it. -/
def after? : Text → Text → Option Text
  | [], t => some t
  | _ :: _, [] => none
  | l :: lead, c :: cs => if l = c then after? lead cs else none

/-- The text begins with `lead`. -/
def beginsWith (lead t : Text) : Bool := (after? lead t).isSome

theorem eq_append_of_after? : ∀ {lead t rest : Text}, after? lead t = some rest → t = lead ++ rest
  | [], _, _, h => by simpa [after?] using h
  | _ :: _, [], _, h => by simp [after?] at h
  | l :: lead, c :: cs, rest, h => by
    simp only [after?] at h
    split at h
    · next hc => rw [hc, eq_append_of_after? h]; rfl
    · simp at h

/-- Two characters are the same letter, where `A` to `Z` count as `a` to `z`. -/
def sameLetter (a b : Char) : Bool := a.toLower == b.toLower

/-- What follows `lead` in a text that begins with it, letter case aside. -/
def afterAnyCase? : Text → Text → Option Text
  | [], t => some t
  | _ :: _, [] => none
  | l :: lead, c :: cs => if sameLetter l c then afterAnyCase? lead cs else none

/-- Two texts are the same, letter case aside. -/
def sameLetters (s t : Text) : Bool := afterAnyCase? s t == some []

/-! ## 3. Searching -/

/-- The number of characters before the first place where `here` holds of what follows. -/
def seek (here : Text → Bool) : Text → Option Nat
  | [] => none
  | c :: cs => if here (c :: cs) then some 0 else (seek here cs).map (· + 1)

theorem of_seek_eq_some {here : Text → Bool} : ∀ {t : Text} {n : Nat}, seek here t = some n →
    here (t.drop n) = true ∧ n < t.length
  | [], _, h => by simp [seek] at h
  | c :: cs, n, h => by
    simp only [seek] at h
    split at h
    · next hc => cases h; exact ⟨hc, by simp⟩
    · obtain ⟨m, hm, rfl⟩ := Option.map_eq_some_iff.1 h
      have ih := of_seek_eq_some hm
      exact ⟨by simpa using ih.1, by simpa using ih.2⟩

/-- The parts before and after the first `mark`. -/
def cut? (mark t : Text) : Option (Text × Text) :=
  (seek (beginsWith mark) t).map fun n => (t.take n, t.drop (n + mark.length))

/-- The length of the longest beginning whose characters all satisfy `p`. -/
def run (p : Char → Bool) : Text → Nat
  | [] => 0
  | c :: cs => if p c then run p cs + 1 else 0

/-! ## 4. Lines -/

/-- The pieces between the line breaks.  A text without one is a single piece. -/
def pieces : Text → List Text
  | [] => [[]]
  | c :: cs =>
    match pieces cs with
    | [] => [[c]]
    | p :: ps => if c = '\n' then [] :: p :: ps else (c :: p) :: ps

end Text

end TemplateMarkup
