/-
# Tokens

A template is text and commands in turn.  A command starts at a brace and ends at the first
closing brace that is not between quotes; text is what stands between commands.

`Token.scan` cuts the source, up to a command that does not end or that cannot be read: it
returns the tokens before that command together with the error.  `length_of_splitCommand?`
says that the scan moves on at every command.
-/
import TemplateMarkup.Template.Command

namespace TemplateMarkup

/-- Text or a command, and where it stands. -/
inductive Token
  | text (text : Text) (location : Span)
  | command (command : Command) (location : Span)

/-- The text of a command, up to its closing brace, and the source after that brace.  The
first argument is the quote that is open. -/
def splitCommand? : Option Char → Text → Option (Text × Text)
  | _, [] => none
  | some quote, c :: cs =>
    (splitCommand? (if c = quote then none else some quote) cs).map fun r => (c :: r.1, r.2)
  | none, c :: cs =>
    if c = '}' then some ([], cs)
    else
      (splitCommand? (if c = '\'' ∨ c = '"' then some c else none) cs).map
        fun r => (c :: r.1, r.2)

theorem length_of_splitCommand? : ∀ {quote : Option Char} {src inner rest : Text},
    splitCommand? quote src = some (inner, rest) → src.length = inner.length + rest.length + 1
  | _, [], _, _, h => by cases ‹Option Char› <;> simp [splitCommand?] at h
  | some quote, c :: cs, _, _, h => by
    simp only [splitCommand?, Option.map_eq_some_iff, Prod.mk.injEq] at h
    obtain ⟨⟨i, r⟩, hr, rfl, rfl⟩ := h
    have := length_of_splitCommand? hr
    simp only [List.length_cons]
    omega
  | none, c :: cs, inner, rest, h => by
    simp only [splitCommand?] at h
    split at h
    · cases h; simp
    · simp only [Option.map_eq_some_iff, Prod.mk.injEq] at h
      obtain ⟨⟨i, r⟩, hr, rfl, rfl⟩ := h
      have := length_of_splitCommand? hr
      simp only [List.length_cons]
      omega

namespace Token

/-- The tokens of the source from byte offset `pos` on, and the error that stopped the scan. -/
def scan (pos : Nat) (src : Text) : List Token × Option SyntaxError :=
  match src with
  | [] => ([], none)
  | c :: cs =>
    if c = '{' then
      match h : splitCommand? none cs with
      | none => ([], some ⟨.unterminatedCommand, pos⟩)
      | some (inner, rest) =>
        match Command.readAt (Text.trim inner) pos with
        | .error e => ([], some e)
        | .ok read =>
          let location : Span := ⟨pos, pos + Text.size inner + 2, by omega⟩
          let later := scan location.stop rest
          (.command read location :: later.1, later.2)
    else
      let text := c :: cs.takeWhile (· != '{')
      let location : Span := ⟨pos, pos + Text.size text, by omega⟩
      let later := scan location.stop (cs.dropWhile (· != '{'))
      (.text text location :: later.1, later.2)
termination_by src.length
decreasing_by
  · have := length_of_splitCommand? h
    simp only [List.length_cons]
    omega
  · have := (List.dropWhile_sublist (p := (· != '{')) (l := cs)).length_le
    simp only [List.length_cons]
    omega

end Token

end TemplateMarkup
