/-
# Escaped text

Escapes have different lengths and all begin with a backslash, and what follows one may be anything.
Still what is written on one line is written for no other text: the characters after a backslash say
which escape it is and where it ends (`unescapeChar?_escapeChar`), so the text is read off its
escapes one by one.

A double quote stands behind an odd number of backslashes.  What carries the proof is that an escape
ends in an even number of them, two or none, so that whether the number at the end of a text is odd
does not change when escapes are put before it (`odd_backslashesAtEnd_append`).

A snapshot shows the source on a line of its own, which therefore tells the source.
-/
import Mathlib.Algebra.Ring.Parity
import Mathlib.Data.List.DropRight
import TemplateMarkup.Proofs.Template.Words
import TemplateMarkup.Proofs.Tree.Outlined
import TemplateMarkup.Snapshot

namespace TemplateMarkup

namespace Text

/-! ## 1. Escapes -/

/-- What may stand behind a backslash, with the character that the two stand for. -/
def escapeMarks : List (Char × Char) :=
  [('\\', '\\'), ('"', '"'), ('n', '\n'), ('r', '\r'), ('t', '\t')]

/-- **What an escape is**: the character itself, a backslash and a mark, or a backslash and a number
of two digits. -/
theorem escapeChar_cases (c : Char) :
    (escapeChar c = [c] ∧ ' ' ≤ c ∧ c ≠ '"' ∧ c ≠ '\\')
      ∨ (∃ mark, (mark, c) ∈ escapeMarks ∧ escapeChar c = ['\\', mark])
      ∨ (c.toNat < 32 ∧ escapeChar c
        = ['\\', 'u', '{', digit true (c.toNat / 16), digit true (c.toNat % 16), '}']) := by
  unfold escapeChar
  split
  · next h => exact .inr (.inl ⟨'\\', by simp [escapeMarks, h], rfl⟩)
  next hback =>
  split
  · next h => exact .inr (.inl ⟨'"', by simp [escapeMarks, h], rfl⟩)
  next hquote =>
  split
  · next h => exact .inr (.inl ⟨'n', by simp [escapeMarks, h], rfl⟩)
  split
  · next h => exact .inr (.inl ⟨'r', by simp [escapeMarks, h], rfl⟩)
  split
  · next h => exact .inr (.inl ⟨'t', by simp [escapeMarks, h], rfl⟩)
  split
  · next h => exact .inr (.inr ⟨h, rfl⟩)
  · next h => exact .inl ⟨rfl, Char.not_lt.mp h, hquote, hback⟩

/-! ## 2. Reading an escape -/

/-- The number that a digit stands for. -/
def digitValue (c : Char) : Nat :=
  if c < 'A' then c.toNat - '0'.toNat else c.toNat - 'A'.toNat + 10

theorem digitValue_digit : ∀ d < 16, digitValue (digit true d) = d := by decide

/-- The character that a text on one line begins with, and what is left of the text. -/
def unescapeChar? : Text → Option (Char × Text)
  | [] => none
  | '\\' :: '\\' :: t => some ('\\', t)
  | '\\' :: '"' :: t => some ('"', t)
  | '\\' :: 'n' :: t => some ('\n', t)
  | '\\' :: 'r' :: t => some ('\r', t)
  | '\\' :: 't' :: t => some ('\t', t)
  | '\\' :: 'u' :: '{' :: a :: b :: '}' :: t =>
    some (Char.ofNat (16 * digitValue a + digitValue b), t)
  | c :: t => some (c, t)

theorem unescapeChar?_of_ne {c : Char} (h : c ≠ '\\') (t : Text) :
    unescapeChar? (c :: t) = some (c, t) := by
  rw [unescapeChar?.eq_def]
  split <;> simp_all

/-- **An escape is read back, whatever follows it.** -/
theorem unescapeChar?_escapeChar (c : Char) (t : Text) :
    unescapeChar? (escapeChar c ++ t) = some (c, t) := by
  obtain ⟨he, -, -, hc⟩ | ⟨mark, hmark, he⟩ | ⟨hlt, he⟩ := escapeChar_cases c
  · rw [he]
    exact unescapeChar?_of_ne hc t
  · have hread : ∀ p ∈ escapeMarks, unescapeChar? ('\\' :: p.1 :: t) = some (p.2, t) := by
      simp [escapeMarks, unescapeChar?]
    rw [he]
    exact hread _ hmark
  · have hvalue : 16 * digitValue (digit true (c.toNat / 16))
        + digitValue (digit true (c.toNat % 16)) = c.toNat := by
      rw [digitValue_digit _ (by omega), digitValue_digit _ (by omega)]
      omega
    rw [he]
    simp only [List.cons_append, List.nil_append, unescapeChar?, hvalue, Char.ofNat_toNat]

theorem escapeChar_ne_nil (c : Char) : escapeChar c ≠ [] := by
  obtain ⟨h, -⟩ | ⟨mark, -, h⟩ | ⟨-, h⟩ := escapeChar_cases c <;>
    exact h ▸ List.cons_ne_nil _ _

@[simp] theorem escaped_nil : escaped [] = [] := rfl

@[simp] theorem escaped_cons (c : Char) (t : Text) :
    escaped (c :: t) = escapeChar c ++ escaped t := rfl

/-- **No two texts are written alike.** -/
theorem escaped_inj : ∀ {s t : Text}, escaped s = escaped t → s = t
  | [], [], _ => rfl
  | [], d :: t, h => absurd (List.append_eq_nil_iff.mp h.symm).1 (escapeChar_ne_nil d)
  | c :: s, [], h => absurd (List.append_eq_nil_iff.mp h).1 (escapeChar_ne_nil c)
  | c :: s, d :: t, h => by
    have hread := congrArg unescapeChar? h
    rw [escaped_cons, escaped_cons, unescapeChar?_escapeChar, unescapeChar?_escapeChar] at hread
    obtain ⟨rfl, hrest⟩ := Prod.mk.inj (Option.some.inj hread)
    rw [escaped_inj hrest]

/-! ## 3. What stands in an escaped text -/

theorem le_digit : ∀ d < 16, ' ' ≤ digit true d := by decide

theorem digit_ne_quote : ∀ d < 16, digit true d ≠ '"' := by decide

/-- No escape has a control character of ASCII. -/
theorem le_of_mem_escapeChar {c d : Char} (h : d ∈ escapeChar c) : ' ' ≤ d := by
  obtain ⟨he, hle, -⟩ | ⟨mark, hmark, he⟩ | ⟨hlt, he⟩ := escapeChar_cases c <;> rw [he] at h
  · rwa [List.mem_singleton.mp h]
  · have hmarks : ∀ p ∈ escapeMarks, ' ' ≤ p.1 := by simp [escapeMarks]
    rcases List.mem_cons.mp h with rfl | h
    · exact hmarks _ List.mem_cons_self
    · rw [List.mem_singleton.mp h]
      exact hmarks _ hmark
  · simp only [List.mem_cons, List.not_mem_nil, or_false] at h
    rcases h with rfl | rfl | rfl | rfl | rfl | rfl
    · decide
    · decide
    · decide
    · exact le_digit _ (by omega)
    · exact le_digit _ (by omega)
    · decide

/-! ## 4. Backslashes before a quote -/

/-- The number of backslashes that a text ends in. -/
def backslashesAtEnd (t : Text) : Nat := (t.rtakeWhile (· = '\\')).length

theorem backslashesAtEnd_concat (t : Text) (c : Char) :
    backslashesAtEnd (t ++ [c]) = if c = '\\' then backslashesAtEnd t + 1 else 0 := by
  rw [backslashesAtEnd, List.rtakeWhile_concat]
  by_cases h : c = '\\' <;> simp [h, backslashesAtEnd]

/-- An escape ends in two backslashes or in none. -/
theorem even_backslashesAtEnd_escapeChar (c : Char) : Even (backslashesAtEnd (escapeChar c)) := by
  obtain ⟨he, -, -, hc⟩ | ⟨mark, -, he⟩ | ⟨-, he⟩ := escapeChar_cases c <;> rw [he]
  · have hend := backslashesAtEnd_concat [] c
    rw [List.nil_append, if_neg hc] at hend
    exact hend ▸ Even.zero
  · have hend := backslashesAtEnd_concat ['\\'] mark
    rw [List.singleton_append] at hend
    rw [hend]
    split <;> decide
  · have hend := backslashesAtEnd_concat
      ['\\', 'u', '{', digit true (c.toNat / 16), digit true (c.toNat % 16)] '}'
    rw [if_neg (by decide)] at hend
    exact hend ▸ Even.zero

/-- What ends in an even number of backslashes does not change what is said of a text after it. -/
theorem odd_backslashesAtEnd_append {s : Text} (hs : Even (backslashesAtEnd s)) (t : Text) :
    Odd (backslashesAtEnd (s ++ t)) ↔ Odd (backslashesAtEnd t) := by
  induction t using List.reverseRecOn with
  | nil =>
    rw [List.append_nil]
    exact iff_of_false (Nat.not_odd_iff_even.mpr hs) (by decide)
  | append_singleton t c ih =>
    rw [← List.append_assoc, backslashesAtEnd_concat, backslashesAtEnd_concat]
    split
    · rw [Nat.odd_add_one, Nat.odd_add_one, ih]
    · exact Iff.rfl

/-- In an escape a quote stands behind one backslash. -/
theorem odd_backslashesAtEnd_of_escapeChar {c : Char} {before after : Text}
    (h : escapeChar c = before ++ '"' :: after) : Odd (backslashesAtEnd before) := by
  have hmem : '"' ∈ escapeChar c := h ▸ List.mem_append_right _ List.mem_cons_self
  obtain ⟨he, -, hc, -⟩ | ⟨mark, -, he⟩ | ⟨hlt, he⟩ := escapeChar_cases c <;>
    rw [he] at h hmem
  · exact absurd (List.mem_singleton.mp hmem).symm hc
  · cases before with
    | nil => simp at h
    | cons d before =>
      obtain ⟨rfl, hrest⟩ := List.cons.inj h
      obtain ⟨rfl, -⟩ | ⟨-, hnil⟩ := List.append_eq_singleton_iff.mp hrest.symm
      · decide
      · exact absurd hnil (List.cons_ne_nil _ _)
  · simp only [List.mem_cons, List.not_mem_nil, or_false] at hmem
    rcases hmem with h | h | h | h | h | h
    · exact absurd h (by decide)
    · exact absurd h (by decide)
    · exact absurd h (by decide)
    · exact absurd h.symm (digit_ne_quote _ (by omega))
    · exact absurd h.symm (digit_ne_quote _ (by omega))
    · exact absurd h (by decide)

/-- **A quote stands behind an odd number of backslashes.** -/
theorem odd_backslashesAtEnd_of_escaped : ∀ {t before after : Text},
    escaped t = before ++ '"' :: after → Odd (backslashesAtEnd before)
  | [], before, after, h => by simp at h
  | c :: t, before, after, h => by
    rw [escaped_cons] at h
    rcases List.append_eq_append_iff.mp h with ⟨u, rfl, hu⟩ | ⟨u, hu, hrest⟩
    · exact (odd_backslashesAtEnd_append (even_backslashesAtEnd_escapeChar c) u).mpr
        (odd_backslashesAtEnd_of_escaped hu)
    · cases u with
      | nil =>
        -- no escaped text begins with a quote
        have hfirst : Odd (backslashesAtEnd []) := odd_backslashesAtEnd_of_escaped hrest.symm
        simp [backslashesAtEnd] at hfirst
      | cons d u =>
        rw [List.cons_append] at hrest
        obtain ⟨rfl, -⟩ := List.cons.inj hrest
        exact odd_backslashesAtEnd_of_escapeChar hu

end Text

/-! ## 5. Lines of a snapshot -/

theorem trimEnd_lineText (line : Nat × Label) : Text.trimEnd (lineText line) = lineText line := by
  have hlast : ∀ c ∈ (lineText line).getLast?, isBlank c = false := by
    intro c hc
    rw [lineText, List.getLast?_append_of_ne_nil _ line.2.name_ne_nil] at hc
    exact Label.not_isBlank_of_mem_name (List.mem_of_getLast? hc)
  have htrim : Text.trimEnd (lineText line ++ []) = lineText line :=
    Text.trimEnd_append_blanks rfl hlast
  rwa [List.append_nil] at htrim

/-- A snapshot shows all lines of the printed outline. -/
theorem outlineLines_shape (nodes : List Node) :
    Text.outlineLines (shape nodes) = (preorder 0 nodes).map lineText := by
  have htrim : Text.trimEnd ∘ lineText = lineText := funext trimEnd_lineText
  have hkept : ∀ line ∈ (preorder 0 nodes).map lineText, (!line.isEmpty) = true := by
    intro line h
    obtain ⟨l, -, rfl⟩ := List.mem_map.mp h
    have := l.2.name_ne_nil
    simp [lineText, this]
  rw [Text.outlineLines, pieces_shape, List.map_append, List.map_map, htrim, List.filter_append,
    List.filter_eq_self.mpr hkept]
  exact List.append_nil _

theorem head?_lineText_ne (line : Nat × Label) : (lineText line).head? ≠ some 's' := by
  obtain ⟨depth, label⟩ := line
  cases depth with
  | zero => cases label <;> decide
  | succ depth => simp [lineText, Nat.mul_succ, List.replicate_succ]

namespace Snapshot

/-- The line that shows the source. -/
def sourceLine (s : Snapshot) : Text :=
  "source \"".toList ++ Text.escaped (source s.template.nodes) ++ ['"']

theorem sourceLine_mem_lines (s : Snapshot) : s.sourceLine ∈ s.lines :=
  List.mem_append_left _ (List.mem_append_right _ List.mem_cons_self)

/-- No other line of a snapshot begins as the one that shows the source. -/
theorem eq_sourceLine_of_mem {s : Snapshot} {line : Text} (h : line ∈ s.lines)
    (hs : line.head? = some 's') : line = s.sourceLine := by
  rw [lines, outlineLines_shape, List.mem_append, List.mem_append, List.mem_singleton] at h
  rcases h with (h | h) | h
  · obtain ⟨l, -, rfl⟩ := List.mem_map.mp h
    exact absurd hs (head?_lineText_ne l)
  · exact h
  · obtain ⟨d, -, rfl⟩ := List.mem_map.mp h
    cases hs

theorem source_eq_of_sourceLine_eq {s s' : Snapshot} (h : s.sourceLine = s'.sourceLine) :
    source s.template.nodes = source s'.template.nodes :=
  Text.escaped_inj (List.append_cancel_left (List.append_cancel_right h))

end Snapshot

/-- **A text on one line tells the text.**  No two texts are written alike, no control character of
ASCII is written, and each quote that is written stands behind an odd number of backslashes.  Every
snapshot shows its source on a line, and a snapshot that has the line has the source. -/
theorem escaped_determines_source :
    Function.Injective Text.escaped
      ∧ (∀ t : Text, ∀ c ∈ Text.escaped t, ' ' ≤ c)
      ∧ (∀ t before after : Text, Text.escaped t = before ++ '"' :: after →
        Odd (before.rtakeWhile (· = '\\')).length)
      ∧ (∀ s : Snapshot, s.sourceLine ∈ s.lines)
      ∧ ∀ s s' : Snapshot, s.sourceLine ∈ s'.lines →
        source s.template.nodes = source s'.template.nodes := by
  refine ⟨fun _ _ => Text.escaped_inj, fun t c h => ?_, fun _ _ _ =>
    Text.odd_backslashesAtEnd_of_escaped, Snapshot.sourceLine_mem_lines, fun s s' h => ?_⟩
  · obtain ⟨d, -, hd⟩ := List.mem_flatMap.mp h
    exact Text.le_of_mem_escapeChar hd
  · exact Snapshot.source_eq_of_sourceLine_eq (Snapshot.eq_sourceLine_of_mem h rfl)

/-- A snapshot of a template that is a text, under a name. -/
def textSnapshot (id : UInt32) (t : Text) : Snapshot :=
  ⟨⟨⟨id⟩, default, [], .html, [], [.raw ⟨id⟩ default t]⟩, []⟩

/-- A line break is not written as a backslash and an `n` are; the quote of a backslash and a quote
stands behind three backslashes; and `a"` is shown alike under two names. -/
theorem escaped_determines_source_backslashQuote :
    Text.escaped ['\n'] ≠ Text.escaped ['\\', 'n']
      ∧ Text.escaped ['\\', '"'] = ['\\', '\\', '\\'] ++ '"' :: []
      ∧ Odd (List.rtakeWhile (· = '\\') ['\\', '\\', '\\']).length
      ∧ (textSnapshot 1 ['a', '"']).sourceLine ∈ (textSnapshot 2 ['a', '"']).lines
      ∧ source (textSnapshot 1 ['a', '"']).template.nodes
        = source (textSnapshot 2 ['a', '"']).template.nodes := by
  obtain ⟨hinj, -, hquote, -, hline⟩ := escaped_determines_source
  have hescaped : Text.escaped ['\\', '"'] = ['\\', '\\', '\\'] ++ '"' :: [] := rfl
  have hmem : (textSnapshot 1 ['a', '"']).sourceLine ∈ (textSnapshot 2 ['a', '"']).lines :=
    Snapshot.sourceLine_mem_lines (textSnapshot 2 ['a', '"'])
  exact ⟨hinj.ne (by decide), hescaped, hquote _ _ _ hescaped, hmem, hline _ _ hmem⟩

end TemplateMarkup
