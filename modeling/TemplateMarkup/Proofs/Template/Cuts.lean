/-
# How a source is cut

`CutsInto` says, without the scan, which tokens a source is cut into: text that no command stands
in, up to a command or the end, and commands that can be read, each up to its first closing brace
outside quotes.  `Unbraced` says that a closing brace comes after the text of a command and not
before: outside its literals the text has none, and every literal is closed.

The scan gives the tokens of a cut and no error, or there is no cut (`Token.scan_eq_iff`).
-/
import Mathlib.Data.List.TakeWhile
import TemplateMarkup.Template.Token
import TemplateMarkup.Tree.Source

namespace TemplateMarkup

/-! ## 1. The text of a command -/

/-- A quote of a literal. -/
def isQuote (c : Char) : Prop := c = '\'' ∨ c = '"'

/-- Text with closed literals and, outside them, no closing brace. -/
inductive Unbraced : Text → Prop
  | nil : Unbraced []
  | char {c : Char} {t : Text} : c ≠ '}' → ¬ isQuote c → Unbraced t → Unbraced (c :: t)
  | literal {q : Char} {inner t : Text} :
    isQuote q → q ∉ inner → Unbraced t → Unbraced (q :: (inner ++ q :: t))

/-- The same where a literal may be open: up to its closing quote anything may stand. -/
def UnbracedAfter : Option Char → Text → Prop
  | none, t => Unbraced t
  | some q, t => ∃ inner t', t = inner ++ q :: t' ∧ q ∉ inner ∧ Unbraced t'

/-- A quote opens a literal. -/
theorem splitCommand?_quote {q : Char} (hq : isQuote q) (src : Text) :
    splitCommand? none (q :: src) = (splitCommand? (some q) src).map fun r => (q :: r.1, r.2) := by
  have hne : q ≠ '}' := by rcases hq with rfl | rfl <;> decide
  rw [splitCommand?, if_neg hne, if_pos (by exact hq)]

/-- Any other character but a closing brace stands for itself. -/
theorem splitCommand?_char {c : Char} (hc : c ≠ '}') (hq : ¬ isQuote c) (src : Text) :
    splitCommand? none (c :: src) = (splitCommand? none src).map fun r => (c :: r.1, r.2) := by
  rw [splitCommand?, if_neg hc, if_neg (by exact hq)]

/-- In an open literal a command ends behind the closing quote. -/
theorem splitCommand?_literal {q : Char} : ∀ {inner : Text} (src : Text), q ∉ inner →
    splitCommand? (some q) (inner ++ q :: src)
      = (splitCommand? none src).map fun r => (inner ++ q :: r.1, r.2)
  | [], src, _ => by simp [splitCommand?]
  | c :: inner, src, h => by
    have hc : c ≠ q := fun e => h (e ▸ List.mem_cons_self)
    have hi : q ∉ inner := fun e => h (List.mem_cons_of_mem _ e)
    rw [List.cons_append, splitCommand?, if_neg hc, splitCommand?_literal src hi, Option.map_map]
    rfl

/-- Text of this form is cut off at the brace after it. -/
theorem splitCommand?_of_unbraced {inner : Text} (h : Unbraced inner) (rest : Text) :
    splitCommand? none (inner ++ '}' :: rest) = some (inner, rest) := by
  induction h with
  | nil => rfl
  | char hc hq _ ih => rw [List.cons_append, splitCommand?_char hc hq, ih]; rfl
  | literal hq hi _ ih =>
    rw [List.cons_append, splitCommand?_quote hq, List.append_assoc, List.cons_append,
      splitCommand?_literal _ hi, ih]
    rfl

/-- What is cut off is of this form. -/
theorem unbraced_of_splitCommand? : ∀ {quote : Option Char} {src inner rest : Text},
    splitCommand? quote src = some (inner, rest) →
    src = inner ++ '}' :: rest ∧ UnbracedAfter quote inner
  | none, [], _, _, h => by cases h
  | some _, [], _, _, h => by cases h
  | some q, c :: cs, _, _, h => by
    rw [splitCommand?, Option.map_eq_some_iff] at h
    obtain ⟨⟨inner, rest⟩, hr, rfl, rfl⟩ := h
    obtain ⟨rfl, hu⟩ := unbraced_of_splitCommand? hr
    refine ⟨rfl, ?_⟩
    by_cases hc : c = q
    · rw [if_pos hc] at hu
      exact ⟨[], inner, by rw [hc]; rfl, List.not_mem_nil, hu⟩
    · rw [if_neg hc] at hu
      obtain ⟨lit, t, rfl, hlit, ht⟩ := hu
      refine ⟨c :: lit, t, rfl, fun hm => ?_, ht⟩
      rcases List.mem_cons.mp hm with rfl | hm
      · exact hc rfl
      · exact hlit hm
  | none, c :: cs, inner, rest, h => by
    by_cases hc : c = '}'
    · subst hc
      cases h
      exact ⟨rfl, .nil⟩
    by_cases hq : isQuote c
    · rw [splitCommand?_quote hq, Option.map_eq_some_iff] at h
      obtain ⟨⟨inner, rest⟩, hr, he⟩ := h
      cases he
      obtain ⟨rfl, lit, t, rfl, hlit, ht⟩ := unbraced_of_splitCommand? hr
      exact ⟨rfl, .literal hq hlit ht⟩
    · rw [splitCommand?_char hc hq, Option.map_eq_some_iff] at h
      obtain ⟨⟨inner, rest⟩, hr, he⟩ := h
      cases he
      obtain ⟨rfl, hu⟩ := unbraced_of_splitCommand? hr
      exact ⟨rfl, .char hc hq hu⟩

/-- **A command is the text before the first closing brace that is not in a literal.** -/
theorem splitCommand?_eq_some {src inner rest : Text} :
    splitCommand? none src = some (inner, rest) ↔ src = inner ++ '}' :: rest ∧ Unbraced inner :=
  ⟨unbraced_of_splitCommand?, fun ⟨hsrc, hu⟩ => hsrc ▸ splitCommand?_of_unbraced hu rest⟩

/-- This can be computed. -/
theorem unbraced_iff {inner : Text} :
    Unbraced inner ↔ splitCommand? none (inner ++ ['}']) = some (inner, []) := by
  rw [splitCommand?_eq_some]
  exact ⟨fun h => ⟨rfl, h⟩, And.right⟩

instance (inner : Text) : Decidable (Unbraced inner) := decidable_of_iff _ unbraced_iff.symm

/-! ## 2. The tokens of a source -/

/-- The source, from a byte offset on, is cut into the tokens. -/
inductive CutsInto : Nat → Text → List Token → Prop
  | nil {pos : Nat} : CutsInto pos [] []
  | text {pos : Nat} {t rest : Text} {tokens : List Token} (location : Span) :
    location.start = pos → location.stop = pos + Text.size t →
    t ≠ [] → '{' ∉ t → rest.head?.all (· == '{') = true →
    CutsInto location.stop rest tokens →
    CutsInto pos (t ++ rest) (.text t location :: tokens)
  | command {pos : Nat} {inner rest : Text} {command : Command} {tokens : List Token}
      (location : Span) :
    location.start = pos → location.stop = pos + Text.size inner + 2 →
    Unbraced inner → Command.read (Text.trim inner) = .ok command →
    CutsInto location.stop rest tokens →
    CutsInto pos (braced inner ++ rest) (.command command location :: tokens)

namespace Token

/-- Text is cut off before a command. -/
theorem scan_text {pos : Nat} {t rest : Text} {location : Span} (hstart : location.start = pos)
    (hstop : location.stop = pos + Text.size t) (hne : t ≠ []) (ht : '{' ∉ t)
    (hrest : rest.head?.all (· == '{') = true) :
    scan pos (t ++ rest)
      = (.text t location :: (scan location.stop rest).1, (scan location.stop rest).2) := by
  obtain ⟨start, stop, hle⟩ := location
  obtain rfl : start = pos := hstart
  obtain rfl : stop = start + Text.size t := hstop
  cases t with
  | nil => exact absurd rfl hne
  | cons c cs =>
    have hc : c ≠ '{' := fun e => ht (e ▸ List.mem_cons_self)
    have hcs : ∀ d ∈ cs, (d != '{') = true := fun d hd =>
      bne_iff_ne.mpr fun e => ht (e ▸ List.mem_cons_of_mem _ hd)
    have htake : (cs ++ rest).takeWhile (· != '{') = cs := by
      rw [List.takeWhile_append_of_pos hcs]
      cases rest with
      | nil => simp
      | cons d ds => obtain rfl : d = '{' := by simpa using hrest
                     simp
    have hdrop : (cs ++ rest).dropWhile (· != '{') = rest := by
      rw [List.dropWhile_append_of_pos hcs]
      cases rest with
      | nil => rfl
      | cons d ds => obtain rfl : d = '{' := by simpa using hrest
                     simp
    rw [List.cons_append, scan, if_neg hc]
    simp only [htake, hdrop]

/-- A command is cut off behind its closing brace. -/
theorem scan_command {pos : Nat} {inner : Text} {command : Command} {location : Span}
    (hstart : location.start = pos) (hstop : location.stop = pos + Text.size inner + 2)
    (hu : Unbraced inner) (hread : Command.read (Text.trim inner) = .ok command) (rest : Text) :
    scan pos (braced inner ++ rest)
      = (.command command location :: (scan location.stop rest).1,
          (scan location.stop rest).2) := by
  obtain ⟨start, stop, hle⟩ := location
  obtain rfl : start = pos := hstart
  obtain rfl : stop = start + Text.size inner + 2 := hstop
  have hsplit := splitCommand?_of_unbraced hu rest
  have hbraced : braced inner ++ rest = '{' :: (inner ++ '}' :: rest) := by simp [braced]
  rw [hbraced, scan, if_pos rfl]
  split
  · next hnone => rw [hsplit] at hnone; cases hnone
  · next inner' rest' hsome =>
    rw [hsplit] at hsome
    cases hsome
    rw [Command.readAt, hread]

/-- A scan without error has cut the source. -/
theorem cutsInto_scan (pos : Nat) (src : Text) (h : (scan pos src).2 = none) :
    CutsInto pos src (scan pos src).1 := by
  fun_induction scan pos src with
  | case1 pos => exact .nil
  | case2 pos cs hsplit => cases h
  | case3 pos cs inner rest hsplit e hread => cases h
  | case4 pos cs inner rest hsplit command hread location later ih =>
    obtain ⟨rfl, hu⟩ := splitCommand?_eq_some.mp hsplit
    have hread : Command.read (Text.trim inner) = .ok command := by
      unfold Command.readAt at hread
      split at hread
      · next hr => cases hread; exact hr
      · cases hread
    have hsrc : '{' :: (inner ++ '}' :: rest) = braced inner ++ rest := by simp [braced]
    rw [hsrc]
    exact .command location rfl rfl hu hread (ih h)
  | case5 pos c cs hc text location later ih =>
    have hsrc : c :: cs = text ++ cs.dropWhile (· != '{') := by
      simp [text, List.takeWhile_append_dropWhile]
    have ht : '{' ∉ text := by
      intro hm
      rcases List.mem_cons.mp hm with e | hm
      · exact hc e.symm
      · simpa using List.mem_takeWhile_imp hm
    have hrest : (cs.dropWhile (· != '{')).head?.all (· == '{') = true := by
      have := List.head?_dropWhile_not (p := (· != '{')) cs
      cases hd : (cs.dropWhile (· != '{')).head? with
      | none => rfl
      | some d => simpa [hd] using this
    rw [hsrc]
    exact .text location rfl rfl (List.cons_ne_nil _ _) ht hrest (ih h)

/-- **The scan finds the cut of a source, or there is none.** -/
theorem scan_eq_iff {pos : Nat} {src : Text} {tokens : List Token} :
    scan pos src = (tokens, none) ↔ CutsInto pos src tokens := by
  refine ⟨fun h => ?_, fun h => ?_⟩
  · have := cutsInto_scan pos src (by rw [h])
    rwa [h] at this
  · induction h with
    | nil => rw [scan]
    | text location hstart hstop hne ht hrest _ ih =>
      rw [scan_text hstart hstop hne ht hrest, ih]
    | command location hstart hstop hu hread _ ih =>
      rw [scan_command hstart hstop hu hread, ih]

end Token

/-! ## 3. Putting a source together -/

/-- Between braces the text is the command. -/
structure Spells (inner : Text) (command : Command) : Prop where
  unbraced : Unbraced inner
  read : Command.read (Text.trim inner) = .ok command

/-- The commands that read as `command`, and no others, give it. -/
theorem Command.toOption_read {inner : Text} {command : Command} :
    (Command.read inner).toOption = some command ↔ Command.read inner = .ok command := by
  cases Command.read inner <;> simp [Except.toOption]

instance (inner : Text) (command : Command) : Decidable (Spells inner command) :=
  decidable_of_iff
    (Unbraced inner ∧ (Command.read (Text.trim inner)).toOption = some command)
    ⟨fun h => ⟨h.1, Command.toOption_read.mp h.2⟩,
      fun h => ⟨h.unbraced, Command.toOption_read.mpr h.read⟩⟩

namespace CutsInto

variable {pos : Nat} {src : Text} {tokens : List Token}

/-- A command may stand before any source. -/
theorem braced {inner : Text} {command : Command} (h : Spells inner command)
    (hcut : CutsInto (pos + Text.size (braced inner)) src tokens) :
    ∃ location, CutsInto pos (TemplateMarkup.braced inner ++ src)
      (.command command location :: tokens) := by
  have hsize : pos + Text.size (TemplateMarkup.braced inner) = pos + Text.size inner + 2 := by
    have h1 : '{'.utf8Size = 1 := by decide
    have h2 : '}'.utf8Size = 1 := by decide
    simp only [TemplateMarkup.braced, Text.size_append, Text.size_cons, Text.size_nil, h1, h2]
    omega
  rw [hsize] at hcut
  exact ⟨⟨pos, pos + Text.size inner + 2, by omega⟩, .command _ rfl rfl h.unbraced h.read hcut⟩

/-- Text may stand before a command. -/
theorem textBefore {t : Text} (hne : t ≠ []) (ht : '{' ∉ t)
    (hsrc : src.head?.all (· == '{') = true) (hcut : CutsInto (pos + Text.size t) src tokens) :
    ∃ location, CutsInto pos (t ++ src) (.text t location :: tokens) :=
  ⟨⟨pos, pos + Text.size t, by omega⟩, .text _ rfl rfl hne ht hsrc hcut⟩

/-- Before text it is one text with it. -/
theorem textBeforeText {t u : Text} {location : Span} (ht : '{' ∉ t)
    (hcut : CutsInto (pos + Text.size t) src (.text u location :: tokens)) :
    ∃ location', CutsInto pos (t ++ src) (.text (t ++ u) location' :: tokens) := by
  cases hcut with
  | @text _ _ rest _ location hstart hstop hne hu hrest hcut =>
    have hle := location.start_le_stop
    refine ⟨⟨pos, location.stop, by omega⟩, ?_⟩
    rw [← List.append_assoc]
    refine .text _ rfl ?_ (by simp [hne]) (by simp [ht, hu]) hrest hcut
    simp only [hstop, Text.size_append]
    omega

end CutsInto

end TemplateMarkup
