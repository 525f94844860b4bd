/-
# Commands are printed as they are read

A command that has been read can be written again from the parts that the tree keeps of it.  What
is written is read as the same command, whatever was dropped in between: blanks, a `print`, the
slash at the end, the kind of a binding with an expression.

`Command.MadeOf` says which parts of its text a command was made of.  Two lemmas read the text that
is written, `read_keyword` without a slash at its end and `read_keywordSlash` with one, and one lemma
for each command that the tree is printed with puts the two together.  Where the text is read as
something else the lemma has a condition: a name must not have quotes or end in a slash or a blank
(`plainName`), an expression at the end of a command must not end in a slash, and a loop's variable
must not end in ` in`.
-/
import Mathlib.Data.List.Basic
import TemplateMarkup.Proofs.Template.Words

namespace TemplateMarkup

/-! ## 1. The slash at the end -/

namespace Command

theorem withoutSlash_of_not {t : Text} (h : t.getLast? ≠ some '/') :
    withoutSlash t = (t, false) := by
  rw [withoutSlash, if_neg h]

/-- A slash behind a blank is taken off with the blank. -/
theorem withoutSlash_slash {t : Text} (h : ∀ c ∈ t.getLast?, isBlank c = false) :
    withoutSlash (t ++ " /".toList) = (t, true) := by
  have hsplit : t ++ " /".toList = (t ++ [' ']) ++ ['/'] := by simp
  rw [withoutSlash, hsplit, List.getLast?_append, if_pos (by rfl), List.dropLast_concat,
    Text.trimEnd_append_blanks (by decide) h]

theorem marks_trimEnd (t : Text) : marks (Text.trimEnd t) = marks t := by
  obtain ⟨blanks, ht, hb⟩ := (Text.trimEnd_spec t).1
  have h := congrArg marks ht
  rw [marks_append, marks_of_blank hb, List.append_nil] at h
  exact h.symm

/-- What is left has the same marks and is trimmed if the text was. -/
theorem withoutSlash_fst {t : Text} (ht : Text.Trimmed t) :
    Text.Trimmed (withoutSlash t).1 ∧ marks (withoutSlash t).1 = marks t := by
  rw [withoutSlash]
  split
  · next h =>
    have hsplit : t = t.dropLast ++ ['/'] := by
      obtain ⟨u, rfl⟩ := List.getLast?_eq_some_iff.mp h
      rw [List.dropLast_concat]
    have hmarks := congrArg marks hsplit
    rw [marks_append, marks_cons_of_not (by decide), marks_nil, List.append_nil] at hmarks
    refine ⟨⟨fun c hc => ?_, (Text.trimEnd_spec _).2⟩, by rw [marks_trimEnd, ← hmarks]⟩
    obtain ⟨blanks, hend, -⟩ := (Text.trimEnd_spec t.dropLast).1
    refine ht.head c ?_
    rw [hsplit, hend, List.head?_append, List.head?_append, Option.mem_def.mp hc]
    rfl
  · exact ⟨ht, rfl⟩

/-! ## 2. What a command is made of -/

/-- A name and an expression behind a colon, or a name that is a word. -/
def NamedBy (rest name : Text) : Option Text → Prop
  | none => Text.cut? [':'] rest = none ∧ name = (Text.splitWord rest).1
  | some expr => ∃ before after, Text.cut? [':'] rest = some (before, after)
    ∧ name = Text.trim before ∧ expr = Text.trim after ∧ expr ≠ []

/-- A command that begins with `word`, with `rest` after it, is made of these parts; `body` is the
whole text without the slash at its end. -/
def MadeOf (word body rest : Text) (selfClosing : Bool) : Command → Prop
  | print expr => expr ≠ [] ∧ (word = "print".toList ∧ expr = rest ∨ expr = body)
  | call callee closing => callee ≠ [] ∧ word = "call".toList
    ∧ callee = (Text.splitWord rest).1 ∧ closing = selfClosing
  | param name expr kind => name ≠ [] ∧ word = "param".toList ∧ NamedBy rest name expr
    ∧ kindClauseOf rest = .ok kind
  | binding var expr kind => word = "let".toList ∧ NamedBy rest ('$' :: var) expr
    ∧ kindClauseOf rest = .ok kind
  | ifThen cond => cond ≠ [] ∧ word = "if".toList ∧ cond = rest
  | elseIf cond => cond ≠ [] ∧ word = "elseif".toList ∧ cond = rest
  | switch expr => expr ≠ [] ∧ word = "switch".toList ∧ expr = rest
  | caseOf exprs => exprs ≠ [] ∧ word = "case".toList ∧ exprs = rest
  | forEach var expr => expr ≠ [] ∧ (word = "for".toList ∨ word = "foreach".toList)
    ∧ ∃ before after, Text.cut? " in ".toList rest = some (before, after)
      ∧ Text.trim before = '$' :: var ∧ expr = Text.trim after
  | special _ | close _ => False
  | _ => True

theorem of_bind {ε α β : Type} {x : Except ε α} {f : α → Except ε β} {r : β}
    (h : (x >>= f) = .ok r) : ∃ a, x = .ok a ∧ f a = .ok r := by
  cases x with
  | error e => cases h
  | ok a => exact ⟨a, rfl, h⟩

theorem of_require {α : Type} {inner part : Text} {f : Text → Except SyntaxFault α} {r : α}
    (h : (require inner part >>= f) = .ok r) : part ≠ [] ∧ f part = .ok r := by
  unfold require at h
  split at h
  · cases h
  · next hne => exact ⟨hne, h⟩

theorem of_variableName {α : Type} {inner part : Text} {f : Text → Except SyntaxFault α} {r : α}
    (h : (variableName inner part >>= f) = .ok r) : ∃ var, part = '$' :: var ∧ f var = .ok r := by
  unfold variableName at h
  split at h
  · cases h
  · next var hvar => exact ⟨var, Text.eq_append_of_after? hvar, h⟩

theorem of_nameAndExpr {α : Type} {inner rest : Text}
    {f : Text × Option Text → Except SyntaxFault α} {r : α}
    (h : (nameAndExpr inner rest >>= f) = .ok r) :
    ∃ name expr, NamedBy rest name expr ∧ f (name, expr) = .ok r := by
  unfold nameAndExpr at h
  split at h
  · next hcut => exact ⟨_, none, ⟨hcut, rfl⟩, h⟩
  · next name expr hcut =>
    rw [bind_assoc] at h
    obtain ⟨hne, h⟩ := of_require h
    exact ⟨_, some _, ⟨_, _, hcut, rfl, rfl, hne⟩, h⟩

/-- **A command that begins with a word is made of its parts.** -/
theorem madeOf_ofWord {inner body word rest : Text} {selfClosing : Bool} {command : Command}
    (h : ofWord inner body word rest selfClosing = .ok command) :
    MadeOf word body rest selfClosing command := by
  rw [ofWord] at h
  by_cases hw : word = "print".toList
  · rw [if_pos hw] at h
    obtain ⟨hne, h⟩ := of_require h
    cases h
    exact ⟨hne, .inl ⟨hw, rfl⟩⟩
  rw [if_neg hw] at h
  clear hw
  by_cases hw : word = "call".toList
  · rw [if_pos hw] at h
    obtain ⟨hne, h⟩ := of_require h
    cases h
    exact ⟨hne, hw, rfl, rfl⟩
  rw [if_neg hw] at h
  clear hw
  by_cases hw : word = "param".toList
  · rw [if_pos hw] at h
    obtain ⟨name, expr, hnamed, h⟩ := of_nameAndExpr h
    obtain ⟨hne, h⟩ := of_require h
    obtain ⟨kind, hkind, h⟩ := of_bind h
    cases h
    exact ⟨hne, hw, hnamed, hkind⟩
  rw [if_neg hw] at h
  clear hw
  by_cases hw : word = "let".toList
  · rw [if_pos hw] at h
    obtain ⟨name, expr, hnamed, h⟩ := of_nameAndExpr h
    obtain ⟨var, hvar, h⟩ := of_variableName h
    obtain ⟨kind, hkind, h⟩ := of_bind h
    cases h
    exact ⟨hw, hvar ▸ hnamed, hkind⟩
  rw [if_neg hw] at h
  clear hw
  by_cases hw : word = "if".toList
  · rw [if_pos hw] at h
    obtain ⟨hne, h⟩ := of_require h
    cases h
    exact ⟨hne, hw, rfl⟩
  rw [if_neg hw] at h
  clear hw
  by_cases hw : word = "elseif".toList
  · rw [if_pos hw] at h
    obtain ⟨hne, h⟩ := of_require h
    cases h
    exact ⟨hne, hw, rfl⟩
  rw [if_neg hw] at h
  clear hw
  by_cases hw : word = "else".toList
  · rw [if_pos hw] at h
    cases h
    trivial
  rw [if_neg hw] at h
  clear hw
  by_cases hw : word = "switch".toList
  · rw [if_pos hw] at h
    obtain ⟨hne, h⟩ := of_require h
    cases h
    exact ⟨hne, hw, rfl⟩
  rw [if_neg hw] at h
  clear hw
  by_cases hw : word = "case".toList
  · rw [if_pos hw] at h
    obtain ⟨hne, h⟩ := of_require h
    cases h
    exact ⟨hne, hw, rfl⟩
  rw [if_neg hw] at h
  clear hw
  by_cases hw : word = "default".toList
  · rw [if_pos hw] at h
    cases h
    trivial
  rw [if_neg hw] at h
  clear hw
  by_cases hw : word = "for".toList ∨ word = "foreach".toList
  · rw [if_pos hw] at h
    split at h
    · cases h
    · next before after hcut =>
      obtain ⟨var, hvar, h⟩ := of_variableName h
      obtain ⟨hne, h⟩ := of_require h
      cases h
      exact ⟨hne, hw, before, after, hcut, hvar, rfl⟩
  rw [if_neg hw] at h
  clear hw
  by_cases hw : word = "ifempty".toList
  · rw [if_pos hw] at h
    cases h
    trivial
  rw [if_neg hw] at h
  clear hw
  by_cases hw : word = "namespace".toList
  · rw [if_pos hw] at h
    obtain ⟨-, h⟩ := of_require h
    cases h
    trivial
  rw [if_neg hw] at h
  clear hw
  by_cases hw : word = "template".toList
  · rw [if_pos hw] at h
    obtain ⟨-, h⟩ := of_require h
    obtain ⟨kind, -, h⟩ := of_bind h
    cases h
    trivial
  rw [if_neg hw] at h
  clear hw
  by_cases hw : word = "@param".toList ∨ word = "@param?".toList
  · rw [if_pos hw] at h
    split at h
    · cases h
    · obtain ⟨-, h⟩ := of_require h
      cases h
      trivial
  rw [if_neg hw] at h
  clear hw
  obtain ⟨hne, h⟩ := of_require h
  cases h
  exact ⟨hne, .inr rfl⟩

/-- **A command is a special character, closes a construct, or is made of parts whose text has no
blanks at its ends and could stand in a command by itself.** -/
theorem madeOf_of_spells {inner : Text} {command : Command} (h : Spells inner command) :
    (∃ t, command = .special t) ∨ (∃ name, command = .close name)
      ∨ ∃ word body rest selfClosing, MadeOf word body rest selfClosing command
        ∧ Text.Trimmed body ∧ Unbraced body ∧ Text.Trimmed rest ∧ Unbraced (word ++ rest) := by
  have hread := h.read
  obtain ⟨htrimmed, hmarks⟩ := withoutSlash_fst (Text.trimmed_trim inner)
  have hbody : Unbraced (withoutSlash (Text.trim inner)).1 :=
    h.unbraced.of_marks (hmarks.trans (marks_trim inner))
  rw [read] at hread
  dsimp only at hread
  split at hread
  · cases hread
    exact .inl ⟨_, rfl⟩
  split at hread
  · cases hread
    exact .inr (.inl ⟨_, rfl⟩)
  · refine .inr (.inr ⟨_, _, _, _, madeOf_ofWord hread, htrimmed, hbody,
      Text.trimmed_splitWord _, hbody.of_marks ?_⟩)
    rw [marks_append, marks_splitWord]

/-! ## 3. Reading what is written -/

/-- A word that a command may begin with: no part of it is a blank, a slash or a mark. -/
def isKeyword (word : Text) : Bool :=
  !word.isEmpty && word.all fun c => !isBlank c && c != '/' && !isMark c

section

variable {word rest : Text}

theorem marks_of_isKeyword (h : isKeyword word = true) : marks word = [] := by
  simp only [isKeyword, Bool.and_eq_true, List.all_eq_true] at h
  rw [marks, List.filter_eq_nil_iff]
  intro c hc
  simpa using (h.2 c hc).2

theorem isWord_of_isKeyword (h : isKeyword word = true) : Text.IsWord word := by
  simp only [isKeyword, Bool.and_eq_true, List.all_eq_true] at h
  rw [Text.IsWord, List.all_eq_true]
  intro c hc
  have hb := (h.2 c hc).1.1
  cases ha : isAsciiBlank c with
  | false => rfl
  | true => rw [isBlank_of_isAsciiBlank ha] at hb; cases hb

/-- A keyword with text behind it is trimmed if the text is, and begins with no slash. -/
theorem exists_of_isKeyword (h : isKeyword word = true) :
    ∃ c cs, word = c :: cs ∧ isBlank c = false ∧ c ≠ '/' := by
  cases word with
  | nil => cases h
  | cons c cs =>
    simp only [isKeyword, List.all_cons, Bool.and_eq_true, Bool.not_eq_true', bne_iff_ne] at h
    exact ⟨c, cs, rfl, h.2.1.1.1, h.2.1.1.2⟩

/-- No special character is written with a blank. -/
theorem special?_of_blank {t : Text} (h : ' ' ∈ t) : special? t = none := by
  have hne (name : Text) (hn : ' ' ∉ name) : t ≠ name := by
    rintro rfl
    exact hn h
  simp only [special?, if_neg (hne "sp".toList (by decide)),
    if_neg (hne "nil".toList (by decide)), if_neg (hne "lb".toList (by decide)),
    if_neg (hne "rb".toList (by decide)), if_neg (hne ['\\', 'n'] (by decide)),
    if_neg (hne ['\\', 'r'] (by decide)), if_neg (hne ['\\', 't'] (by decide))]

/-- A text that is a keyword and more, but for the slash at its end, is the keyword's command. -/
theorem read_of_withoutSlash {inner : Text} {selfClosing : Bool} (hw : isKeyword word = true)
    (hr : Text.Trimmed rest) (h : withoutSlash inner = (word ++ ' ' :: rest, selfClosing)) :
    read inner = ofWord inner (word ++ ' ' :: rest) word rest selfClosing := by
  obtain ⟨c, cs, rfl, hc, hslash⟩ := exists_of_isKeyword hw
  have hafter : Text.after? ['/'] (c :: cs ++ ' ' :: rest) = none := by
    simp [Text.after?, Ne.symm hslash]
  have hsplit : Text.splitWord (c :: cs ++ ' ' :: rest) = (c :: cs, rest) := by
    rw [Text.splitWord_append (isWord_of_isKeyword hw) rfl]
    have htrim := Text.trim_around [' '] [] hr (by decide) rfl
    rw [List.append_nil, List.singleton_append] at htrim
    rw [htrim]
  rw [read, h]
  dsimp only
  rw [special?_of_blank (List.mem_append_right _ List.mem_cons_self)]
  dsimp only
  rw [hafter]
  dsimp only
  rw [hsplit]

/-- The last character of a keyword and more. -/
theorem getLast?_keyword (word : Text) (hne : rest ≠ []) :
    (word ++ ' ' :: rest).getLast? = rest.getLast? := by
  cases rest with
  | nil => exact absurd rfl hne
  | cons c cs => simp [List.getLast?_append, List.getLast?_cons]

theorem unbraced_keyword (hw : isKeyword word = true) (hu : Unbraced rest) :
    Unbraced (word ++ ' ' :: rest) := by
  refine hu.of_marks ?_
  rw [marks_append, marks_of_isKeyword hw, marks_cons_of_not (by decide), List.nil_append]

/-- **A keyword and text that does not end in a slash are the keyword's command.** -/
theorem spells_keyword (word : Text) {command : Command} (hw : isKeyword word = true) (hne : rest ≠ [])
    (hr : Text.Trimmed rest) (hu : Unbraced rest) (hslash : rest.getLast? ≠ some '/')
    (h : ∀ inner body, ofWord inner body word rest false = .ok command) :
    Spells (word ++ ' ' :: rest) command := by
  have hlast := getLast?_keyword word hne
  have htrimmed : Text.Trimmed (word ++ ' ' :: rest) := by
    obtain ⟨c, cs, rfl, hc, -⟩ := exists_of_isKeyword hw
    exact ⟨by simpa using hc, by rw [hlast]; exact hr.last⟩
  refine ⟨unbraced_keyword hw hu, ?_⟩
  rw [Text.trim_of_trimmed htrimmed,
    read_of_withoutSlash hw hr (withoutSlash_of_not (by rwa [hlast]))]
  exact h _ _

/-- **So are a keyword and text with a slash behind it.** -/
theorem spells_keywordSlash (word : Text) {command : Command} (hw : isKeyword word = true) (hne : rest ≠ [])
    (hr : Text.Trimmed rest) (hu : Unbraced rest)
    (h : ∀ inner body, ofWord inner body word rest true = .ok command) :
    Spells (word ++ ' ' :: rest ++ " /".toList) command := by
  have hlast := getLast?_keyword word hne
  have htrimmed : Text.Trimmed (word ++ ' ' :: rest ++ " /".toList) := by
    obtain ⟨c, cs, rfl, hc, -⟩ := exists_of_isKeyword hw
    refine ⟨by simpa using hc, fun d hd => ?_⟩
    rw [List.getLast?_append] at hd
    cases hd
    decide
  refine ⟨(unbraced_keyword hw hu).of_marks ?_, ?_⟩
  · rw [marks_append, (by decide : marks " /".toList = []), List.append_nil]
  · rw [Text.trim_of_trimmed htrimmed, read_of_withoutSlash hw hr
      (withoutSlash_slash (by rw [hlast]; exact hr.last))]
    exact h _ _

end

/-! ## 4. The commands of a tree -/

/-- Some text between braces is the command. -/
def Written (command : Command) : Prop := ∃ inner, Spells inner command

/-- What a command with an expression alone was made of. -/
theorem Written.expr {command : Command} {expr : Text} (h : command.Written)
    (hc : command ∈ [.ifThen expr, .elseIf expr, .switch expr, .caseOf expr]) :
    expr ≠ [] ∧ Text.Trimmed expr ∧ Unbraced expr := by
  obtain ⟨inner, h⟩ := h
  have hparts := madeOf_of_spells h
  have hrest {word rest : Text} (hw : marks word = []) (hu : Unbraced (word ++ rest)) :
      Unbraced rest := hu.of_marks (by rw [marks_append, hw, List.nil_append])
  simp only [List.mem_cons, List.not_mem_nil, or_false] at hc
  rcases hc with rfl | rfl | rfl | rfl <;>
    obtain ⟨_, hs⟩ | ⟨_, hs⟩ | ⟨word, body, rest, _, ⟨hne, rfl, rfl⟩, -, -, hr, hu⟩ := hparts
  all_goals first
    | cases hs
    | exact ⟨hne, hr, hrest (by decide) hu⟩

/-- A printed expression may stand alone if it is read as a print. -/
theorem Written.print {expr : Text} (h : (Command.print expr).Written)
    (hread : read expr = .ok (.print expr)) : Spells expr (.print expr) := by
  obtain ⟨inner, h⟩ := h
  obtain ⟨_, hs⟩ | ⟨_, hs⟩ | ⟨word, body, rest, _, ⟨hne, hexpr⟩, hbody, hubody, hr, hu⟩ :=
    madeOf_of_spells h
  · cases hs
  · cases hs
  obtain ⟨hw, rfl⟩ | rfl := hexpr
  · refine ⟨hu.of_marks ?_, by rwa [Text.trim_of_trimmed hr]⟩
    rw [marks_append, hw]
    rfl
  · exact ⟨hubody, by rwa [Text.trim_of_trimmed hbody]⟩

theorem require_of_ne {inner part : Text} (h : part ≠ []) : require inner part = .ok part :=
  if_neg h

section

variable {expr : Text}

/-- An expression that does not end in a slash, behind a keyword. -/
theorem spells_expr (word : Text) {command : Text → Command} (hw : isKeyword word = true)
    (h : expr ≠ [] ∧ Text.Trimmed expr ∧ Unbraced expr) (hslash : expr.getLast? ≠ some '/')
    (hword : ∀ inner body, ofWord inner body word expr false
      = (do return command (← require inner expr))) :
    Spells (word ++ ' ' :: expr) (command expr) :=
  spells_keyword word hw h.1 h.2.1 h.2.2 hslash fun inner body => by
    rw [hword, require_of_ne h.1]
    rfl

theorem spells_ifThen (h : expr ≠ [] ∧ Text.Trimmed expr ∧ Unbraced expr)
    (hslash : expr.getLast? ≠ some '/') : Spells ("if ".toList ++ expr) (.ifThen expr) :=
  spells_expr "if".toList (by decide) h hslash fun inner body => rfl

theorem spells_elseIf (h : expr ≠ [] ∧ Text.Trimmed expr ∧ Unbraced expr)
    (hslash : expr.getLast? ≠ some '/') : Spells ("elseif ".toList ++ expr) (.elseIf expr) :=
  spells_expr "elseif".toList (by decide) h hslash fun inner body => rfl

theorem spells_switch (h : expr ≠ [] ∧ Text.Trimmed expr ∧ Unbraced expr)
    (hslash : expr.getLast? ≠ some '/') : Spells ("switch ".toList ++ expr) (.switch expr) :=
  spells_expr "switch".toList (by decide) h hslash fun inner body => rfl

theorem spells_caseOf (h : expr ≠ [] ∧ Text.Trimmed expr ∧ Unbraced expr)
    (hslash : expr.getLast? ≠ some '/') : Spells ("case ".toList ++ expr) (.caseOf expr) :=
  spells_expr "case".toList (by decide) h hslash fun inner body => rfl

end

/-! ## 5. Loops -/

/-- A text is cut again at its ` in `, without the blanks before it, unless the text without these
ends in ` in` itself. -/
theorem cut?_in {rest before after : Text}
    (h : Text.cut? " in ".toList rest = some (before, after))
    (hend : ¬ " in".toList <:+ Text.trim before) (q : Text) :
    Text.cut? " in ".toList (Text.trim before ++ (" in ".toList ++ q))
      = some (Text.trim before, q) := by
  refine Text.cut?_of_first (by decide) fun s hs hsuffix => ?_
  rw [Bool.eq_false_iff]
  intro hb
  obtain ⟨r, hr⟩ := Text.exists_of_beginsWith hb
  have hin : " in ".toList = [' ', 'i', 'n', ' '] := rfl
  rw [hin] at hr
  match s, hs with
  | [c], _ | [c, d], _ => simp at hr
  | [c, d, e], _ =>
    simp only [List.cons_append, List.cons.injEq, List.nil_append] at hr
    obtain ⟨rfl, rfl, rfl, -⟩ := hr
    exact hend hsuffix
  | c :: d :: e :: f :: s, _ =>
    -- then it is in the text already, before the first
    simp only [List.cons_append, List.cons.injEq] at hr
    obtain ⟨rfl, rfl, rfl, rfl, -⟩ := hr
    obtain ⟨u, hu⟩ := hsuffix
    obtain ⟨bl, bl', hbefore, -, -⟩ := Text.exists_trim before
    obtain ⟨n, hn, he⟩ := Option.map_eq_some_iff.mp h
    have hlen : before.length ≤ n := by
      have htake : rest.take n = before := (Prod.ext_iff.mp he).1
      rw [← htake]
      exact List.length_take_le ..
    have hearlier : rest = (bl ++ u) ++ (" in ".toList ++ (s ++ bl' ++ (" in ".toList ++ after))) := by
      rw [Text.eq_of_cut? h, hin]
      rw [← hu] at hbefore
      rw [hbefore]
      simp
    have hlt : (bl ++ u).length < n := by
      have := congrArg List.length hbefore
      have := congrArg List.length hu
      simp only [List.length_append, List.length_cons] at *
      omega
    have hfalse := Text.not_of_seek_lt hn _ hlt
    rw [hearlier, List.drop_left, Text.beginsWith, Text.after?_self] at hfalse
    cases hfalse

theorem ofWord_for (inner body rest : Text) (selfClosing : Bool) :
    ofWord inner body "for".toList rest selfClosing
      = match Text.cut? " in ".toList rest with
        | none => .error (.malformedCommand inner)
        | some (var, expr) => do
          let var ← variableName inner (Text.trim var)
          return .forEach var (← require inner (Text.trim expr)) := rfl

/-- A loop says again what it said, if its variable does not end in ` in`. -/
theorem Written.forEach {var expr : Text} (h : (Command.forEach var expr).Written)
    (hvar : ¬ " in".toList <:+ var) (hslash : expr.getLast? ≠ some '/') :
    Spells ("for $".toList ++ var ++ " in ".toList ++ expr) (.forEach var expr) := by
  obtain ⟨inner, h⟩ := h
  obtain ⟨_, hs⟩ | ⟨_, hs⟩ | ⟨word, body, rest, _, hmade, -, -, hr, hu⟩ := madeOf_of_spells h
  · cases hs
  · cases hs
  obtain ⟨hne, hw, before, after, hcut, htrim, rfl⟩ := hmade
  have hend : ¬ " in".toList <:+ Text.trim before := by
    rw [htrim, List.suffix_cons_iff]
    exact not_or_intro (by simp) hvar
  have hcut' := cut?_in hcut hend (Text.trim after)
  have hlast : (Text.trim before ++ (" in ".toList ++ Text.trim after)).getLast?
      = (Text.trim after).getLast? := by
    rw [← List.append_assoc, List.getLast?_append_of_ne_nil _ hne]
  have htrimmed : Text.Trimmed (Text.trim before ++ (" in ".toList ++ Text.trim after)) :=
    ⟨by rw [htrim]; simp; decide, by rw [hlast]; exact (Text.trimmed_trim after).last⟩
  have hmarks : marks (Text.trim before ++ (" in ".toList ++ Text.trim after))
      = marks (word ++ rest) := by
    have hword : marks word = [] := by rcases hw with rfl | rfl <;> decide
    rw [Text.eq_of_cut? hcut]
    simp only [marks_append, marks_trim, hword, List.nil_append, List.append_assoc]
  have hspells : Spells ("for".toList ++ ' ' ::
      (Text.trim before ++ (" in ".toList ++ Text.trim after))) (.forEach var (Text.trim after)) := by
    refine spells_keyword "for".toList (by decide) (by rw [htrim]; nofun) htrimmed (hu.of_marks hmarks)
      (by rwa [hlast]) fun inner body => ?_
    rw [ofWord_for, hcut']
    dsimp only
    rw [Text.trim_of_trimmed (Text.trimmed_trim before),
      Text.trim_of_trimmed (Text.trimmed_trim after), htrim, require_of_ne hne]
    rfl
  rw [htrim] at hspells
  simpa using hspells

/-! ## 6. Kinds -/

/-- What introduces a kind. -/
def kindMark : Text := "kind=".toList

/-- The text declares the kind between quotes. -/
def Declares (t : Text) (kind : ContentKind) : Prop :=
  ∃ p w q, Text.cut? kindMark t = some (p, '"' :: (w ++ '"' :: q)) ∧ '"' ∉ w
    ∧ ContentKind.ofName? w = some kind

/-- A clause without `kind=` declares nothing; else a quote follows, and a kind up to the next. -/
theorem kindClauseOf_eq_ok {t : Text} {kind? : Option ContentKind} :
    kindClauseOf t = .ok kind? ↔ (Text.cut? kindMark t = none ∧ kind? = none)
      ∨ ∃ p q kind, Text.cut? kindMark t = some (p, '"' :: q)
        ∧ ContentKind.ofName? (q.takeWhile (· != '"')) = some kind ∧ kind? = some kind := by
  rw [kindClauseOf, show "kind=".toList = kindMark from rfl]
  cases hcut : Text.cut? kindMark t with
  | none => simp [eq_comm]
  | some r =>
    obtain ⟨p, rest⟩ := r
    cases hafter : Text.after? ['"'] rest with
    | none =>
      have hne (q : Text) : rest ≠ '"' :: q := by
        rintro rfl
        simp [Text.after?] at hafter
      simp [hafter, hne]
    | some q =>
      have hrest (q' : Text) : rest = '"' :: q' ↔ q = q' := by
        have hq : rest = '"' :: q := Text.eq_append_of_after? hafter
        rw [hq, List.cons.injEq, and_iff_right rfl]
      cases hname : ContentKind.ofName? (q.takeWhile (· != '"')) with
      | none => simp [hafter, hname, hrest]
      | some kind => simp [hafter, hname, hrest, eq_comm]

/-- Up to a quote. -/
theorem takeWhile_quote {u : Text} (hu : '"' ∉ u) (w : Text) :
    (u ++ '"' :: w).takeWhile (· != '"') = u := by
  rw [List.takeWhile_append_of_pos fun c hc => by
    rw [bne_iff_ne]
    rintro rfl
    exact hu hc]
  simp

theorem kindClauseOf_of_declares {t : Text} {kind : ContentKind} (h : Declares t kind) :
    kindClauseOf t = .ok (some kind) := by
  obtain ⟨p, w, q, hcut, hw, hname⟩ := h
  exact kindClauseOf_eq_ok.mpr (.inr ⟨p, _, kind, hcut, by rwa [takeWhile_quote hw], rfl⟩)

/-- A character that stands neither in `kind=` nor in a kind, and is no quote. -/
def separates (c : Char) : Bool :=
  c != '"' && !kindMark.contains c && ContentKind.all.all fun k => !k.name.toList.contains c

theorem not_mem_of_ofName? {c : Char} (hc : separates c = true) {name : Text} {kind : ContentKind}
    (h : ContentKind.ofName? name = some kind) : c ∉ name := by
  obtain ⟨hname, hmem⟩ := And.intro (List.find?_some h) (List.mem_of_find?_eq_some h)
  rw [beq_iff_eq] at hname
  simp only [separates, Bool.and_eq_true, List.all_eq_true] at hc
  simpa [hname] using hc.2 kind hmem

/-- Neither the letters of `kind=` nor those of the kinds are blanks. -/
theorem separates_of_isBlank {c : Char} (hc : isBlank c = true) : separates c = true := by
  have hnot {t : Text} (ht : t.all (fun c => !isBlank c) = true) : t.contains c = false := by
    rw [Bool.eq_false_iff]
    intro h
    simpa [hc] using List.all_eq_true.mp ht c (List.contains_iff_mem.mp h)
  have hq : c ≠ '"' := by
    rintro rfl
    revert hc
    decide
  simp only [separates, Bool.and_eq_true, bne_iff_ne, Bool.not_eq_true', List.all_eq_true]
  exact ⟨⟨hq, hnot (by decide)⟩, fun k _ => hnot (by cases k <;> decide)⟩

section

variable {c : Char} (hc : separates c = true)
include hc

theorem cut?_kindMark (t u : Text) : Text.cut? kindMark (t ++ c :: u)
    = match Text.cut? kindMark t with
      | some (p, q) => some (p, q ++ c :: u)
      | none => (Text.cut? kindMark u).map fun r => (t ++ c :: r.1, r.2) := by
  refine Text.cut?_append_cons ?_ (by decide) t u
  simp only [separates, Bool.and_eq_true, Bool.not_eq_true'] at hc
  simpa using hc.1.2

/-- **On either side of a character that separates, the text declares what a side declares.** -/
theorem kindClauseOf_split {t u : Text} {kind? : Option ContentKind} :
    kindClauseOf (t ++ c :: u) = .ok kind? ↔ (∃ kind, Declares t kind ∧ kind? = some kind)
      ∨ (Text.cut? kindMark t = none ∧ kindClauseOf u = .ok kind?) := by
  have hquote : c ≠ '"' := by
    simp only [separates, Bool.and_eq_true, bne_iff_ne] at hc
    exact hc.1.1
  cases hcut : Text.cut? kindMark t with
  | some r =>
    obtain ⟨p, rest⟩ := r
    have hboth := cut?_kindMark hc t u
    rw [hcut] at hboth
    rw [kindClauseOf_eq_ok]
    constructor
    · rintro (⟨hno, -⟩ | ⟨p', q, kind, hq, hname, hkind⟩)
      · rw [hboth] at hno
        cases hno
      · -- the kind ends at a quote before the character, which is not in a kind
        rw [hboth] at hq
        cases rest with
        | nil => cases hq; exact absurd rfl hquote
        | cons d rest =>
          simp only [List.cons_append, Option.some.injEq, Prod.mk.injEq, List.cons.injEq] at hq
          obtain ⟨-, rfl, rfl⟩ := hq
          have hmem : '"' ∈ rest := by
            by_contra hno
            have hall : ∀ d ∈ rest, (d != '"') = true := fun d hd => by
              rw [bne_iff_ne]
              rintro rfl
              exact hno hd
            rw [List.takeWhile_append_of_pos hall] at hname
            refine not_mem_of_ofName? hc hname (List.mem_append_right _ ?_)
            rw [List.takeWhile_cons_of_pos (by simpa using hquote)]
            exact List.mem_cons_self
          obtain ⟨w, v, rfl, hw⟩ := List.eq_append_cons_of_mem hmem
          rw [List.append_assoc, List.cons_append, takeWhile_quote hw] at hname
          exact .inl ⟨kind, ⟨p, w, v, hcut, hw, hname⟩, hkind⟩
    · rintro (⟨kind, ⟨p', w, q, hcut', hw, hname⟩, rfl⟩ | ⟨hno, -⟩)
      · rw [hcut] at hcut'
        cases hcut'
        refine .inr ⟨p, w ++ '"' :: (q ++ c :: u), kind, ?_, by rwa [takeWhile_quote hw], rfl⟩
        rw [hboth]
        simp
      · cases hno
  | none =>
    have hno (kind : ContentKind) : ¬ Declares t kind := by
      rintro ⟨p, w, q, h, -⟩
      rw [hcut] at h
      cases h
    have hboth := cut?_kindMark hc t u
    rw [hcut] at hboth
    simp only [hno, false_and, exists_false, false_or, true_and]
    rw [kindClauseOf_eq_ok, kindClauseOf_eq_ok, hboth]
    cases Text.cut? kindMark u with
    | none => simp
    | some r => simp [Prod.ext_iff]

end

section

variable {t u blanks : Text} {kind? : Option ContentKind} (hb : blanks.all separates = true)
include hb

/-- Blanks at the beginning do not matter, -/
theorem kindClauseOf_blanks_append :
    kindClauseOf (blanks ++ u) = .ok kind? ↔ kindClauseOf u = .ok kind? := by
  induction blanks with
  | nil => rfl
  | cons c blanks ih =>
    simp only [List.all_cons, Bool.and_eq_true] at hb
    have hsplit := @kindClauseOf_split c hb.1 [] (blanks ++ u) kind?
    have hno (kind : ContentKind) : ¬ Declares [] kind := by
      rintro ⟨_, _, _, h, -⟩
      cases h
    simp only [hno, false_and, exists_false, false_or, List.nil_append,
      and_iff_right (show Text.cut? kindMark [] = none from rfl)] at hsplit
    exact hsplit.trans (ih hb.2)

/-- nor behind a character that separates, -/
theorem kindClauseOf_cons_blanks {c : Char} (hc : separates c = true) :
    kindClauseOf (t ++ c :: (blanks ++ u)) = .ok kind?
      ↔ kindClauseOf (t ++ c :: u) = .ok kind? := by
  rw [kindClauseOf_split hc, kindClauseOf_split hc, kindClauseOf_blanks_append hb]

/-- nor before it. -/
theorem kindClauseOf_blanks_cons {c : Char} (hc : separates c = true) :
    kindClauseOf (t ++ (blanks ++ c :: u)) = .ok kind?
      ↔ kindClauseOf (t ++ c :: u) = .ok kind? := by
  cases blanks with
  | nil => rfl
  | cons d blanks =>
    simp only [List.all_cons, Bool.and_eq_true] at hb
    have hsingle : kindClauseOf (c :: u) = .ok kind? ↔ kindClauseOf u = .ok kind? :=
      @kindClauseOf_blanks_append u [c] kind? (by simpa using hc)
    rw [kindClauseOf_split hc, List.cons_append, kindClauseOf_split hb.1,
      kindClauseOf_blanks_append hb.2, hsingle]

/-- At the end they may be left out. -/
theorem of_kindClauseOf_append_blanks (h : kindClauseOf (t ++ blanks) = .ok kind?) :
    kindClauseOf t = .ok kind? := by
  cases blanks with
  | nil => simpa using h
  | cons c blanks =>
    simp only [List.all_cons, Bool.and_eq_true] at hb
    obtain ⟨kind, hkind, rfl⟩ | ⟨hcut, h⟩ := (kindClauseOf_split hb.1).mp h
    · exact kindClauseOf_of_declares hkind
    · rw [← List.append_nil blanks, kindClauseOf_blanks_append hb.2] at h
      exact kindClauseOf_eq_ok.mpr (.inl ⟨hcut, by cases h; rfl⟩)

end

/-- **A name and an expression around a colon declare the same with other blanks.** -/
theorem kindClauseOf_respaced {before after : Text} (gap gap' : Text) {kind? : Option ContentKind}
    (h : kindClauseOf (before ++ ':' :: after) = .ok kind?) (hgap : gap.all isBlank = true)
    (hgap' : gap'.all isBlank = true) :
    kindClauseOf (Text.trim before ++ (gap ++ ':' :: (gap' ++ Text.trim after))) = .ok kind? := by
  have hseparates {t : Text} (ht : t.all isBlank = true) : t.all separates = true :=
    List.all_eq_true.mpr fun c hc => separates_of_isBlank (List.all_eq_true.mp ht c hc)
  have hcolon : separates ':' = true := by decide
  obtain ⟨b, b', hbefore, hb, hb'⟩ := Text.exists_trim before
  obtain ⟨a, a', hafter, ha, ha'⟩ := Text.exists_trim after
  rw [kindClauseOf_blanks_cons (hseparates hgap) hcolon,
    kindClauseOf_cons_blanks (hseparates hgap') hcolon]
  rw [hbefore, hafter, List.append_assoc, List.append_assoc,
    kindClauseOf_blanks_append (hseparates hb),
    kindClauseOf_blanks_cons (hseparates hb') hcolon,
    List.append_assoc, kindClauseOf_cons_blanks (hseparates ha) hcolon, ← List.cons_append,
    ← List.append_assoc] at h
  exact of_kindClauseOf_append_blanks (hseparates ha') h

/-! ## 7. Names -/

/-- The name has no quotes. -/
def quoteless (name : Text) : Bool := name.all fun c => c != '\'' && c != '"'

/-- A text that does not end in a slash: at the end of a command it is not cut short. -/
def openEnded (t : Text) : Bool := t.getLast? != some '/'

/-- The name does not end in a blank.  One that does ends in a blank that separates no words. -/
def unpadded (name : Text) : Bool := name.getLast?.all fun c => !isBlank c

theorem getLast?_of_openEnded {t : Text} (h : openEnded t = true) : t.getLast? ≠ some '/' := by
  simpa [openEnded] using h

/-- A name without quotes at the beginning of text that may stand in a command has no marks. -/
theorem marks_of_quoteless {name : Text} (more : Text) (hq : quoteless name = true)
    (hu : Unbraced (name ++ more)) : marks name = [] := by
  have hmarks : Unbraced (marks (name ++ more)) :=
    unbraced_marks.mpr hu
  cases hm : marks name with
  | nil => rfl
  | cons c ms =>
    have hc : c ∈ marks name := hm ▸ List.mem_cons_self
    obtain ⟨hmem, hmark⟩ := List.mem_filter.mp hc
    have hne := List.all_eq_true.mp hq c hmem
    have hbrace : c = '}' := by
      simp only [isMark, Bool.or_eq_true, Bool.and_eq_true, beq_iff_eq, bne_iff_ne] at hmark hne
      tauto
    rw [marks_append, hm, hbrace] at hmarks
    exact absurd hmarks (not_unbraced_brace _)

/-- The first word of a command's text. -/
structure FirstWord (rest name : Text) : Prop where
  ne : name ≠ []
  word : Text.IsWord name
  head : ∀ c ∈ name.head?, isBlank c = false
  splits : ∃ more, rest = name ++ more ∧ more.head?.all isAsciiBlank = true

theorem firstWord {rest name : Text} (hr : Text.Trimmed rest)
    (hname : name = (Text.splitWord rest).1) (hne : name ≠ []) : FirstWord rest name := by
  subst hname
  have happ := List.takeWhile_append_dropWhile (p := fun c => !isAsciiBlank c) (l := rest)
  have hmore := List.head?_dropWhile_not (fun c => !isAsciiBlank c) rest
  refine ⟨hne, Text.isWord_splitWord rest, fun c hc => hr.head c ?_,
    rest.dropWhile fun c => !isAsciiBlank c, ?_, ?_⟩
  · rw [Text.splitWord_eq] at hc
    rw [← happ, List.head?_append, Option.mem_def.mp hc]
    rfl
  · rw [Text.splitWord_eq, happ]
  · cases h : (rest.dropWhile fun c => !isAsciiBlank c).head? with
    | none => rfl
    | some c => simpa [h] using hmore

section

variable {rest name : Text}

/-- A word that ends in no blank is trimmed. -/
theorem FirstWord.trimmed (h : FirstWord rest name) (hend : unpadded name = true) :
    Text.Trimmed name where
  head := h.head
  last c hc := by simpa [unpadded, Option.mem_def.mp hc] using hend

/-- Split off again, a word is itself. -/
theorem FirstWord.alone (h : FirstWord rest name) : (Text.splitWord name).1 = name := by
  have := @Text.splitWord_append name [] h.word rfl
  rw [List.append_nil] at this
  rw [this]

end

/-- A call says again what it said. -/
theorem Written.call {callee : Text} {selfClosing : Bool}
    (h : (Command.call callee selfClosing).Written) (hq : quoteless callee = true)
    (hend : unpadded callee = true) :
    Spells ("call ".toList ++ callee ++ " /".toList) (.call callee true)
      ∧ (openEnded callee = true → Spells ("call ".toList ++ callee) (.call callee false)) := by
  obtain ⟨inner, h⟩ := h
  obtain ⟨_, hs⟩ | ⟨_, hs⟩ | ⟨word, body, rest, _, hmade, -, -, hr, hu⟩ := madeOf_of_spells h
  · cases hs
  · cases hs
  obtain ⟨hne, rfl, hcallee, rfl⟩ := hmade
  have hword := firstWord hr hcallee hne
  have hmarks : marks callee = [] := by
    obtain ⟨more, hrest, -⟩ := hword.splits
    refine marks_of_quoteless more hq (hu.of_marks ?_)
    rw [← hrest, marks_append]
    rfl
  have hu : Unbraced callee := Unbraced.nil.of_marks hmarks
  have hread (inner body : Text) (closing : Bool) :
      ofWord inner body "call".toList callee closing = .ok (.call callee closing) := by
    have hcall : ofWord inner body "call".toList callee closing
        = (do return .call (← require inner (Text.splitWord callee).1) closing) := rfl
    rw [hcall, hword.alone, require_of_ne hne]
    rfl
  exact ⟨spells_keywordSlash "call".toList (by decide) hne (hword.trimmed hend) hu
      fun inner body => hread inner body true,
    fun hslash => spells_keyword "call".toList (by decide) hne (hword.trimmed hend) hu
      (getLast?_of_openEnded hslash) fun inner body => hread inner body false⟩

/-- The text after the keyword of a parameter or a binding gives the name, the expression and the
kind. -/
structure Gives (rest name : Text) (expr : Option Text) (kind : Option ContentKind) : Prop where
  ne : rest ≠ []
  trimmed : Text.Trimmed rest
  unbraced : Unbraced rest
  named : ∀ inner, nameAndExpr inner rest = .ok (name, expr)
  kind : kindClauseOf rest = .ok kind

section

variable {rest name : Text} {kind : Option ContentKind}

theorem trim_append_blanks {t blanks : Text} (ht : Text.Trimmed t)
    (hb : blanks.all isBlank = true) : Text.trim (t ++ blanks) = t := by
  simpa using Text.trim_around [] blanks ht rfl hb

theorem mem_of_mem_trim {c : Char} {t : Text} (h : c ∈ Text.trim t) : c ∈ t := by
  obtain ⟨b, b', ht, -, -⟩ := Text.exists_trim t
  rw [ht]
  exact List.mem_append_left _ (List.mem_append_right _ h)

/-- **A name and an expression are read again with one blank behind the colon and any before it.** -/
theorem gives_expr (gap : Text) {expr : Text} (hnamed : NamedBy rest name (some expr)) (hne : name ≠ [])
    (hkind : kindClauseOf rest = .ok kind) (hu : Unbraced rest) (hgap : gap.all isBlank = true) :
    Gives (name ++ (gap ++ ':' :: ' ' :: expr)) name (some expr) kind := by
  obtain ⟨before, after, hcut, rfl, rfl, hexpr⟩ := hnamed
  have hrest : rest = before ++ ':' :: after := by
    rw [Text.eq_of_cut? hcut, List.append_assoc, List.singleton_append]
  have hblank : isBlank ' ' = true := by decide
  have hcolon : ':' ∉ Text.trim before ++ gap := by
    rintro h
    rcases List.mem_append.mp h with h | h
    · exact Text.not_mem_of_cut? hcut (mem_of_mem_trim h)
    · exact absurd (List.all_eq_true.mp hgap _ h) (by decide)
  refine ⟨by simp, ⟨fun c hc => ?_, fun c hc => ?_⟩, hu.of_marks ?_, fun inner => ?_, ?_⟩
  · refine (Text.trimmed_trim before).head c ?_
    rwa [List.head?_append_of_ne_nil _ hne] at hc
  · refine (Text.trimmed_trim after).last c ?_
    have hsplit : Text.trim before ++ (gap ++ ':' :: ' ' :: Text.trim after)
        = (Text.trim before ++ (gap ++ [':', ' '])) ++ Text.trim after := by simp
    rwa [hsplit, List.getLast?_append_of_ne_nil _ hexpr] at hc
  · rw [hrest, marks_append, marks_append, marks_append, marks_cons_of_not (by decide),
      marks_cons_of_not (by decide), marks_cons_of_not (by decide), marks_trim, marks_trim,
      marks_of_blank hgap, List.nil_append]
  · have hcut' := Text.cut?_char hcolon (u := ' ' :: Text.trim after)
    rw [List.append_assoc] at hcut'
    have hexpr' : Text.trim (' ' :: Text.trim after) = Text.trim after := by
      simpa using Text.trim_around [' '] [] (Text.trimmed_trim after)
        (by decide) rfl
    rw [nameAndExpr, hcut']
    dsimp only
    rw [hexpr', require_of_ne hexpr, trim_append_blanks (Text.trimmed_trim before) hgap]
    rfl
  · rw [hrest] at hkind
    exact kindClauseOf_respaced gap [' '] hkind hgap (by decide)

/-- A word without quotes has no `kind=` in it, where a kind may be declared. -/
theorem FirstWord.cut?_kindMark (h : FirstWord rest name) (hq : quoteless name = true)
    (hkind : kindClauseOf rest = .ok kind) : Text.cut? kindMark name = none := by
  have hquote : '"' ∉ name := fun hm => by simpa using List.all_eq_true.mp hq _ hm
  have hmem {p q : Text} : Text.cut? kindMark name ≠ some (p, '"' :: q) := fun hcut =>
    hquote (Text.eq_of_cut? hcut ▸ List.mem_append_right _ List.mem_cons_self)
  obtain ⟨more, rfl, hmore⟩ := h.splits
  cases more with
  | nil =>
    rw [List.append_nil] at hkind
    obtain ⟨hno, -⟩ | ⟨_, _, _, hcut, -⟩ := kindClauseOf_eq_ok.mp hkind
    · exact hno
    · exact absurd hcut hmem
  | cons c more =>
    have hc : isBlank c = true := isBlank_of_isAsciiBlank (by simpa using hmore)
    obtain ⟨_, ⟨_, _, _, hcut, -⟩, -⟩ | ⟨hno, -⟩ :=
      (kindClauseOf_split (separates_of_isBlank hc)).mp hkind
    · exact absurd hcut hmem
    · exact hno

/-- A kind as it is declared. -/
theorem kindClause_some (k : ContentKind) : ∃ clause, kindClause (some k) = ' ' :: clause
    ∧ kindClauseOf clause = .ok (some k) ∧ ':' ∉ ' ' :: clause ∧ Unbraced (' ' :: clause)
    ∧ (' ' :: clause).getLast? = some '"' := by
  refine ⟨"kind=\"".toList ++ k.name.toList ++ ['"'], rfl, ?_⟩
  cases k <;> exact ⟨rfl, by decide⟩

/-- **A name without quotes is read again before the kind it was declared with.** -/
theorem gives_content (hr : Text.Trimmed rest) (hnamed : NamedBy rest name none) (hne : name ≠ [])
    (hkind : kindClauseOf rest = .ok kind) (hu : Unbraced rest) (hq : quoteless name = true)
    (hend : kind = none → unpadded name = true) :
    Gives (name ++ kindClause kind) name none kind := by
  obtain ⟨hcolon, hname⟩ := hnamed
  have hword := firstWord hr hname hne
  have hnot : ':' ∉ name := by
    obtain ⟨more, rfl, -⟩ := hword.splits
    exact fun h => Text.not_mem_of_cut?_none hcolon (List.mem_append_left _ h)
  have hmarks : marks name = [] := by
    obtain ⟨more, rfl, -⟩ := hword.splits
    exact marks_of_quoteless more hq hu
  have hcut := hword.cut?_kindMark hq hkind
  have hnamed (more : Text) (hmore : more.head?.all isAsciiBlank = true) (hc : ':' ∉ more)
      (inner : Text) : nameAndExpr inner (name ++ more) = .ok (name, none) := by
    have hno : Text.cut? [':'] (name ++ more) = none := by
      cases h : Text.cut? [':'] (name ++ more) with
      | none => rfl
      | some r =>
        have hmem : ':' ∈ name ++ more := by
          rw [Text.eq_of_cut? h]
          simp
        exact absurd hmem (by simp [hnot, hc])
    rw [nameAndExpr, hno, Text.splitWord_append hword.word hmore]
  cases kind with
  | none =>
    have htrimmed := hword.trimmed (hend rfl)
    have hnil : name ++ kindClause none = name := List.append_nil name
    rw [hnil]
    refine ⟨hne, htrimmed, Unbraced.nil.of_marks hmarks, fun inner => ?_, ?_⟩
    · simpa using hnamed [] rfl List.not_mem_nil inner
    · exact kindClauseOf_eq_ok.mpr (.inl ⟨hcut, rfl⟩)
  | some k =>
    obtain ⟨clause, hclause, hkind, hcolon, hunbraced, hlast⟩ := kindClause_some k
    rw [hclause]
    refine ⟨by simp, ⟨?_, ?_⟩, hunbraced.of_marks ?_, hnamed _ (by simp; decide) hcolon, ?_⟩
    · rw [List.head?_append_of_ne_nil _ hne]
      exact hword.head
    · rw [List.getLast?_append_of_ne_nil _ (List.cons_ne_nil ' ' clause), hlast]
      rintro c ⟨⟩
      decide
    · rw [marks_append, hmarks, List.nil_append]
    · exact (kindClauseOf_split (by decide)).mpr (.inr ⟨hcut, hkind⟩)

theorem unbraced_of_keyword {word : Text} (hw : marks word = []) (h : Unbraced (word ++ rest)) :
    Unbraced rest :=
  h.of_marks (by rw [marks_append, hw, List.nil_append])

end

section

variable {rest name expr : Text} {expr? : Option Text} {kind : Option ContentKind}

theorem ofWord_param (inner body rest : Text) (selfClosing : Bool) :
    ofWord inner body "param".toList rest selfClosing
      = (do
        let (name, expr) ← nameAndExpr inner rest
        let name ← require inner name
        return .param name expr (← kindClauseOf rest)) := rfl

theorem ofWord_let (inner body rest : Text) (selfClosing : Bool) :
    ofWord inner body "let".toList rest selfClosing
      = (do
        let (var, expr) ← nameAndExpr inner rest
        let var ← variableName inner var
        return .binding var expr (← kindClauseOf rest)) := rfl

theorem Gives.param (h : Gives rest name expr? kind) (hne : name ≠ []) (inner body : Text)
    (selfClosing : Bool) :
    ofWord inner body "param".toList rest selfClosing = .ok (.param name expr? kind) := by
  rw [ofWord_param, h.named, h.kind]
  dsimp only [bind, Except.bind]
  rw [require_of_ne hne]
  rfl

theorem Gives.binding {var : Text} (h : Gives rest ('$' :: var) expr? kind) (inner body : Text)
    (selfClosing : Bool) :
    ofWord inner body "let".toList rest selfClosing = .ok (.binding var expr? kind) := by
  rw [ofWord_let, h.named, h.kind]
  rfl

/-- Text that gives no expression and does not end in a slash may stand at the end. -/
theorem Gives.last (h : Gives (name ++ kindClause kind) name none kind)
    (hend : kind = none → openEnded name = true) :
    (name ++ kindClause kind).getLast? ≠ some '/' := by
  cases kind with
  | none =>
    have hnil : name ++ kindClause none = name := List.append_nil name
    rw [hnil]
    exact getLast?_of_openEnded (hend rfl)
  | some k =>
    obtain ⟨clause, hclause, -, -, -, hlast⟩ := kindClause_some k
    rw [hclause, List.getLast?_append_of_ne_nil _ (List.cons_ne_nil ' ' clause), hlast]
    nofun

/-- **A parameter says again what it said.** -/
theorem Written.paramExpr (h : (Command.param name (some expr) kind).Written) :
    Spells ("param ".toList ++ name ++ ": ".toList ++ expr ++ " /".toList)
      (.param name (some expr) kind) := by
  obtain ⟨inner, h⟩ := h
  obtain ⟨_, hs⟩ | ⟨_, hs⟩ | ⟨word, body, rest, _, hmade, -, -, hr, hu⟩ := madeOf_of_spells h
  · cases hs
  · cases hs
  obtain ⟨hne, rfl, hnamed, hkind⟩ := hmade
  have hgives := gives_expr [] hnamed hne hkind (unbraced_of_keyword (by decide) hu) rfl
  have hspells := spells_keywordSlash "param".toList (by decide) hgives.ne
    hgives.trimmed hgives.unbraced fun inner body => hgives.param hne inner body true
  simpa using hspells

theorem Written.paramContent (h : (Command.param name none kind).Written)
    (hq : quoteless name = true)
    (hend : kind = none → unpadded name = true ∧ openEnded name = true) :
    Spells ("param ".toList ++ name ++ kindClause kind) (.param name none kind) := by
  obtain ⟨inner, h⟩ := h
  obtain ⟨_, hs⟩ | ⟨_, hs⟩ | ⟨word, body, rest, _, hmade, -, -, hr, hu⟩ := madeOf_of_spells h
  · cases hs
  · cases hs
  obtain ⟨hne, rfl, hnamed, hkind⟩ := hmade
  have hgives := gives_content hr hnamed hne hkind (unbraced_of_keyword (by decide) hu) hq
    fun hk => (hend hk).1
  have hspells := spells_keyword "param".toList (by decide) hgives.ne hgives.trimmed
    hgives.unbraced (hgives.last fun hk => (hend hk).2)
    fun inner body => hgives.param hne inner body false
  simpa using hspells

/-- **So does a binding.** -/
theorem Written.bindingExpr {var : Text} (h : (Command.binding var (some expr) kind).Written) :
    Spells ("let $".toList ++ var ++ " : ".toList ++ expr ++ " /".toList)
      (.binding var (some expr) kind) := by
  obtain ⟨inner, h⟩ := h
  obtain ⟨_, hs⟩ | ⟨_, hs⟩ | ⟨word, body, rest, _, hmade, -, -, hr, hu⟩ := madeOf_of_spells h
  · cases hs
  · cases hs
  obtain ⟨rfl, hnamed, hkind⟩ := hmade
  have hgives := gives_expr [' '] hnamed nofun hkind (unbraced_of_keyword (by decide) hu)
    (by decide)
  have hspells := spells_keywordSlash "let".toList (by decide) hgives.ne
    hgives.trimmed hgives.unbraced fun inner body => hgives.binding inner body true
  simpa using hspells

theorem Written.bindingContent {var : Text} (h : (Command.binding var none kind).Written)
    (hq : quoteless var = true)
    (hend : kind = none → unpadded var = true ∧ openEnded var = true) :
    Spells ("let $".toList ++ var ++ kindClause kind) (.binding var none kind) := by
  obtain ⟨inner, h⟩ := h
  obtain ⟨_, hs⟩ | ⟨_, hs⟩ | ⟨word, body, rest, _, hmade, -, -, hr, hu⟩ := madeOf_of_spells h
  · cases hs
  · cases hs
  obtain ⟨rfl, hnamed, hkind⟩ := hmade
  have hlast {p : Char → Bool} (h : var.getLast?.all p = true) (hp : p '$' = true) :
      ('$' :: var).getLast?.all p = true := by
    cases var with
    | nil => simpa using hp
    | cons c cs => simpa using h
  have hgives := gives_content hr hnamed nofun hkind (unbraced_of_keyword (by decide) hu)
    (by simpa [quoteless] using hq) fun hk => hlast (hend hk).1 (by decide)
  have hspells := spells_keyword "let".toList (by decide) hgives.ne hgives.trimmed
    hgives.unbraced (hgives.last fun hk => ?_) fun inner body => hgives.binding inner body false
  · simpa using hspells
  · cases var with
    | nil => rfl
    | cons c cs => simpa [openEnded] using (hend hk).2

end

end Command

end TemplateMarkup
