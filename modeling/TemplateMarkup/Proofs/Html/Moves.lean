/-
# What a lexeme can be

`Context.Move here c l` lists, context by context, every lexeme `l` that html text beginning with
the character `c` can have there: its mark, the context after it, its fault, and what is needed of
its width.  `lexeme_move` says that the list is complete, so a fact about reading is a case
analysis over some thirty rules and the lexer itself is not opened again.

`Assembly.read_rule` is the matching principle for whole runs: a property of the assembly, of the
content that is held back and of the text that is left, holds at the end of a run if content,
marks and the release of held content keep it.
-/
import TemplateMarkup.Html.Reading

namespace TemplateMarkup

/-! ## 1. The rules -/

namespace Context

/-- Contexts in which text is content. -/
def holdsText : Context → Bool
  | pcdata | rcdata _ | comment | declaration | cdata | attrValue _ => true
  | _ => false

/-- The lexemes of text that begins with a given character, in each context. -/
inductive Move : Context → Char → Lexeme → Prop
  -- content between tags
  | text {c : Char} (w : Nat) : Move pcdata c ⟨pcdata, none, w + 1, none⟩
  | badTag {c : Char} (w : Nat) : Move pcdata c ⟨pcdata, none, w + 1, some .illegalTagName⟩
  | openCdata {c : Char} : Move pcdata c ⟨cdata, none, 9, none⟩
  | openDeclaration {c : Char} : Move pcdata c ⟨declaration, none, 2, none⟩
  | openComment {c : Char} : Move pcdata c ⟨comment, some .commentStart, 4, none⟩
  | openTag {c : Char} (close : Bool) (w : Nat) :
      Move pcdata c ⟨tagName .empty, some (.tagStart close), w + 1, none⟩
  -- text up to a fixed mark
  | rcdataText {c : Char} (e : Rcdata) (w : Nat) : Move (rcdata e) c ⟨rcdata e, none, w + 1, none⟩
  | closeRcdata {c : Char} (e : Rcdata) :
      Move (rcdata e) c ⟨tagName .empty, some (.tagStart true), 2, none⟩
  | commentText {c : Char} (w : Nat) : Move comment c ⟨comment, none, w + 1, none⟩
  | closeComment {c : Char} : Move comment c ⟨pcdata, some .commentEnd, 3, none⟩
  | declarationText {c : Char} (w : Nat) : Move declaration c ⟨declaration, none, w + 1, none⟩
  | closeDeclaration {c : Char} (w : Nat) : Move declaration c ⟨pcdata, none, w + 1, none⟩
  | cdataText {c : Char} (w : Nat) : Move cdata c ⟨cdata, none, w + 1, none⟩
  | closeCdata {c : Char} (w : Nat) : Move cdata c ⟨pcdata, none, w + 1, none⟩
  -- tag names
  | nameChars {c : Char} (part : NamePart) (w : Nat) (hp : part ≠ .dynamic) :
      Move (tagName part) c ⟨tagName .static, some .tagNameChars, w + 1, none⟩
  | abort {c : Char} (part : NamePart) :
      Move (tagName part) c ⟨pcdata, some .tagAbort, 0, some .illegalTagName⟩
  | nameEnd {c : Char} (part : NamePart) (hp : part ≠ .empty) :
      Move (tagName part) c ⟨beforeAttrName, some .tagNameEnd, 0, none⟩
  | nameGlued {c : Char} :
      Move (tagName .dynamic) c ⟨beforeAttrName, some .tagNameEnd, 0, some .expectedBlank⟩
  -- between attributes
  | skipInTag {c : Char} (w : Nat) : Move beforeAttrName c ⟨beforeAttrName, some .skip, w + 1, none⟩
  | endTag {c : Char} (selfClosing : Bool) (w : Nat) :
      Move beforeAttrName c ⟨pcdata, some (.tagEnd selfClosing), w + 1, none⟩
  | attrStart {c : Char} (hc : startsAttrName c) :
      Move beforeAttrName c ⟨attrName .empty false false, some .attrNameStart, 0, none⟩
  | badAttr {c : Char} :
      Move beforeAttrName c
        ⟨attrName .empty false true, some .attrNameStart, 0, some .illegalAttrName⟩
  -- attribute names
  | skipDropped {c : Char} (part : NamePart) (sep : Bool) :
      Move (attrName part sep true) c ⟨attrName part false true, some .skip, 1, none⟩
  | spoiled {c : Char} (part : NamePart) (sep : Bool) (hp : part ≠ .dynamic) :
      Move (attrName part sep false) c
        ⟨attrName part false true, some .skip, 0, some .illegalAttrName⟩
  | attrChar {c : Char} (part : NamePart) (sep sep' : Bool) (hp : part ≠ .dynamic) :
      Move (attrName part sep false) c ⟨attrName .static sep' false, some .attrNameChar, 1, none⟩
  | equals {c : Char} (part : NamePart) (sep drop : Bool)
      (hc : part = .empty → drop = false → startsAttrName c = false) :
      Move (attrName part sep drop) c ⟨beforeAttrValue, some .attrEquals, 1, none⟩
  | attrEnd {c : Char} (part : NamePart) (sep drop : Bool)
      (hc : part = .empty → drop = false → startsAttrName c = false) :
      Move (attrName part sep drop) c ⟨beforeAttrName, some .attrNameEnd, 0, none⟩
  | attrGlued {c : Char} (sep : Bool) :
      Move (attrName .dynamic sep false) c
        ⟨beforeAttrName, some .attrNameEnd, 0, some .expectedBlank⟩
  -- values
  | skipBeforeValue {c : Char} (w : Nat) :
      Move beforeAttrValue c ⟨beforeAttrValue, some .skip, w + 1, none⟩
  | openQuoted {c : Char} (quotes : Quotes) (hq : quotes ≠ .bare) :
      Move beforeAttrValue c ⟨attrValue quotes, some (.valueStart quotes), 1, none⟩
  | openBare {c : Char} :
      Move beforeAttrValue c ⟨attrValue .bare, some (.valueStart .bare), 0, none⟩
  | valueText {c : Char} (quotes : Quotes) (w : Nat) :
      Move (attrValue quotes) c ⟨attrValue quotes, none, w + 1, none⟩
  | closeBare {c : Char} : Move (attrValue .bare) c ⟨beforeAttrName, some .valueEnd, 0, none⟩
  | closeQuoted {c : Char} (quotes : Quotes) (hq : quotes ≠ .bare) :
      Move (attrValue quotes) c ⟨beforeAttrName, some .valueEnd, 1, none⟩

end Context

/-! ## 2. The rules are complete -/

/-- A run that begins with a character of the class is not empty. -/
theorem Text.run_cons_of {p : Char → Bool} {c : Char} (h : p c) (cs : Text) :
    Text.run p (c :: cs) = Text.run p cs + 1 := by
  simp [Text.run, h]

theorem not_startsAttrName_of_endsName {c : Char} (h : endsName c) : startsAttrName c = false := by
  simp only [endsName, isAsciiBlank, Bool.or_eq_true, beq_iff_eq] at h
  rcases h with (((((rfl | rfl) | rfl) | rfl) | rfl) | rfl) | rfl <;> decide

theorem not_startsAttrName_of_atEnd {c : Char} (h : (endsName c || c == '=') = true) :
    startsAttrName c = false := by
  rcases Bool.or_eq_true _ _ ▸ h with h | h
  · exact not_startsAttrName_of_endsName h
  · rw [beq_iff_eq.mp h]
    decide

namespace Lexeme

open Context (Move)

theorem atAngle_move (c : Char) (cs : Text) : Move .pcdata c (atAngle cs) := by
  unfold atAngle
  split
  · exact Move.openComment
  · split
    · exact Move.openCdata
    · split
      · exact Move.openDeclaration
      · split
        · exact Move.openTag false 0
        · exact Move.openTag true 1
        · split
          · exact Move.openTag true 1
          · exact Move.badTag 1
        · split
          · exact Move.openTag false 0
          · exact Move.badTag 0

theorem inPcdata_move (c : Char) (cs : Text) : Move .pcdata c (inPcdata c cs) := by
  unfold inPcdata
  split
  · exact atAngle_move c cs
  · exact Move.text _

theorem inRcdata_move (e : Rcdata) (c : Char) (cs : Text) :
    Move (.rcdata e) c (inRcdata e (c :: cs)) := by
  unfold inRcdata
  split
  · exact Move.rcdataText e cs.length
  · exact Move.closeRcdata e
  · next n hn _ =>
    obtain ⟨m, rfl⟩ := Nat.exists_eq_succ_of_ne_zero (n := n) fun h => hn h
    exact Move.rcdataText e m

theorem inComment_move (c : Char) (cs : Text) : Move .comment c (inComment (c :: cs)) := by
  unfold inComment
  split
  · exact Move.commentText cs.length
  · exact Move.closeComment
  · next n hn _ =>
    obtain ⟨m, rfl⟩ := Nat.exists_eq_succ_of_ne_zero (n := n) fun h => hn h
    exact Move.commentText m

theorem inTagNameAt_move (part : NamePart) (c : Char) (cs : Text) :
    Move (.tagName part) c (inTagNameAt part c cs) := by
  have chars {q : NamePart} (hq : q ≠ .dynamic) (h : inTagName c = true) :
      Move (.tagName q) c
        (marking .tagNameChars (.tagName .static) (Text.run inTagName (c :: cs))) := by
    rw [Text.run_cons_of h]
    exact Move.nameChars q _ hq
  cases part with
  | empty =>
    simp only [inTagNameAt]
    split
    · next h =>
      refine chars (by decide) ?_
      simp only [startsTagName] at h
      simp [inTagName, Char.isAlphanum, h]
    · exact Move.abort _
  | static =>
    simp only [inTagNameAt]
    split
    · exact Move.nameEnd _ (by decide)
    · split
      · next h => exact chars (by decide) h
      · exact Move.abort _
  | dynamic =>
    simp only [inTagNameAt]
    split
    · exact Move.nameEnd _ (by decide)
    · exact Move.nameGlued

theorem inTag_move (c : Char) (cs : Text) : Move .beforeAttrName c (inTag c cs) := by
  unfold inTag
  split
  · next h =>
    rw [Text.run_cons_of h]
    exact Move.skipInTag _
  · split
    · exact Move.endTag false 0
    · split
      · split
        · exact Move.endTag true 1
        · exact Move.skipInTag 0
      · split
        · next h => exact Move.attrStart h
        · exact Move.badAttr

theorem atAttrNameEnd_move {part : NamePart} {sep drop : Bool} {c : Char}
    (h : (endsName c || c == '=') = true) : Move (.attrName part sep drop) c (atAttrNameEnd c) := by
  have hc := not_startsAttrName_of_atEnd h
  unfold atAttrNameEnd
  split
  · exact Move.equals part sep drop fun _ _ => hc
  · exact Move.attrEnd part sep drop fun _ _ => hc

theorem inAttrNameAt_move (part : NamePart) (sep drop : Bool) (c : Char) :
    Move (.attrName part sep drop) c (inAttrNameAt part sep drop c) := by
  cases drop with
  | true =>
    simp only [inAttrNameAt, if_true]
    split
    · next h => exact atAttrNameEnd_move h
    · exact Move.skipDropped part sep
  | false =>
    cases part with
    | dynamic =>
      simp only [inAttrNameAt, Bool.false_eq_true, if_false]
      split
      · next h => exact atAttrNameEnd_move h
      · exact Move.attrGlued sep
    | empty =>
      simp only [inAttrNameAt, Bool.false_eq_true, if_false]
      split
      · next h =>
        split
        · exact Move.spoiled .empty sep (by decide)
        · exact atAttrNameEnd_move h
      · split
        · exact Move.attrChar .empty sep false (by decide)
        · exact Move.spoiled .empty sep (by decide)
    | static =>
      simp only [inAttrNameAt, Bool.false_eq_true, if_false]
      split
      · next h =>
        split
        · exact Move.spoiled .static sep (by decide)
        · exact atAttrNameEnd_move h
      · split
        · exact Move.attrChar .static sep false (by decide)
        · split
          · exact Move.attrChar .static sep true (by decide)
          · exact Move.spoiled .static sep (by decide)

theorem beforeValue_move (c : Char) (cs : Text) : Move .beforeAttrValue c (beforeValue c cs) := by
  unfold beforeValue
  split
  · next h =>
    rw [Text.run_cons_of h]
    exact Move.skipBeforeValue _
  · split
    · exact Move.openQuoted .double (by decide)
    · split
      · exact Move.openQuoted .single (by decide)
      · exact Move.openBare

theorem inValue_move (quotes : Quotes) (c : Char) (cs : Text) :
    Move (.attrValue quotes) c (inValue quotes c cs) := by
  cases quotes with
  | bare =>
    simp only [inValue, Quotes.char?]
    split
    · next h =>
      rw [Text.run_cons_of h]
      exact Move.valueText _ _
    · exact Move.closeBare
  | single =>
    simp only [inValue, Quotes.char?]
    split
    · exact Move.closeQuoted _ (by decide)
    · next h =>
      rw [Text.run_cons_of (by simpa using h)]
      exact Move.valueText _ _
  | double =>
    simp only [inValue, Quotes.char?]
    split
    · exact Move.closeQuoted _ (by decide)
    · next h =>
      rw [Text.run_cons_of (by simpa using h)]
      exact Move.valueText _ _

end Lexeme

/-- **Every lexeme follows one of the rules.** -/
theorem Context.lexeme_move (here : Context) (c : Char) (cs : Text) :
    Move here c (here.lexeme c cs) := by
  cases here with
  | pcdata => exact Lexeme.inPcdata_move c cs
  | rcdata e => exact Lexeme.inRcdata_move e c cs
  | comment => exact Lexeme.inComment_move c cs
  | declaration =>
    simp only [Context.lexeme, Lexeme.inDelimited]
    split
    · exact Move.declarationText cs.length
    · next n _ => exact Move.closeDeclaration n
  | cdata =>
    simp only [Context.lexeme, Lexeme.inDelimited]
    split
    · exact Move.cdataText cs.length
    · next n _ => exact Move.closeCdata (n + 2)
  | tagName part => exact Lexeme.inTagNameAt_move part c cs
  | beforeAttrName => exact Lexeme.inTag_move c cs
  | attrName part sep drop => exact Lexeme.inAttrNameAt_move part sep drop c
  | beforeAttrValue => exact Lexeme.beforeValue_move c cs
  | attrValue quotes => exact Lexeme.inValue_move quotes c cs

/-- Content takes characters, and stands where text is content. -/
theorem Context.Move.of_content {here : Context} {c : Char} {l : Lexeme} (h : Move here c l)
    (hm : l.mark = none) : 0 < l.width ∧ here.holdsText = true ∧ l.next.holdsText = true := by
  cases h <;> first | exact ⟨Nat.succ_pos _, rfl, rfl⟩ | simp at hm

/-! ## 3. Whole runs -/

/-- The text that is held back. -/
def Held.textOf : Option Held → Text
  | none => []
  | some h => h.text

/-- The byte at which it starts, or at which it would start. -/
def Held.startOf (pos : Nat) : Option Held → Nat
  | none => pos
  | some h => h.start

theorem Held.start_add (held : Option Held) (pos : Nat) (text : Text) :
    (Held.add held pos text).start = Held.startOf pos held := by
  cases held <;> rfl

theorem Held.textOf_add (held : Option Held) (pos : Nat) (text : Text) :
    (Held.add held pos text).text = Held.textOf held ++ text := by
  cases held with
  | none => exact Held.text_add_none pos text
  | some h => exact Held.text_add_some h pos text

namespace Assembly

@[simp] theorem reportLexeme_context (b : Assembly) (location : Span) (l : Lexeme) :
    (b.reportLexeme location l).context = b.context := by
  unfold reportLexeme
  split <;> rfl

theorem release_context (b : Assembly) (run : RawRun) (held : Option Held) (pos : Nat) :
    (b.release run held pos).context = b.context := by
  cases held with
  | none => rfl
  | some k => exact addText_context ..

/-- Text that is added and a report do not get in each other's way. -/
theorem addText_reportLexeme (b : Assembly) (location place : Span) (l : Lexeme) (text : Text) :
    (b.reportLexeme location l).addText text place
      = (b.addText text place).reportLexeme location l := by
  cases l with
  | mk next mark width fault =>
    rcases fault with _ | (_ | _ | _)
    · rfl
    all_goals
      simp only [reportLexeme, report, addText, content, setContent, Ledger.report, Ledger.drawn]
      repeat' split
      all_goals simp_all

/-- Content is read: it is held back. -/
theorem read_of_content {b : Assembly} {c : Char} {cs : Text}
    (hm : (b.context.lexeme c cs).mark = none) (run : RawRun) (pos : Nat) (held : Option Held) :
    let l := b.context.lexeme c cs
    let text : Text := (c :: cs).take l.width
    b.read run pos held (c :: cs)
      = ((b.reportLexeme (run.location pos (pos + max text.size c.utf8Size)) l).enter l.next
          (run.locate pos)).read run (pos + text.size) (some (Held.add held pos text))
        ((c :: cs).drop l.width) := by
  intro l text
  rw [read]
  split
  · rfl
  · next m hm' => exact absurd (hm.symm.trans hm') (by simp)

/-- A mark is read: what is held back is released before it. -/
theorem read_of_mark {b : Assembly} {c : Char} {cs : Text} {m : Mark}
    (hm : (b.context.lexeme c cs).mark = some m) (run : RawRun) (pos : Nat) (held : Option Held) :
    let l := b.context.lexeme c cs
    let text : Text := (c :: cs).take l.width
    b.read run pos held (c :: cs)
      = (((b.reportLexeme (run.location pos (pos + max text.size c.utf8Size)) l).release run held
          pos).apply m l.next text (run.location pos (pos + text.size))).read run (pos + text.size)
        none ((c :: cs).drop l.width) := by
  intro l text
  rw [read]
  split
  · next hm' => exact absurd (hm.symm.trans hm') (by simp)
  · next m' hm' =>
    obtain rfl : m = m' := Option.some.inj (hm.symm.trans hm')
    rfl

/-- **What holds at the end of a run.**  `P b start pos h t` speaks of the assembly, of the content
`h` that is held back, of the byte of the run at which it starts, and of the text `t` that is left,
from byte `pos` on. -/
theorem read_rule_located {run : RawRun} {P : Assembly → Nat → Nat → Text → Text → Prop}
    (content : ∀ {b : Assembly} {start pos : Nat} {h : Text} {c : Char} {cs : Text},
      P b start pos h (c :: cs) → (b.context.lexeme c cs).mark = none →
      let text : Text := (c :: cs).take (b.context.lexeme c cs).width
      P ((b.reportLexeme (run.location pos (pos + max text.size c.utf8Size))
            (b.context.lexeme c cs)).enter (b.context.lexeme c cs).next (run.locate pos))
        start (pos + text.size) (h ++ text) ((c :: cs).drop (b.context.lexeme c cs).width))
    (release : ∀ {b : Assembly} {start pos : Nat} {h t : Text},
      P b start pos h t → h ≠ [] → b.context.holdsText = true →
      P (b.addText h (run.location start pos)) pos pos [] t)
    (mark : ∀ {b : Assembly} {pos : Nat} {c : Char} {cs : Text} {m : Mark},
      P b pos pos [] (c :: cs) → (b.context.lexeme c cs).mark = some m →
      let text : Text := (c :: cs).take (b.context.lexeme c cs).width
      P ((b.reportLexeme (run.location pos (pos + max text.size c.utf8Size))
            (b.context.lexeme c cs)).apply m (b.context.lexeme c cs).next text
            (run.location pos (pos + text.size)))
        (pos + text.size) (pos + text.size) [] ((c :: cs).drop (b.context.lexeme c cs).width))
    {b : Assembly} {pos : Nat} {held : Option Held} {t : Text}
    (hP : P b (Held.startOf pos held) pos (Held.textOf held) t)
    (hHeld : ∀ k, held = some k → k.text ≠ [] ∧ b.context.holdsText = true) :
    ∃ stop, P (b.read run pos held t) stop stop [] [] := by
  -- what is held is released before the end and before a mark
  have released {b : Assembly} {pos : Nat} {held : Option Held} {t : Text}
      (hP : P b (Held.startOf pos held) pos (Held.textOf held) t)
      (hHeld : ∀ k, held = some k → k.text ≠ [] ∧ b.context.holdsText = true) :
      P (b.release run held pos) pos pos [] t
        ∧ (b.release run held pos).context = b.context := by
    cases held with
    | none => exact ⟨hP, rfl⟩
    | some k => exact ⟨release hP (hHeld k rfl).1 (hHeld k rfl).2, addText_context ..⟩
  induction b, pos, held, t using read.induct run with
  | case1 b pos held =>
    rw [read]
    exact ⟨pos, (released hP hHeld).1⟩
  | case2 b pos held c cs l text stop faultStop b' hm ih =>
    have hmove := Context.Move.of_content (Context.lexeme_move b.context c cs) hm
    have htext : text ≠ [] := by
      intro h
      have : text.length = 0 := by rw [h]; rfl
      simp only [text, l, List.length_take, List.length_cons] at this
      have := hmove.1
      omega
    rw [read_of_content hm]
    refine ih ?_ ?_
    · have key := content hP hm
      dsimp only at key
      rwa [← Held.textOf_add held pos, ← Held.start_add held pos] at key
    · intro k hk
      cases hk
      refine ⟨?_, ?_⟩
      · rw [Held.textOf_add]
        exact List.append_ne_nil_of_right_ne_nil _ htext
      · rw [enter_context]
        exact hmove.2.2
  | case3 b pos held c cs l text stop faultStop b' m hm ih =>
    rw [read_of_mark hm]
    obtain ⟨hP', hc⟩ := released hP hHeld
    have hrel : b'.release run held pos
        = (b.release run held pos).reportLexeme (run.location pos faultStop) l := by
      cases held with
      | none => rfl
      | some k => exact addText_reportLexeme ..
    have key := mark (m := m) hP' (by rw [hc]; exact hm)
    dsimp only at key
    rw [hc] at key
    refine ih ?_ (fun k hk => by cases hk)
    rw [hrel]
    exact key

/-- The same where the places do not matter. -/
theorem read_rule {P : Assembly → Text → Text → Prop}
    (content : ∀ {b : Assembly} {h : Text} {c : Char} {cs : Text} (loc : Span) (off : Nat),
      P b h (c :: cs) → (b.context.lexeme c cs).mark = none →
      P ((b.reportLexeme loc (b.context.lexeme c cs)).enter (b.context.lexeme c cs).next off)
        (h ++ (c :: cs).take (b.context.lexeme c cs).width)
        ((c :: cs).drop (b.context.lexeme c cs).width))
    (release : ∀ {b : Assembly} {h t : Text} (loc : Span),
      P b h t → h ≠ [] → b.context.holdsText = true → P (b.addText h loc) [] t)
    (mark : ∀ {b : Assembly} {c : Char} {cs : Text} {m : Mark} (loc loc' : Span),
      P b [] (c :: cs) → (b.context.lexeme c cs).mark = some m →
      P ((b.reportLexeme loc (b.context.lexeme c cs)).apply m (b.context.lexeme c cs).next
          ((c :: cs).take (b.context.lexeme c cs).width) loc')
        [] ((c :: cs).drop (b.context.lexeme c cs).width))
    {run : RawRun} {b : Assembly} {pos : Nat} {held : Option Held} {t : Text}
    (hP : P b (Held.textOf held) t)
    (hHeld : ∀ k, held = some k → k.text ≠ [] ∧ b.context.holdsText = true) :
    P (b.read run pos held t) [] [] :=
  (read_rule_located (P := fun b _ _ h t => P b h t) (content _ _) (release _) (mark _ _) hP
    hHeld).choose_spec

end Assembly

end TemplateMarkup
