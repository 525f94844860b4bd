/-
# Reading raw text

Raw text is read lexeme by lexeme into an assembly.  Content is held back until a mark or the
end of the text comes, so that a stretch of content is one text with one location; a mark opens,
fills or closes a draft and moves to another context.

`Assembly.read` comes to the end of every text: a lexeme takes characters, or it goes down in
`Context.rank`, and what the assembly does with a mark never goes up again (`rank_apply_le`).
-/
import TemplateMarkup.RawRun
import TemplateMarkup.Html.Assembly
import TemplateMarkup.Html.Lexeme

namespace TemplateMarkup

/-! ## 1. Held content -/

/-- Content that has been read and not yet added: the byte at which it starts, and its
characters with the latest first. -/
structure Held where
  start : Nat
  reversed : Text

/-- The held text. -/
def Held.text (h : Held) : Text := h.reversed.reverse

/-- More content is held, from byte `pos` of the run on. -/
def Held.add (held : Option Held) (pos : Nat) (text : Text) : Held :=
  match held with
  | none => ⟨pos, text.reverse⟩
  | some h => ⟨h.start, text.reverseAux h.reversed⟩

@[simp] theorem Held.text_add_none (pos : Nat) (text : Text) :
    (Held.add none pos text).text = text := by
  simp [Held.add, Held.text]

@[simp] theorem Held.text_add_some (h : Held) (pos : Nat) (text : Text) :
    (Held.add (some h) pos text).text = h.text ++ text := by
  simp [Held.add, Held.text]

/-- The context with the attribute in it dropped, if `refused`. -/
def Context.refusing (refused : Bool) : Context → Context
  | .attrName name afterSeparator discard => .attrName name afterSeparator (discard || refused)
  | here => here

theorem Context.rank_refusing_le (c : Char) (refused : Bool) (here : Context) :
    (here.refusing refused).rank c ≤ here.rank c := by
  cases here <;> cases refused <;> simp only [Context.refusing, Bool.or_true, Bool.or_false] <;>
    try exact Nat.le_refl _
  next name _ discard =>
    unfold Context.rank Context.rankAtEnd Context.rankInside
    cases discard <;> cases name <;> split <;> simp

namespace Assembly

/-- Adds the content that is held, which ends at byte `pos` of the run. -/
def release (b : Assembly) (run : RawRun) (held : Option Held) (pos : Nat) : Assembly :=
  match held with
  | none => b
  | some h => b.addText h.text (run.location h.start pos)

/-! ## 2. Marks -/

/-- Reports the fault of a lexeme that stands at `location`. -/
def reportLexeme (b : Assembly) (location : Span) (l : Lexeme) : Assembly :=
  match l.fault with
  | none => b
  | some .illegalTagName => b.report location .illegalTagName
  | some .illegalAttrName => b.report location .illegalAttrName
  | some .expectedBlank => b.report location .expectedBlankAfterName

/-- Does what a mark says, and goes on in the context after it.  `text` are the characters of
the mark and `location` is where they stand. -/
def apply (b : Assembly) (mark : Mark) (next : Context) (text : Text) (location : Span) :
    Assembly :=
  let start := location.start
  let stop := location.stop
  match mark with
  | .skip =>
    (if next.discards && !b.context.discards then b.discardAttr else b).enter next start
  | .tagStart close => (b.openTag close location).enter next start
  | .tagNameChars => (b.addTagName text location).enter next start
  | .tagNameEnd => b.finishTagName.enter next start
  | .tagAbort =>
    match b.tag with
    | some _ => b.abortTag
    | none => b.enter next start
  | .tagEnd selfClosing =>
    match b.tag with
    | some _ => b.closeTag selfClosing stop true
    | none => b.report location (.closedInOtherBlock .tag)
  | .attrNameStart =>
    (b.openAttr (Span.point start) none next.discards).enter
      (next.refusing b.attrFault?.isSome) start
  | .attrNameChar => (b.addAttrName text location).enter next start
  | .attrNameEnd => (b.endAttr start).enter next start
  | .attrEquals => b.finishAttrName.enter next start
  | .valueStart quotes => { b with value := some ⟨quotes, start, []⟩ }.enter next start
  | .valueEnd =>
    match b.value with
    | some _ => (b.endValue stop).enter next stop
    | none =>
      let b := b.report location (.closedInOtherBlock .attributeValue)
      if text.isEmpty then b.enter next start else b.addText text location
  | .commentStart => { b with comment := some ⟨start, []⟩ }.enter next start
  | .commentEnd =>
    match b.comment with
    | some _ => (b.endComment stop).enter next start
    | none => (b.report location (.closedInOtherBlock .comment)).addText text location

/-! ## 3. Progress -/

@[simp] theorem setContent_context (b : Assembly) (nodes : List Node) :
    (b.setContent nodes).context = b.context := by
  unfold setContent
  split <;> rfl

@[simp] theorem addText_context (b : Assembly) (text : Text) (location : Span) :
    (b.addText text location).context = b.context := by
  unfold addText
  split <;> simp

theorem abortTag_context {b : Assembly} {tag : TagDraft} (h : b.tag = some tag) :
    b.abortTag.context = tag.outside := by
  unfold abortTag
  simp only [h]
  split <;> simp [addOut]

/-- **A mark without characters leaves the rank where the lexeme put it, or lower.** -/
theorem rank_apply_le (b : Assembly) {mark : Mark} {next : Context} (location : Span) (c : Char)
    (h : mark.mayBeEmpty = true) :
    (b.apply mark next [] location).context.rank c ≤ next.rank c := by
  cases mark <;> simp only [Mark.mayBeEmpty, Bool.false_eq_true] at h <;> simp only [apply]
  case tagAbort =>
    split
    · next tag ht =>
      rw [abortTag_context ht]
      unfold TagDraft.outside
      split <;> simp [Context.rank, Context.rankAtEnd, Context.rankInside]
    · simp
  case attrNameStart =>
    rw [enter_context]
    exact Context.rank_refusing_le ..
  case valueEnd => split <;> simp
  all_goals simp

/-! ## 4. Reading to the end -/

/-- Reads the rest of a run, which starts at byte `pos`. -/
def read (b : Assembly) (run : RawRun) (pos : Nat) (held : Option Held) (t : Text) : Assembly :=
  match t with
  | [] => b.release run held pos
  | c :: cs =>
    let l := b.context.lexeme c cs
    let text : Text := (c :: cs).take l.width
    let stop := pos + text.size
    let faultStop := pos + max text.size c.utf8Size
    let b' := b.reportLexeme (run.location pos faultStop) l
    match _hMark : l.mark with
    | none =>
      (b'.enter l.next (run.locate pos)).read run stop (some (Held.add held pos text))
        ((c :: cs).drop l.width)
    | some mark =>
      ((b'.release run held pos).apply mark l.next text (run.location pos stop)).read run stop
        none ((c :: cs).drop l.width)
termination_by b.context.workLeft t
decreasing_by
  · exact Context.workLeft_drop_lt fun _ => Nat.le_of_eq (by rw [enter_context])
  · refine Context.workLeft_drop_lt fun hw => ?_
    have hText : (c :: cs).take (b.context.lexeme c cs).width = [] := by rw [hw]; rfl
    rw [hText]
    exact rank_apply_le _ _ c (Context.mayBeEmpty_of_width_eq_zero hw _hMark)

/-- Reads a run of raw text. -/
def readRun (b : Assembly) (run : RawRun) : Assembly :=
  let b := { b with ledger := b.ledger.countRun }
  { b.read run 0 none run.text with offset := run.locateEnd run.text.size }

end Assembly

end TemplateMarkup
