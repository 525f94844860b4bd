/-
# Every moment of a run

`Coherent` speaks of an assembly when all its nodes have been fed.  Here the same is said of every
moment on the way: before each node, before and after each lexeme of a raw run, between a name and
the control flow that ends it, and after each draft that is closed at the end.

A run is cut into moments (`Moment`), each with the one that follows it (`Moment.next`).
`reaches_closed` says that this is the pass itself: the moments of a run end with the assembly that
`feedNodes` and `closeDrafts` give.  `Moment.Fits` is what holds at every moment before the first
report, one case for each kind of moment, and `moment_inOrder` reads off it which drafts are open.
-/
import Mathlib.Logic.Relation
import TemplateMarkup.Proofs.Html.Coherence

namespace TemplateMarkup

/-! ## 1. Which drafts are open -/

/-- **The drafts that are open go with the context.**  A branch that was entered inside a value or
a comment, or before a value, has not opened the draft that its surroundings hold. -/
def Assembly.DraftsInOrder (b : Assembly) : Prop :=
  match b.context with
  | .pcdata | .rcdata _ | .declaration | .cdata =>
    b.tag = none ∧ b.attr = none ∧ b.value = none ∧ b.comment = none
  | .tagName part =>
    (∃ tag, b.tag = some tag ∧ tag.Spells part) ∧ b.attr = none ∧ b.value = none ∧ b.comment = none
  | .beforeAttrName =>
    b.attr = none ∧ b.value = none ∧ b.comment = none
      ∧ ∀ tag, b.tag = some tag → tag.name.isSome = true
  | .attrName .. => ∃ attr, b.attr = some attr ∧ attr.discard = false
  | .beforeAttrValue =>
    b.value = none
      ∧ (b.entry = .beforeAttrValue ∨ ∃ attr, b.attr = some attr ∧ attr.name.isSome = true)
  | .attrValue quotes =>
    b.entry = .attrValue quotes ∨ ∃ value, b.value = some value ∧ value.quotes = quotes
  | .comment => b.entry = .comment ∨ b.comment.isSome = true

theorem Context.HoldsTag.isSome {entry : Context} {tag : Option TagDraft} (h : entry.HoldsTag tag) :
    ∀ t, tag = some t → t.name.isSome = true := by
  rintro t rfl
  exact h.2.1

theorem Context.HoldsSlot.entry_or {entry : Context} {attr : Option AttrDraft}
    (h : entry.HoldsSlot attr) :
    entry = .beforeAttrValue ∨ ∃ a, attr = some a ∧ a.name.isSome = true := by
  cases attr with
  | none => exact Or.inl h
  | some a => exact Or.inr ⟨a, rfl, h.2⟩

theorem Assembly.Coherent.inOrder {b : Assembly} {t : Text} (h : b.Coherent t) : b.DraftsInOrder := by
  obtain ⟨ledger, entry, here, inBranch, out, tag, attr, value, comment, filled, raw, offset⟩ := b
  dsimp only [Assembly.Coherent] at h
  cases h with
  | content _ hh =>
    cases here with
    | pcdata | rcdata | declaration | cdata => exact ⟨rfl, rfl, rfl, rfl⟩
    | comment | tagName | beforeAttrName | attrName | beforeAttrValue | attrValue =>
      simp [Context.isContent] at hh
  | comment => exact Or.inr rfl
  | inComment he => exact Or.inl he
  | tagName _ hs => exact ⟨⟨_, rfl, hs⟩, rfl, rfl, rfl⟩
  | inTag ht => exact ⟨rfl, rfl, rfl, ht.isSome⟩
  | attrName _ hd => exact ⟨_, rfl, hd⟩
  | beforeValue _ ha => exact ⟨rfl, ha.entry_or⟩
  | value draft => exact Or.inr ⟨draft, rfl, rfl⟩
  | inValue he => exact Or.inl he

/-! ## 2. Moments -/

/-- The drafts in the order in which they are closed at the end. -/
inductive Closing
  | value
  | attr
  | tag
  | comment

/-- A moment of the run that feeds nodes to an assembly and closes it.  A moment in a raw run
keeps what comes after the run: the text that is collected already, and the nodes. -/
inductive Moment
  /-- Before the first of the nodes; `run` is the raw text collected before it. -/
  | between (b : Assembly) (run : Option RawRun) (nodes : List Node)
  /-- In a raw run, before the text `left`, which stands at byte `pos`. -/
  | reading (b : Assembly) (run : RawRun) (pos : Nat) (held : Option Held) (left : Text)
      (later : Option RawRun) (nodes : List Node)
  /-- The mark of a lexeme has been seen, and the content before it has been added. -/
  | marked (b : Assembly) (run : RawRun) (pos : Nat) (l : Lexeme) (mark : Mark) (left : Text)
      (later : Option RawRun) (nodes : List Node)
  /-- Before control flow, when the name that was being read has ended. -/
  | atFlow (b : Assembly) (flow : Flow) (nodes : List Node)
  /-- At the end, before a draft is closed; `stop` is the offset of the end. -/
  | closing (b : Assembly) (draft : Closing) (stop : Nat)
  | closed (b : Assembly)

namespace Moment

/-- The assembly at a moment. -/
def assembly : Moment → Assembly
  | between b .. | reading b .. | marked b .. | atFlow b .. | closing b .. | closed b => b

/-- The beginning of a raw run. -/
def begin (b : Assembly) (run : RawRun) (later : Option RawRun) (nodes : List Node) : Moment :=
  .reading { b with ledger := b.ledger.countRun } run 0 none run.text later nodes

/-- The moment after collecting a raw text node. -/
def collecting (b : Assembly) (run : Option RawRun) (text : Text) (location : Span)
    (nodes : List Node) : Moment :=
  match run with
  | none => .between b (some (.single text location)) nodes
  | some run =>
    if b.ledger.config.joinText then .between b (some (run.push text location)) nodes
    else begin b run (some (.single text location)) nodes

/-- The moment after one lexeme, or after its content if it is a mark. -/
def lexing (b : Assembly) (run : RawRun) (pos : Nat) (held : Option Held) (c : Char) (cs : Text)
    (later : Option RawRun) (nodes : List Node) : Moment :=
  let l := b.context.lexeme c cs
  let text : Text := (c :: cs).take l.width
  let b' := b.reportLexeme (run.location pos (pos + max text.size c.utf8Size)) l
  match l.mark with
  | none =>
    .reading (b'.enter l.next (run.locate pos)) run (pos + text.size)
      (some (Held.add held pos text)) ((c :: cs).drop l.width) later nodes
  | some mark => .marked (b'.release run held pos) run pos l mark (c :: cs) later nodes

/-- The moment that follows. -/
def next : Moment → Option Moment
  | between b none [] => some (.closing b.settleAtEnd .value b.offset)
  | between b (some run) [] => some (begin b run none [])
  | between b run (n :: nodes) =>
    match n.rawText?, run with
    | some text, run => some (collecting b run text n.location nodes)
    | none, some run => some (begin b run none (n :: nodes))
    | none, none =>
      match n with
      | .flow flow => some (.atFlow (b.settle flow.location) flow nodes)
      | n => some (.between (feedNode b n) none nodes)
  | reading b run pos held [] later nodes =>
    some (.between { b.release run held pos with offset := run.locateEnd run.text.size } later
      nodes)
  | reading b run pos held (c :: cs) later nodes =>
    some (lexing b run pos held c cs later nodes)
  | marked b run pos l mark left later nodes =>
    let text : Text := left.take l.width
    let stop := pos + text.size
    some (.reading (b.apply mark l.next text (run.location pos stop)) run stop none
      (left.drop l.width) later nodes)
  | atFlow b flow nodes =>
    let (flow, exit, ledger) := rewriteFlow b.ledger b.context flow
    some (.between ((({ b with ledger := ledger } : Assembly).placeFlow flow exit).reach
      flow.location.stop) none nodes)
  | closing b .value stop => some (.closing (b.closeValue stop) .attr stop)
  | closing b .attr stop => some (.closing (b.closeAnyAttr stop) .tag stop)
  | closing b .tag stop => some (.closing (b.closeTag false stop false) .comment stop)
  | closing b .comment stop => some (.closed (b.closeAnyComment stop))
  | closed _ => none

/-- A moment comes after another one of the same run, or is the same. -/
abbrev Reaches : Moment → Moment → Prop := Relation.ReflTransGen fun m m' => m.next = some m'

/-! ## 3. The moments are those of the pass -/

theorem reaches_next {m m' : Moment} (h : m.next = some m') : Reaches m m' := .single h

/-- A raw run is read from its first lexeme to its last. -/
theorem reaches_read (b : Assembly) (run : RawRun) (pos : Nat) (held : Option Held) (t : Text)
    (later : Option RawRun) (nodes : List Node) :
    Reaches (.reading b run pos held t later nodes)
      (.between { b.read run pos held t with offset := run.locateEnd run.text.size } later
        nodes) := by
  fun_induction Assembly.read b run pos held t with
  | case1 b pos held => exact reaches_next rfl
  | case2 b pos held c cs l text stop faultStop b' hm ih =>
    refine .head ?_ ih
    simp only [next, lexing]
    rw [show (b.context.lexeme c cs).mark = none from hm]
  | case3 b pos held c cs l text stop faultStop b' m hm ih =>
    have hmark : (reading b run pos held (c :: cs) later nodes).next
        = some (.marked (b'.release run held pos) run pos l m (c :: cs) later nodes) := by
      simp only [next, lexing]
      rw [show (b.context.lexeme c cs).mark = some m from hm]
    exact .head hmark (.head rfl ih)

theorem reaches_readRun (b : Assembly) (run : RawRun) (later : Option RawRun) (nodes : List Node) :
    Reaches (begin b run later nodes) (.between (b.readRun run) later nodes) := reaches_read ..

theorem reaches_readCollected (b : Assembly) (run : Option RawRun) (n : Node) (nodes : List Node)
    (hn : n.rawText? = none) :
    Reaches (.between b run (n :: nodes)) (.between (b.readCollected run) none (n :: nodes)) := by
  cases run with
  | none => exact .refl
  | some run => exact .head (by simp only [next, hn]) (reaches_readRun ..)

theorem reaches_collect (b : Assembly) (run : Option RawRun) (text : Text) (location : Span)
    (nodes : List Node) :
    Reaches (collecting b run text location nodes)
      (.between (b.collect run text location).1 (some (b.collect run text location).2) nodes) := by
  cases run with
  | none => exact .refl
  | some run =>
    unfold collecting Assembly.collect
    dsimp only
    split
    · exact .refl
    · exact reaches_readRun ..

/-- A node that is not raw text is fed in one step, and control flow in two. -/
theorem reaches_feedNode (b : Assembly) (n : Node) (nodes : List Node) (hn : n.rawText? = none) :
    Reaches (.between b none (n :: nodes)) (.between (feedNode b n) none nodes) := by
  cases n with
  | raw => simp [Node.rawText?] at hn
  | flow flow =>
    refine .head rfl (reaches_next ?_)
    rw [feedNode]
    rfl
  | print | call | binding | openTag | closeTag | attr | attrValue | comment =>
    exact reaches_next rfl

theorem reaches_feedNodes : ∀ (nodes : List Node) (b : Assembly) (run : Option RawRun),
    Reaches (.between b run nodes) (.between (feedNodes b run nodes) none [])
  | [], b, none => by
    rw [feedNodes]
    exact .refl
  | [], b, some run => by
    rw [feedNodes]
    exact .head rfl (reaches_readRun ..)
  | n :: nodes, b, run => by
    rw [feedNodes]
    cases hn : n.rawText? with
    | some text =>
      have hnext : (between b run (n :: nodes)).next
          = some (collecting b run text n.location nodes) := by
        cases run <;> simp only [next, hn]
      exact .head hnext ((reaches_collect ..).trans (reaches_feedNodes nodes _ _))
    | none =>
      exact ((reaches_readCollected b run n nodes hn).trans (reaches_feedNode _ n nodes hn)).trans
        (reaches_feedNodes nodes _ _)

/-- **The moments of a run end with the assembly that the pass gives.** -/
theorem reaches_closed (b : Assembly) (nodes : List Node) :
    Reaches (.between b none nodes) (.closed (feedNodes b none nodes).closeDrafts) := by
  refine (reaches_feedNodes nodes b none).trans ?_
  rw [Assembly.closeDrafts_eq]
  exact .head rfl (.head rfl (.head rfl (.head rfl (reaches_next rfl))))

end Moment

/-! ## 4. Closing the drafts -/

/-- What has been settled and closed before a draft is closed. -/
def Closing.Done (b : Assembly) : Closing → Prop
  | .value => b.context.isSettled = true
  | .attr => b.context.isSettled = true ∧ b.value = none
  | .tag => b.context.isSettled = true ∧ b.value = none ∧ b.attr = none
  | .comment => b.value = none ∧ b.attr = none ∧ b.tag = none

namespace Assembly

theorem Coherent.release {b : Assembly} {t : Text} (h : b.Coherent t) (run : RawRun)
    (held : Option Held) (pos : Nat) : (b.release run held pos).Coherent t := by
  cases held with
  | none => exact h
  | some held => exact h.addText ..

/-- The tag that is still open at the end has a name. -/
theorem Coherent.closeLastTag {b : Assembly} {t : Text} (h : b.Coherent t)
    (hs : b.context.isSettled = true) (hv : b.value = none) (ha : b.attr = none) (stop : Nat) :
    (b.closeTag false stop false).Coherent t := by
  obtain ⟨ledger, entry, here, inBranch, out, tag, attr, value, comment, filled, raw, offset⟩ := b
  cases tag with
  | none => exact h
  | some tag =>
    dsimp only [Coherent] at h hs hv ha
    cases h with
    | tagName => simp [Context.isSettled] at hs
    | inTag ht => exact coherent_closeTag _ _ _ ht.1 rfl ht.2.1 rfl rfl rfl
    | attrName => simp [Context.isSettled] at hs
    | beforeValue ht hslot =>
      -- Only a branch entered before a value has no attribute here, and it has no tag either.
      cases ha
      obtain rfl : entry = .beforeAttrValue := hslot
      simp [Context.HoldsTag, Context.isContent] at ht
    | value => cases hv

theorem Coherent.closeAnyComment {b : Assembly} {t : Text} (h : b.Coherent t) (stop : Nat) :
    (b.closeAnyComment stop).Coherent t := by
  obtain ⟨ledger, entry, here, inBranch, out, tag, attr, value, comment, filled, raw, offset⟩ := b
  cases comment with
  | none => exact h
  | some comment =>
    dsimp only [Coherent] at h
    cases h with
    | comment he =>
      simp only [Coherent, Assembly.closeAnyComment, endComment, addOut, Option.isSome_some, if_true,
        enter_entry, enter_context, enter_tag, enter_attr, enter_value, enter_comment]
      exact .content he rfl

end Assembly

/-! ## 5. What holds at every moment -/

namespace Moment

/-- **What holds at a moment before anything has been reported.** -/
def Fits : Moment → Prop
  | between b _ _ => b.Clean → b.Coherent []
  | reading b _ _ _ left _ _ => b.Clean → b.Coherent left
  | marked b _ _ l mark left _ _ =>
    ∃ c cs, left = c :: cs ∧ l = b.context.lexeme c cs ∧ l.mark = some mark
      ∧ (b.Clean → l.fault = none ∧ b.Coherent left)
  | atFlow b _ _ => b.Clean → b.Coherent [] ∧ b.context.isSettled = true
  | closing b draft _ => b.Clean → b.Coherent [] ∧ draft.Done b
  | closed b => b.Clean → b.Coherent []

theorem Fits.inOrder {m : Moment} (h : m.Fits) (hc : m.assembly.Clean) : m.assembly.DraftsInOrder := by
  cases m with
  | between | reading | closed => exact (h hc).inOrder
  | marked =>
    obtain ⟨c, cs, _, _, _, hb⟩ := h
    exact (hb hc).2.inOrder
  | atFlow | closing => exact (h hc).1.inOrder

theorem fits_begin {b : Assembly} (h : b.Clean → b.Coherent []) (run : RawRun)
    (later : Option RawRun) (nodes : List Node) : (begin b run later nodes).Fits :=
  fun hc => Assembly.Coherent.restrict_nil (h hc)

theorem fits_collecting {b : Assembly} (h : b.Clean → b.Coherent []) (run : Option RawRun)
    (text : Text) (location : Span) (nodes : List Node) :
    (collecting b run text location nodes).Fits := by
  unfold collecting
  split
  · exact h
  · split
    · exact h
    · exact fits_begin h _ _ _

/-- One lexeme. -/
theorem fits_lexing {b : Assembly} {c : Char} {cs : Text} (h : b.Clean → b.Coherent (c :: cs))
    (run : RawRun) (pos : Nat) (held : Option Held) (later : Option RawRun) (nodes : List Node) :
    (lexing b run pos held c cs later nodes).Fits := by
  unfold lexing
  dsimp only
  split
  · next hm => exact fun hc => Assembly.Coherent.content_of_clean _ _ h hm hc
  · next mark hm =>
    refine ⟨c, cs, rfl, ?_, hm, fun hc => ?_⟩
    · rw [Assembly.release_context, Assembly.reportLexeme_context]
    · have hreport := (Assembly.extends_release ..).clean hc
      have hf := Assembly.fault_eq_none_of_clean (.refl _) hreport
      rw [Assembly.reportLexeme_of_fault_eq_none hf] at hreport ⊢
      exact ⟨hf, Assembly.Coherent.release (h hreport) run held pos⟩

/-- Control flow. -/
theorem fits_flow {b : Assembly} (h : b.Clean → b.Coherent [] ∧ b.context.isSettled = true)
    (flow : Flow) (nodes : List Node) {m : Moment} (hn : (atFlow b flow nodes).next = some m) :
    m.Fits := by
  cases hn
  intro hc
  have hplaced := (Assembly.extends_placeFlow ..).clean ((Assembly.extends_reach ..).clean hc)
  obtain ⟨hcoh, hs⟩ := h ((rewriteFlow_extends flow _ _).clean hplaced)
  exact (hcoh.ledger _).placeFlow _ (rewriteFlow_leads flow _ _ hs (Ledger.Clean.quiet hplaced))

/-- A node, with the run before it or as one more piece of it. -/
theorem fits_node {b : Assembly} (h : b.Clean → b.Coherent []) {run : Option RawRun} {n : Node}
    {nodes : List Node} {m : Moment} (hn : (between b run (n :: nodes)).next = some m) :
    m.Fits := by
  cases ht : n.rawText? with
  | some text =>
    obtain rfl : collecting b run text n.location nodes = m := by
      cases run <;> simpa only [next, ht, Option.some.injEq] using hn
    exact fits_collecting h ..
  | none =>
    cases run with
    | some run =>
      obtain rfl : begin b run none (n :: nodes) = m := by
        simpa only [next, ht, Option.some.injEq] using hn
      exact fits_begin h _ _ _
    | none =>
      cases n with
      | raw => simp [Node.rawText?] at ht
      | flow flow =>
        cases hn
        exact fun hc => (h ((Assembly.extends_settle b _).clean hc)).settle _ hc
      | print | call | binding | openTag | closeTag | attr | attrValue | comment =>
        cases hn
        exact fun hc => feedNode_coherent _ b (h ((feedNode_extends _ b).clean hc)) hc

/-- **Every moment fits if the one before it does.** -/
theorem Fits.next {m m' : Moment} (h : m.Fits) (hn : m.next = some m') : m'.Fits := by
  cases m with
  | between b run nodes =>
    cases nodes with
    | nil =>
      cases run with
      | none =>
        cases hn
        exact fun hc => (h ((Assembly.extends_settleAtEnd b).clean hc)).settleAtEnd
      | some run =>
        cases hn
        exact fits_begin h _ _ _
    | cons n nodes => exact fits_node h hn
  | reading b run pos held left later nodes =>
    cases left with
    | nil =>
      cases hn
      exact fun hc =>
        Assembly.Coherent.release (h ((Assembly.extends_release ..).clean hc)) run held pos
    | cons c cs =>
      cases hn
      exact fits_lexing h ..
  | marked b run pos l mark left later nodes =>
    obtain ⟨c, cs, rfl, rfl, hm, hb⟩ := h
    cases hn
    intro hc
    obtain ⟨hf, hcoh⟩ := hb ((Assembly.extends_apply ..).clean hc)
    exact hcoh.apply _ (Context.lexeme_move b.context c cs) hm hf hc
  | atFlow b flow nodes =>
    cases hn
    exact fits_flow h flow nodes rfl
  | closing b draft stop =>
    cases draft with
    | value =>
      cases hn
      intro hc
      obtain ⟨hcoh, hs⟩ := h ((Assembly.extends_closeValue b stop).clean hc)
      exact ⟨hcoh.closeValue stop, Assembly.isSettled_closeValue hs stop,
        (b.closeValue_drafts stop).1⟩
    | attr =>
      cases hn
      intro hc
      obtain ⟨hcoh, hs, hv⟩ := h ((Assembly.extends_closeAnyAttr b stop).clean hc)
      obtain ⟨ha, hv'⟩ := b.closeAnyAttr_drafts stop
      exact ⟨hcoh.closeAnyAttr hs hv stop, Assembly.isSettled_closeAnyAttr hs stop, hv'.trans hv, ha⟩
    | tag =>
      cases hn
      intro hc
      obtain ⟨hcoh, hs, hv, ha⟩ := h ((Assembly.extends_closeTag ..).clean hc)
      obtain ⟨ht, ha', hv', _⟩ := b.closeTag_drafts false stop false
      exact ⟨hcoh.closeLastTag hs hv ha stop, hv'.trans hv, ha'.trans ha, ht⟩
    | comment =>
      cases hn
      intro hc
      exact (h ((Assembly.extends_closeAnyComment b stop).clean hc)).1.closeAnyComment stop
  | closed b => cases hn

/-! ## 6. The moments of all blocks and branches -/

/-- The moments that arise while html is given structure: a block of html or of attributes begins,
a branch begins in the context of its control flow and with a ledger that goes on from there, and
every moment is followed by the next. -/
inductive Arises : Moment → Prop
  | block {kind : ContentKind} {entry : Context} (ledger : Ledger) (offset : Nat)
      (nodes : List Node) (h : Context.entry? kind = some entry) :
      Arises (.between (.start ledger entry false offset) none nodes)
  | branch {b : Assembly} {flow : Flow} {later : List Node} (ledger : Ledger) (nodes : List Node)
      (h : Arises (.atFlow b flow later)) (hl : b.ledger.Extends ledger) :
      Arises (.between (.start ledger b.context true flow.location.start) none nodes)
  | next {m m' : Moment} (h : Arises m) (hn : m.next = some m') : Arises m'

theorem Arises.reaches {m m' : Moment} (h : m.Arises) (hr : m.Reaches m') : m'.Arises := by
  induction hr with
  | refl => exact h
  | tail _ hn ih => exact ih.next hn

theorem Arises.fits {m : Moment} (h : m.Arises) : m.Fits := by
  induction h with
  | block ledger offset nodes hk =>
    exact fun _ => Assembly.coherent_start _ _ _ (Context.isSettled_of_entry? hk)
  | branch ledger nodes _ hl ih =>
    exact fun hc => Assembly.coherent_start _ _ _ (ih (hl.clean hc)).2
  | next _ hn ih => exact ih.next hn

/-- **At every moment before the first report the drafts that are open go with the context.** -/
theorem Arises.drafts_inOrder {m : Moment} (h : m.Arises) (hc : m.assembly.Clean) :
    m.assembly.DraftsInOrder := h.fits.inOrder hc

/-- The control flow of `<b c={if $d}x{/if}`. -/
def choice : Flow :=
  ⟨default, ⟨5, 18, by decide⟩, .ifThen,
    [⟨default, .cond "$d".toList, [.raw default ⟨12, 13, by decide⟩ ['x']]⟩]⟩

/-- The text before it, as it has been read. -/
def beforeChoice : Assembly :=
  ((Assembly.start (.start {} (.startingAt 0)) .pcdata false 0).readRun
    (.single "<b c=".toList ⟨0, 5, by decide⟩)).settle choice.location

/-- Its branch, after the text in it. -/
def inChoice : Assembly :=
  (Assembly.start beforeChoice.ledger beforeChoice.context true 5).readRun
    (.single ['x'] ⟨12, 13, by decide⟩)

/-- A value is open in the branch, though no attribute is: the tag and the attribute are those of
the block. -/
theorem drafts_inOrder_inChoice :
    Arises (.between inChoice none []) ∧ inChoice.ledger.diagnostics = []
      ∧ inChoice.context = .attrValue .bare ∧ inChoice.DraftsInOrder := by
  have htext : Arises (.between (.start (.start {} (.startingAt 0)) .pcdata false 0) none
      [.raw default ⟨0, 5, by decide⟩ "<b c=".toList, .flow choice]) :=
    @Arises.block .html _ _ _ _ rfl
  have hflow : Arises (.atFlow beforeChoice choice []) :=
    (((htext.next rfl).next rfl).reaches (reaches_readRun ..)).next rfl
  have hbranch := Arises.branch beforeChoice.ledger
    [.raw default ⟨12, 13, by decide⟩ ['x']] hflow (.refl _)
  have harises : Arises (.between inChoice none []) :=
    ((hbranch.next rfl).next rfl).reaches (reaches_readRun ..)
  have hclean : inChoice.ledger.diagnostics = [] := by decide +kernel
  exact ⟨harises, hclean, by decide +kernel, harises.drafts_inOrder hclean⟩

end Moment

end TemplateMarkup
