/-
# Reading on

`readOn` reads text and the nodes after it.  What an assembly still has to read is taken from the
front, one step at a time: a stretch of content (`readOn_text`), a mark (`readOn_mark`), or a node
(`readOn_after`).

A name or a value without quotes is ended by what follows it: by a character, by control flow, or by
the end of the branch.  At all of these the assembly might as well have ended it before
(`endsAlike_settle`, `endsAlike_closeValue`), which is why assemblies are compared by what they give
in the end (`EndsAlike`).
-/
import TemplateMarkup.Proofs.Html.Alike
import TemplateMarkup.Proofs.Html.Canonical
import TemplateMarkup.Proofs.Tree.Spelling

namespace TemplateMarkup

namespace Assembly

/-! ## 1. What is left to read -/

/-- Reads text and the nodes after it. -/
def readOn (b : Assembly) (s : Spelled) : Assembly :=
  feedNodes (b.read (.single [] default) 0 none s.text) none s.nodes

/-- Assemblies that give the same in the end. -/
def EndsAlike (b b' : Assembly) : Prop :=
  b.endBranch.Alike b'.endBranch ∧ ∀ block, (b.endBlock block).Alike (b'.endBlock block)

section

variable {b b' : Assembly}

theorem Alike.endsAlike (h : b.Alike b') : b.EndsAlike b' := ⟨h.endBranch, h.endBlock⟩

theorem EndsAlike.trans {b'' : Assembly} (h : b.EndsAlike b') (h' : b'.EndsAlike b'') :
    b.EndsAlike b'' := ⟨h.1.trans h'.1, fun block => (h.2 block).trans (h'.2 block)⟩

theorem Alike.feedNodes (h : b.Alike b') (nodes : List Node) :
    (TemplateMarkup.feedNodes b none nodes).Alike (TemplateMarkup.feedNodes b' none nodes) :=
  (feedNodes_alike nodes h noRun).trans (feedNodes_alike nodes (.refl b') noRun).symm

theorem Alike.feedNode (h : b.Alike b') (n : Node) :
    (TemplateMarkup.feedNode b n).Alike (TemplateMarkup.feedNode b' n) :=
  (feedNode_alike n h).trans (feedNode_alike n (.refl b')).symm

theorem Alike.readOn (h : b.Alike b') (s : Spelled) : (b.readOn s).Alike (b'.readOn s) :=
  (Alike.read _ _ b 0 none s.text h rfl).feedNodes s.nodes

end

/-- To go on in the same context changes nothing. -/
theorem enter_self (b : Assembly) (offset : Nat) : b.enter b.context offset = b := by
  unfold enter
  rw [if_pos rfl]

/-- To go on in another context changes nothing else, but for a count and a place. -/
theorem enter_alike (b : Assembly) (next : Context) (offset : Nat) :
    (b.enter next offset).Alike { b with context := next } := by
  unfold enter
  split
  · next h =>
    subst h
    exact .refl b
  · exact .refl _

theorem reach_alike (b : Assembly) (offset : Nat) : (b.reach offset).Alike b :=
  (Alike.refl b).setOffset _ b.offset

/-- Without text there are only the nodes. -/
theorem readOn_nil (b : Assembly) {s : Spelled} (h : s.text = []) :
    b.readOn s = feedNodes b none s.nodes := by
  unfold readOn
  rw [h, Assembly.read]
  rfl

@[simp] theorem readOn_done (b : Assembly) : b.readOn .done = b := by
  rw [readOn_nil b rfl, Spelled.done, feedNodes]
  rfl

/-- A run is read before nodes that do not begin with raw text. -/
theorem feedNodes_run (b : Assembly) (run : RawRun) {nodes : List Node}
    (h : ∀ n ∈ nodes.head?, n.rawText? = none) :
    feedNodes b (some run) nodes = feedNodes (b.readRun run) none nodes := by
  cases nodes with
  | nil =>
    rw [feedNodes, feedNodes]
    rfl
  | cons n nodes =>
    have hn : n.rawText? = none := h n rfl
    rw [feedNodes_cons_node hn, feedNodes_cons_node hn]
    rfl

/-- **A list is read on from its start.** -/
theorem alike_readOn (b : Assembly) (s : Spelled) :
    (feedNodes b none s.toNodes).Alike (b.readOn s) := by
  unfold Spelled.toNodes
  by_cases ht : s.text = []
  · rw [readOn_nil b ht, ht]
    exact .refl _
  · rw [if_neg (by simpa using ht), feedNodes_cons_text (t := s.text) rfl]
    dsimp only [collect]
    rw [feedNodes_run _ _ s.apart]
    refine Alike.feedNodes ?_ s.nodes
    unfold readRun
    rw [RawRun.text_single]
    have hcount : ({ b with ledger := b.ledger.countRun } : Assembly).Alike b :=
      (alike_ledger rfl).symm
    exact Alike.setOffset (Alike.read _ _ _ 0 none s.text hcount rfl) _ 0 |>.trans
      (Alike.setOffset (.refl _) 0 _)

/-! ## 2. Steps -/

section Steps

variable {b : Assembly} {s : Spelled} {c : Char} {cs : Text}

theorem read_cons_content {run : RawRun} {pos : Nat} {held : Option Held} {next : Context}
    {width : Nat} (h : b.context.lexeme c cs = Lexeme.content next width) :
    b.read run pos held (c :: cs) = (b.enter next (run.locate pos)).read run
      (pos + Text.size ((c :: cs).take width)) (some (Held.add held pos ((c :: cs).take width)))
      ((c :: cs).drop width) := by
  have hm : (b.context.lexeme c cs).mark = none := by
    rw [h]
    rfl
  rw [read_of_content hm]
  simp only [h, Lexeme.content, reportLexeme]

theorem read_cons_mark {run : RawRun} {pos : Nat} {held : Option Held} {mark : Mark}
    {next : Context} {width : Nat} (h : b.context.lexeme c cs = Lexeme.marking mark next width) :
    b.read run pos held (c :: cs) = ((b.release run held pos).apply mark next
      ((c :: cs).take width) (run.location pos (pos + Text.size ((c :: cs).take width)))).read run
      (pos + Text.size ((c :: cs).take width)) none ((c :: cs).drop width) := by
  have hm : (b.context.lexeme c cs).mark = some mark := by
    rw [h]
    rfl
  rw [read_of_mark hm]
  simp only [h, Lexeme.marking, reportLexeme]

/-- A mark is read. -/
theorem readOn_mark (mark : Mark) (next : Context)
    (h : b.context.lexeme c (cs ++ s.text) = Lexeme.marking mark next (cs.length + 1)) :
    (b.readOn (s.lead (c :: cs))).Alike ((b.apply mark next (c :: cs) default).readOn s) := by
  unfold readOn
  rw [Spelled.lead_text, Spelled.lead_nodes, List.cons_append, read_cons_mark h]
  refine Alike.feedNodes ?_ s.nodes
  have htake : (c :: (cs ++ s.text)).take (cs.length + 1) = c :: cs := by simp
  have hdrop : (c :: (cs ++ s.text)).drop (cs.length + 1) = s.text := by simp
  rw [htake, hdrop]
  exact Alike.read _ _ _ _ none s.text ((Alike.refl b).apply _ _ _ _ _) rfl

/-- A mark without characters is read. -/
theorem readOn_mark_zero (mark : Mark) (next : Context) (ht : s.text = c :: cs)
    (h : b.context.lexeme c cs = Lexeme.marking mark next 0) :
    (b.readOn s).Alike ((b.apply mark next [] default).readOn s) := by
  unfold readOn
  rw [ht, read_cons_mark h]
  refine Alike.feedNodes ?_ s.nodes
  exact Alike.read _ _ _ _ none _ ((Alike.refl b).apply _ _ _ _ _) rfl

/-- Canonical text is read. -/
theorem readOn_text {t : Text} (ht : t ≠ []) (h : b.context.admits t = true)
    (hs : b.context.Breaks s.text) :
    (b.readOn (s.lead t)).Alike ((b.addText t default).readOn s) := by
  obtain ⟨c, cs, rfl⟩ := List.exists_cons_of_ne_nil ht
  have hl := Context.lexeme_of_admits h hs
  unfold readOn
  rw [Spelled.lead_text, Spelled.lead_nodes, List.cons_append, read_cons_content hl]
  refine Alike.feedNodes ?_ s.nodes
  have htake : (c :: (cs ++ s.text)).take (cs.length + 1) = c :: cs := by simp
  have hdrop : (c :: (cs ++ s.text)).drop (cs.length + 1) = s.text := by simp
  rw [htake, hdrop, enter_self]
  cases hu : s.text with
  | nil =>
    rw [Assembly.read, Assembly.read]
    dsimp only [release]
    rw [Held.text_add_none]
    exact (Alike.refl b).addText _ _ _
  | cons d ds =>
    obtain ⟨mark, next, width, hm⟩ := hs d ds hu
    have hm' : (b.addText (c :: cs) default).context.lexeme d ds
        = Lexeme.marking mark next width := by
      rw [addText_context]
      exact hm
    rw [read_cons_mark hm, read_cons_mark hm']
    refine Alike.read _ _ _ _ none _ (Alike.apply ?_ _ _ _ _ _) rfl
    dsimp only [release]
    rw [Held.text_add_none]
    exact (Alike.refl b).addText _ _ _

/-- A node that is not raw text is read. -/
theorem readOn_after {n : Node} (hn : n.rawText? = none) :
    (b.readOn (s.after n hn)).Alike ((feedNode b n).readOn s) := by
  rw [readOn_nil b rfl]
  unfold Spelled.after
  dsimp only
  rw [feedNodes_cons_node hn]
  exact alike_readOn _ s

end Steps

/-! ## 3. Names and values that what follows ends -/

end Assembly

/-- What follows ends a name: a character that ends names, control flow, or the end. -/
def Spelled.endsName (s : Spelled) : Bool :=
  match s.text, s.nodes with
  | c :: _, _ => TemplateMarkup.endsName c
  | [], .flow _ :: _ => true
  | [], nodes => nodes.isEmpty

/-- What follows ends a value without quotes: a character that it may not hold, or the end. -/
def Spelled.endsValue (s : Spelled) : Bool :=
  match s.text with
  | c :: _ => !Lexeme.inBareValue c
  | [] => s.nodes.isEmpty

/-- In a name that may end here. -/
def Context.mayEndName : Context → Bool
  | tagName name => name != .empty
  | attrName name afterSeparator discard => name != .empty && !afterSeparator && !discard
  | _ => false

namespace Assembly

section Pending

variable {b : Assembly} {s : Spelled}

theorem addAmongAttrs_offset (b : Assembly) (n : Node) : (b.addAmongAttrs n).offset = b.offset := by
  unfold addAmongAttrs
  split <;> rfl

theorem addAttr_offset (b : Assembly) (attr : AttrDraft) (value : Option Node) (stop : Nat) :
    (b.addAttr attr value stop).offset = b.offset := by
  unfold addAttr
  split
  · rfl
  · split
    · rfl
    · exact addAmongAttrs_offset ..

theorem endAttr_offset (b : Assembly) (stop : Nat) : (b.endAttr stop).offset = b.offset := by
  have hname : b.finishAttrName.offset = b.offset := by
    unfold finishAttrName
    split
    · rfl
    · split <;> rfl
  unfold endAttr
  dsimp only
  split
  · exact hname
  · rw [addAttr_offset]
    exact hname

theorem settleAtEnd_of_settled (h : b.context = .beforeAttrName) : b.settleAtEnd = b := by
  unfold settleAtEnd
  rw [h]

theorem settle_of_settled (h : b.context = .beforeAttrName) (location : Span) :
    b.settle location = b := by
  unfold settle
  rw [h]

/-- A name is settled alike before control flow and at the end. -/
theorem settled_of_mayEndName (h : b.context.mayEndName = true) (location : Span) :
    (b.settle location).context = .beforeAttrName ∧ b.settleAtEnd.context = .beforeAttrName
      ∧ b.settleAtEnd.offset = b.offset ∧ b.settleAtEnd.Alike (b.settle location) := by
  have htag : b.finishTagName.offset = b.offset := by
    unfold finishTagName
    split
    · rfl
    · split <;> rfl
  have hattr (o : Nat) : (b.closeAttr o).offset = b.offset := by
    rw [closeAttr, enter_offset, endAttr_offset]
  cases hc : b.context with
  | tagName name =>
    cases name with
    | empty =>
      rw [hc] at h
      cases h
    | static | dynamic =>
      unfold settleAtEnd settle
      rw [hc]
      exact ⟨enter_context .., enter_context .., by rw [enter_offset, htag],
        (Alike.refl b).finishTagName.enter _ _ _⟩
  | attrName name sep discard =>
    unfold settleAtEnd settle
    rw [hc]
    exact ⟨enter_context .., enter_context .., hattr _, (Alike.refl b).closeAttr _ _⟩
  | _ =>
    rw [hc] at h
    cases h

/-- Nothing is checked at the end in a context that is not raw. -/
theorem checkContext_of_not_raw (h : b.context.isRaw = false) (block : BlockKind) :
    b.checkContext block = b := by
  unfold checkContext
  rw [h, Bool.and_false, if_neg (by simp)]

/-- The end settles a name first. -/
theorem ended_settleAtEnd (h : b.context.mayEndName = true) :
    b.endBranch = b.settleAtEnd.endBranch
      ∧ ∀ block, b.endBlock block = b.settleAtEnd.endBlock block := by
  obtain ⟨-, hc, ho, -⟩ := settled_of_mayEndName h default
  have hdrafts : b.settleAtEnd.closeDrafts = b.closeDrafts := by
    rw [closeDrafts_eq, closeDrafts_eq, settleAtEnd_of_settled hc, ho]
  have hraw : b.context.isRaw = false := by
    cases hb : b.context <;> rw [hb] at h <;> first | rfl | cases h
  constructor
  · unfold endBranch
    rw [settleAtEnd_of_settled hc, hdrafts, ho]
  · intro block
    unfold endBlock
    rw [checkContext_of_not_raw hraw, checkContext_of_not_raw (by rw [hc]; rfl), hdrafts]

/-- **A name may be settled before what ends it.** -/
theorem endsAlike_settle (h : b.context.mayEndName = true) (hs : s.endsName = true) :
    (b.readOn s).EndsAlike ((b.settle default).readOn s) := by
  obtain ⟨hc, -, -, halike⟩ := settled_of_mayEndName h default
  unfold Spelled.endsName at hs
  split at hs
  · next c cs ht =>
    have hne : c ≠ '=' := by
      rintro rfl
      revert hs
      decide
    refine Alike.endsAlike ?_
    cases hb : b.context with
    | tagName name =>
      have hl : b.context.lexeme c cs = Lexeme.marking .tagNameEnd .beforeAttrName 0 := by
        rw [hb] at h ⊢
        rw [Context.lexeme]
        cases name with
        | empty => cases h
        | static | dynamic => exact if_pos hs
      have := readOn_mark_zero _ _ ht hl
      rw [hb] at h
      unfold settle
      rw [hb]
      cases name with
      | empty => cases h
      | static | dynamic => exact this
    | attrName name sep discard =>
      rw [hb] at h
      simp only [Context.mayEndName, Bool.and_eq_true, Bool.not_eq_true'] at h
      obtain ⟨⟨hn, rfl⟩, rfl⟩ := h
      have hl : b.context.lexeme c cs = Lexeme.marking .attrNameEnd .beforeAttrName 0 := by
        rw [hb, Context.lexeme]
        cases name with
        | empty => cases hn
        | static | dynamic => simp [Lexeme.inAttrNameAt, Lexeme.atAttrNameEnd, hs, hne]
      have := readOn_mark_zero _ _ ht hl
      unfold settle
      rw [hb]
      exact this
    | _ =>
      rw [hb] at h
      cases h
  · next f nodes ht hn =>
    have hflow : (feedNode b (.flow f)).Alike (feedNode (b.settle default) (.flow f)) := by
      have hset : (b.settle f.location).context = .beforeAttrName :=
        (settled_of_mayEndName h f.location).1
      have hsame : feedNode b (.flow f) = feedNode (b.settle f.location) (.flow f) := by
        rw [feedNode, feedNode, settle_of_settled hset]
      rw [hsame]
      refine Alike.feedNode ?_ _
      exact (settled_of_mayEndName h f.location).2.2.2.symm.trans halike
    refine Alike.endsAlike ?_
    rw [readOn_nil _ ht, readOn_nil _ ht, hn, feedNodes_cons_node rfl, feedNodes_cons_node rfl]
    exact hflow.feedNodes nodes
  · next ht _ =>
    rw [List.isEmpty_iff] at hs
    rw [readOn_nil _ ht, readOn_nil _ ht, hs, TemplateMarkup.feedNodes, TemplateMarkup.feedNodes]
    dsimp only [readCollected]
    obtain ⟨hbranch, hblock⟩ := ended_settleAtEnd h
    constructor
    · rw [hbranch]
      exact halike.endBranch
    · intro block
      rw [hblock]
      exact halike.endBlock block

theorem giveValue_offset (b : Assembly) (value : Node) (stop : Nat) :
    (b.giveValue value stop).offset = b.offset := by
  unfold giveValue
  split
  · rw [addAttr_offset]
  · rfl

/-- A value that is all that is open, but for its attribute, leaves nothing open. -/
theorem closed_closeValue {v : ValueDraft} (hv : b.value = some v) (ht : b.tag = none)
    (hm : b.comment = none) (stop : Nat) : (b.closeValue stop).Closed := by
  obtain ⟨hvalue, hattr⟩ := closeValue_drafts b stop
  have hkeep {b : Assembly} (ht : b.tag = none) (hm : b.comment = none) (attr : AttrDraft)
      (value : Option Node) :
      (b.addAttr attr value stop).tag = none ∧ (b.addAttr attr value stop).comment = none := by
    unfold addAttr
    split
    · exact ⟨ht, hm⟩
    · split
      · exact ⟨ht, hm⟩
      · simp only [addAmongAttrs, ht, addOut]
        exact ⟨trivial, hm⟩
  have hrest : (b.closeValue stop).tag = none ∧ (b.closeValue stop).comment = none := by
    simp only [closeValue, endValue, hv, giveValue, enter_tag, enter_comment]
    split
    · exact hkeep (by exact ht) (by exact hm) _ _
    · exact ⟨ht, hm⟩
  exact ⟨hrest.1, hattr.resolve_left (by rw [hv]; simp), hvalue, hrest.2⟩

/-- The end closes a value without quotes that nothing but its attribute is open around. -/
theorem ended_closeValue {v : ValueDraft} (hc : b.context = .attrValue .bare)
    (hv : b.value = some v) (hq : v.quotes = .bare) (ht : b.tag = none) (hm : b.comment = none) :
    b.endBranch = (b.closeValue b.offset).endBranch
      ∧ ∀ block, b.endBlock block = (b.closeValue b.offset).endBlock block := by
  have hcontext : (b.closeValue b.offset).context = .beforeAttrName := by
    unfold closeValue
    rw [hv]
    exact enter_context ..
  have hoffset : (b.closeValue b.offset).offset = b.offset := by
    unfold closeValue endValue
    simp only [hv, enter_offset, giveValue_offset]
  have hset : b.settleAtEnd = b := by
    unfold settleAtEnd
    rw [hc]
  obtain ⟨htag, hattr, hvalue, hcomment⟩ := closed_closeValue hv ht hm b.offset
  have hsettled := settleAtEnd_of_settled hcontext
  have hopen : b.openConstruct? = none ∧ (b.closeValue b.offset).openConstruct? = none := by
    unfold openConstruct?
    obtain ⟨quotes, start, children⟩ := v
    dsimp only at hq
    subst hq
    simp only [hv, ht, hm, htag, hattr, hvalue, hcomment, and_self]
  have hclosed : (b.closeValue b.offset).closeValue b.offset = b.closeValue b.offset := by
    generalize b.closeValue b.offset = z at hvalue
    unfold closeValue
    rw [hvalue]
  have hdrafts : (b.closeValue b.offset).closeDrafts = b.closeDrafts := by
    rw [closeDrafts_eq, closeDrafts_eq, hsettled, hoffset, hset, hclosed]
  constructor
  · simp only [endBranch, hset, hsettled, hopen.1, hopen.2, hdrafts]
  · intro block
    unfold endBlock
    rw [checkContext_of_not_raw (by rw [hc]; rfl), checkContext_of_not_raw (by rw [hcontext]; rfl),
      hdrafts]

/-- **A value without quotes may be closed before what ends it.** -/
theorem endsAlike_closeValue {v : ValueDraft} (hc : b.context = .attrValue .bare)
    (hv : b.value = some v) (hq : v.quotes = .bare) (hs : s.endsValue = true)
    (hend : s.text = [] → b.tag = none ∧ b.comment = none) :
    (b.readOn s).EndsAlike ((b.closeValue 0).readOn s) := by
  unfold Spelled.endsValue at hs
  split at hs
  · next c cs ht =>
    have hl : b.context.lexeme c cs = Lexeme.marking .valueEnd .beforeAttrName 0 := by
      rw [hc]
      exact if_neg (by simpa using hs)
    have := readOn_mark_zero _ _ ht hl
    unfold apply closeValue at *
    rw [hv] at this ⊢
    exact this.endsAlike
  · next ht =>
    rw [List.isEmpty_iff] at hs
    rw [readOn_nil _ ht, readOn_nil _ ht, hs, TemplateMarkup.feedNodes, TemplateMarkup.feedNodes]
    dsimp only [readCollected]
    obtain ⟨hbranch, hblock⟩ := ended_closeValue hc hv hq (hend ht).1 (hend ht).2
    have halike : (b.closeValue b.offset).Alike (b.closeValue 0) := (Alike.refl b).closeValue _ _
    constructor
    · rw [hbranch]
      exact halike.endBranch
    · intro block
      rw [hblock]
      exact halike.endBlock block

end Pending

end Assembly

end TemplateMarkup
