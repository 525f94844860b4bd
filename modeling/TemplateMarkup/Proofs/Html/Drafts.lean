/-
# Drafts

Which drafts each operation opens, fills and closes.  Most leave most of them alone; what is listed
here is used wherever a run is followed draft by draft.  `closed_closeDrafts` says that none is
left open at the end.

Contexts are sorted as well: those without a construct that is open (`isContent`), those of a
branch that stands in a tag of its surroundings (`isInTag`), those of attributes (`isAmongAttrs`,
`isNaming`), those in which control flow may stand (`isSettled`), and where a branch may lead
(`Leads`).
-/
import TemplateMarkup.Proofs.Html.Frame

namespace TemplateMarkup

/-! ## 1. Contexts -/

namespace Context

/-- Contexts in which no construct is open. -/
def isContent : Context → Bool
  | pcdata | rcdata _ | declaration | cdata => true
  | _ => false

/-- Contexts of a branch that stands in a tag held by its surroundings. -/
def isInTag : Context → Bool
  | beforeAttrName | beforeAttrValue => true
  | _ => false

/-- Contexts among the attributes of a tag. -/
def isAmongAttrs : Context → Bool
  | beforeAttrName | attrName .. | beforeAttrValue | attrValue _ => true
  | _ => false

/-- Contexts in which an attribute is named, or waits for its value. -/
def isNaming : Context → Bool
  | attrName .. | beforeAttrValue => true
  | _ => false

/-- Contexts that control flow may be entered in: no name is being read. -/
def isSettled : Context → Bool
  | tagName _ | attrName .. => false
  | _ => true

/-- The contexts in which a branch may end that reports nothing, by the context it was entered
in. -/
def Leads : Context → Context → Prop
  | comment, exit => exit = comment
  | beforeAttrName, exit => exit = beforeAttrName
  | beforeAttrValue, exit => exit = beforeAttrValue ∨ exit = beforeAttrName
  | attrValue quotes, exit => exit = attrValue quotes
  | tagName _, _ => False
  | attrName .., _ => False
  | _, exit => exit.isContent = true

/-- A block begins in such a context. -/
theorem isSettled_of_entry? {kind : ContentKind} {entry : Context} (h : entry? kind = some entry) :
    entry.isSettled = true := by
  cases kind <;> simp [Context.entry?] at h <;> subst h <;> rfl

theorem leads_refl {here : Context} (h : here.isSettled = true) : Leads here here := by
  cases here with
  | tagName | attrName => simp [isSettled] at h
  | beforeAttrValue => exact Or.inl rfl
  | _ => rfl

/-- Where no name is being read the class tells the context. -/
theorem eq_of_kind {here there : Context} (h : here.isSettled = true)
    (h' : there.isSettled = true) (hk : here.kind = there.kind) : here = there := by
  cases here <;> cases there <;>
    simp_all [kind, isSettled]

theorem isSettled_of_isContent {here : Context} (h : here.isContent = true) :
    here.isSettled = true := by
  cases here <;> first | rfl | cases h

theorem isSettled_of_isInTag {here : Context} (h : here.isInTag = true) : here.isSettled = true := by
  cases here <;> first | rfl | cases h

/-- No branch ends in a name. -/
theorem isSettled_of_leads {here exit : Context} (h : Leads here exit) : exit.isSettled = true := by
  cases here with
  | comment | beforeAttrName | attrValue =>
    cases h
    rfl
  | beforeAttrValue => rcases h with rfl | rfl <;> rfl
  | tagName | attrName => exact h.elim
  | _ => exact isSettled_of_isContent h

theorem leads_of_isContent {here exit : Context} (h : here.isContent = true) :
    Leads here exit ↔ exit.isContent = true := by
  cases here <;> simp [isContent] at h <;> exact Iff.rfl

end Context

/-- The contexts in which a mark may open or give up a draft. -/
theorem Context.Move.of_mark {here : Context} {c : Char} {l : Lexeme} {m : Mark}
    (h : Context.Move here c l) (hm : l.mark = some m) :
    ((∃ close, m = .tagStart close) ∨ m = .commentStart → here.isContent = true)
      ∧ (m = .tagAbort → ∃ part, here = .tagName part)
      ∧ (m = .attrNameStart → here = .beforeAttrName)
      ∧ ((∃ quotes, m = .valueStart quotes) → here = .beforeAttrValue)
      ∧ (m = .valueEnd → ∃ quotes, here = .attrValue quotes) := by
  cases h <;> simp only [reduceCtorEq, Option.some.injEq] at hm <;> subst hm <;>
    simp [Context.isContent]

/-! ## 2. Fields -/

namespace Assembly

section Fields

variable (b : Assembly) (next : Context) (offset : Nat)

@[simp] theorem enter_entry : (b.enter next offset).entry = b.entry := by unfold enter; split <;> rfl

@[simp] theorem enter_out : (b.enter next offset).out = b.out := by unfold enter; split <;> rfl

@[simp] theorem enter_tag : (b.enter next offset).tag = b.tag := by unfold enter; split <;> rfl

@[simp] theorem enter_attr : (b.enter next offset).attr = b.attr := by unfold enter; split <;> rfl

@[simp] theorem enter_value : (b.enter next offset).value = b.value := by
  unfold enter; split <;> rfl

@[simp] theorem enter_comment : (b.enter next offset).comment = b.comment := by
  unfold enter; split <;> rfl

@[simp] theorem enter_slotFilled : (b.enter next offset).slotFilled = b.slotFilled := by
  unfold enter; split <;> rfl

@[simp] theorem enter_offset : (b.enter next offset).offset = b.offset := by
  unfold enter; split <;> rfl

end Fields

/-- Only in content and in an element whose body is text does a node change the context. -/
theorem contextAfter?_eq_none {here : Context} (h : here ≠ .pcdata) (h' : ∀ e, here ≠ .rcdata e)
    (n : Node) : contextAfter? here n = none := by
  unfold contextAfter?
  split
  · exact absurd rfl h
  · exact absurd rfl (h' _)
  · rfl

/-- A report changes nothing but the ledger. -/
theorem reportLexeme_eq (b : Assembly) (location : Span) (l : Lexeme) :
    b.reportLexeme location l = { b with ledger := (b.reportLexeme location l).ledger } := by
  unfold reportLexeme
  split <;> rfl

/-- Between tags content goes beside the finished nodes. -/
theorem content_of_isContent {b : Assembly} (h : b.context.isContent = true) :
    b.content = b.out := by
  unfold content
  cases hc : b.context <;> first | rfl | (rw [hc] at h; cases h)

/-- Between tags content goes among the finished nodes. -/
theorem setContent_of_isContent {b : Assembly} (h : b.context.isContent = true)
    (nodes : List Node) : b.setContent nodes = { b with out := nodes } := by
  unfold setContent
  split
  case h_3 => rfl
  all_goals
    next hb _ => simp [hb, Context.isContent] at h

/-- So does text. -/
theorem addText_of_isContent {b : Assembly} (h : b.context.isContent = true) (text : Text)
    (location : Span) :
    ∃ l out, b.addText text location = { b with ledger := l, out := out } := by
  unfold addText
  split
  · exact ⟨b.ledger, _, setContent_of_isContent h _⟩
  · exact ⟨b.ledger.drawn, _, setContent_of_isContent (b := { b with ledger := b.ledger.drawn }) h _⟩

theorem content_setContent (b : Assembly) (nodes : List Node) :
    (b.setContent nodes).content = nodes := by
  obtain ⟨_, _, here, _, _, _, _, value, comment, _, _, _⟩ := b
  cases here <;> cases value <;> cases comment <;> rfl

theorem setContent_setContent (b : Assembly) (nodes nodes' : List Node) :
    (b.setContent nodes).setContent nodes' = b.setContent nodes' := by
  obtain ⟨_, _, here, _, _, _, _, value, comment, _, _, _⟩ := b
  cases here <;> cases value <;> cases comment <;> rfl

/-- Text joins what stands there, whatever the text. -/
theorem exists_addText (b : Assembly) : ∃ (l : Ledger) (id : NodeId) (before : Text)
    (nodes : List Node), l.config = b.ledger.config ∧ ∀ (text : Text) (s : Span), ∃ place : Span,
      b.addText text s
        = ({ b with ledger := l } : Assembly).setContent (.raw id place (before ++ text) :: nodes) := by
  unfold addText
  split
  · next id before t nodes _ =>
    exact ⟨b.ledger, id, t, nodes, rfl, fun text s => ⟨_, rfl⟩⟩
  · exact ⟨b.ledger.drawn, b.ledger.ids.next, [], b.content, rfl, fun text s => ⟨s, rfl⟩⟩

/-- Text that is added in two parts is the text that is added as one, but for its place. -/
theorem exists_addText_twice (b : Assembly) (x y : Text) (s s' s'' : Span) :
    ∃ (l : Ledger) (id : NodeId) (text : Text) (place place' : Span) (nodes : List Node),
      l.config = b.ledger.config
        ∧ (b.addText x s).addText y s'
          = ({ b with ledger := l } : Assembly).setContent (.raw id place text :: nodes)
        ∧ b.addText (x ++ y) s''
          = ({ b with ledger := l } : Assembly).setContent (.raw id place' text :: nodes) := by
  obtain ⟨l, id, before, nodes, hl, hadd⟩ := b.exists_addText
  obtain ⟨place, hx⟩ := hadd x s
  obtain ⟨place', hxy⟩ := hadd (x ++ y) s''
  refine ⟨l, id, before ++ (x ++ y), place.union s', place', nodes, hl, ?_, hxy⟩
  have hjoins {a : Assembly} {t : Text} (ha : a.content = .raw id place t :: nodes) :
      a.addText y s' = a.setContent (.raw id (place.union s') (t ++ y) :: nodes) := by
    simp only [addText, ha]
  rw [hx, hjoins (content_setContent ..), setContent_setContent, List.append_assoc]

@[simp] theorem setContent_entry (b : Assembly) (nodes : List Node) :
    (b.setContent nodes).entry = b.entry := by unfold setContent; split <;> rfl

theorem setContent_attr (b : Assembly) (nodes : List Node) :
    (b.setContent nodes).attr = b.attr := by unfold setContent; split <;> rfl

theorem addText_attr (b : Assembly) (text : Text) (location : Span) :
    (b.addText text location).attr = b.attr := by
  unfold addText
  split <;> exact setContent_attr ..

@[simp] theorem addContent_context (b : Assembly) (node : Node) :
    (b.addContent node).context = b.context := setContent_context ..

/-! ## 3. Tags -/

/-- A finished close tag leaves the drafts that are beside it. -/
theorem addCloseTag_drafts (b : Assembly) (tag : TagDraft) (name : Node) (location : Span) :
    (b.addCloseTag tag name location).entry = b.entry
      ∧ (b.addCloseTag tag name location).context = .pcdata
      ∧ (b.addCloseTag tag name location).tag = b.tag
      ∧ (b.addCloseTag tag name location).attr = b.attr
      ∧ (b.addCloseTag tag name location).value = b.value
      ∧ (b.addCloseTag tag name location).comment = b.comment := by
  unfold addCloseTag
  dsimp only
  split <;> split <;> simp [report]

/-- So does a finished open tag. -/
theorem addOpenTag_drafts (b : Assembly) (tag : TagDraft) (name : Node) (location : Span)
    (selfClosing bodyFollows : Bool) :
    (b.addOpenTag tag name location selfClosing bodyFollows).entry = b.entry
      ∧ (b.addOpenTag tag name location selfClosing bodyFollows).context.isContent = true
      ∧ (b.addOpenTag tag name location selfClosing bodyFollows).tag = b.tag
      ∧ (b.addOpenTag tag name location selfClosing bodyFollows).attr = b.attr
      ∧ (b.addOpenTag tag name location selfClosing bodyFollows).value = b.value
      ∧ (b.addOpenTag tag name location selfClosing bodyFollows).comment = b.comment := by
  unfold addOpenTag
  simp only [enter_entry, enter_context, enter_tag, enter_attr, enter_value, enter_comment, and_true,
    true_and]
  split
  · split <;> rfl
  · rfl

/-- Giving up a tag leaves the drafts beside it. -/
theorem abortTag_drafts (b : Assembly) : b.abortTag.tag = none ∧ b.abortTag.attr = b.attr
    ∧ b.abortTag.value = b.value ∧ b.abortTag.comment = b.comment := by
  unfold abortTag
  split
  · next h => exact ⟨h, rfl, rfl, rfl⟩
  · next tag _ =>
    have hout : ({ b with tag := none }.enter tag.outside tag.start).context.isContent = true := by
      rw [enter_context]
      unfold TagDraft.outside
      split <;> rfl
    obtain ⟨l, out, h⟩ := addText_of_isContent hout
      ((if tag.close then ['<', '/'] else ['<']) ++ tag.nameText)
      (Span.upTo tag.start tag.nameLocation.stop)
    dsimp only
    rw [h]
    split <;> simp [addOut]

/-- So does closing it. -/
theorem closeTag_drafts (b : Assembly) (selfClosing : Bool) (stop : Nat) (bodyFollows : Bool) :
    (b.closeTag selfClosing stop bodyFollows).tag = none
      ∧ (b.closeTag selfClosing stop bodyFollows).attr = b.attr
      ∧ (b.closeTag selfClosing stop bodyFollows).value = b.value
      ∧ (b.closeTag selfClosing stop bodyFollows).comment = b.comment := by
  unfold closeTag
  split
  · next h => exact ⟨h, rfl, rfl, rfl⟩
  · split
    · exact b.abortTag_drafts
    · dsimp only
      split
      · exact (addCloseTag_drafts ..).2.2
      · exact (addOpenTag_drafts ..).2.2

/-! ## 4. Attributes and values -/

@[simp] theorem addAmongAttrs_entry (b : Assembly) (node : Node) :
    (b.addAmongAttrs node).entry = b.entry := by unfold addAmongAttrs; split <;> rfl

@[simp] theorem addAmongAttrs_context (b : Assembly) (node : Node) :
    (b.addAmongAttrs node).context = b.context := by unfold addAmongAttrs; split <;> rfl

@[simp] theorem addAmongAttrs_attr (b : Assembly) (node : Node) :
    (b.addAmongAttrs node).attr = b.attr := by unfold addAmongAttrs; split <;> rfl

@[simp] theorem addAmongAttrs_value (b : Assembly) (node : Node) :
    (b.addAmongAttrs node).value = b.value := by unfold addAmongAttrs; split <;> rfl

@[simp] theorem addAmongAttrs_comment (b : Assembly) (node : Node) :
    (b.addAmongAttrs node).comment = b.comment := by unfold addAmongAttrs; split <;> rfl

@[simp] theorem addAttr_attr (b : Assembly) (attr : AttrDraft) (value : Option Node) (stop : Nat) :
    (b.addAttr attr value stop).attr = b.attr := by
  unfold addAttr
  split
  · rfl
  · split
    · rfl
    · exact addAmongAttrs_attr ..

@[simp] theorem addAttr_value (b : Assembly) (attr : AttrDraft) (value : Option Node) (stop : Nat) :
    (b.addAttr attr value stop).value = b.value := by
  unfold addAttr
  split
  · rfl
  · split
    · rfl
    · exact addAmongAttrs_value ..

@[simp] theorem addAttr_comment (b : Assembly) (attr : AttrDraft) (value : Option Node)
    (stop : Nat) : (b.addAttr attr value stop).comment = b.comment := by
  unfold addAttr
  split
  · rfl
  · split
    · rfl
    · exact addAmongAttrs_comment ..

/-- Giving a value leaves no attribute open. -/
@[simp] theorem giveValue_attr (b : Assembly) (value : Node) (stop : Nat) :
    (b.giveValue value stop).attr = none := by
  unfold giveValue
  split
  · exact addAttr_attr ..
  · next h => exact h

@[simp] theorem giveValue_value (b : Assembly) (value : Node) (stop : Nat) :
    (b.giveValue value stop).value = b.value := by
  unfold giveValue
  split
  · exact addAttr_value ..
  · rfl

@[simp] theorem giveValue_comment (b : Assembly) (value : Node) (stop : Nat) :
    (b.giveValue value stop).comment = b.comment := by
  unfold giveValue
  split
  · exact addAttr_comment ..
  · rfl

theorem reportAttr_attr (b : Assembly) (location : Span) :
    (b.reportAttr location).attr = b.attr := by
  unfold reportAttr
  split
  · rfl
  · rfl
  · split <;> rfl

@[simp] theorem reportJoined_attr (b : Assembly) (node : Node) :
    (b.reportJoined node).attr = b.attr := by
  unfold reportJoined
  split <;> rfl

@[simp] theorem finishTagName_attr (b : Assembly) : b.finishTagName.attr = b.attr := by
  unfold finishTagName
  split
  · rfl
  · split <;> rfl

theorem reportAttr_value (b : Assembly) (location : Span) :
    (b.reportAttr location).value = b.value := by
  unfold reportAttr
  split
  · rfl
  · rfl
  · split <;> rfl

theorem reportJoined_value (b : Assembly) (node : Node) :
    (b.reportJoined node).value = b.value := by
  unfold reportJoined
  split <;> rfl

theorem finishTagName_value (b : Assembly) : b.finishTagName.value = b.value := by
  unfold finishTagName
  split
  · rfl
  · split <;> rfl

theorem closeAttr_value (b : Assembly) (stop : Nat) : (b.closeAttr stop).value = b.value := by
  have hname : b.finishAttrName.value = b.value := by
    unfold finishAttrName
    split
    · rfl
    · split <;> rfl
  rw [closeAttr, enter_value]
  unfold endAttr
  dsimp only
  split
  · exact hname
  · rw [addAttr_value]
    exact hname

/-- Closing an attribute leaves none open. -/
@[simp] theorem closeAttr_attr (b : Assembly) (stop : Nat) : (b.closeAttr stop).attr = none := by
  unfold closeAttr endAttr
  dsimp only
  rw [enter_attr]
  split
  · next h => exact h
  · unfold addAttr
    split
    · rfl
    · split
      · rfl
      · exact addAmongAttrs_attr ..

/-! ## 5. Ends -/

/-- No draft is open. -/
def Closed (b : Assembly) : Prop :=
  b.tag = none ∧ b.attr = none ∧ b.value = none ∧ b.comment = none

/-- A value that ends leaves none open, and no attribute either. -/
theorem closeValue_drafts (b : Assembly) (stop : Nat) : (b.closeValue stop).value = none
    ∧ (b.value = none ∨ (b.closeValue stop).attr = none) := by
  unfold closeValue
  cases h : b.value with
  | none => exact ⟨h, Or.inl rfl⟩
  | some value => simp [endValue, h]

/-- An attribute that ends leaves none open. -/
theorem closeAnyAttr_drafts (b : Assembly) (stop : Nat) :
    (b.closeAnyAttr stop).attr = none ∧ (b.closeAnyAttr stop).value = b.value := by
  have hfin : b.finishAttrName.value = b.value := by
    unfold finishAttrName
    split
    · rfl
    · split <;> rfl
  unfold closeAnyAttr
  cases h : b.attr with
  | none => exact ⟨h, rfl⟩
  | some attr =>
    simp only [Option.isSome_some, if_true, closeAttr, endAttr, enter_attr, enter_value]
    split
    · next h' => exact ⟨h', hfin⟩
    · rw [addAttr_attr, addAttr_value]
      exact ⟨rfl, hfin⟩

section Nothing

variable {b : Assembly}

/-- Where no draft is open none is closed. -/
theorem closeAnyAttr_of_eq_none (h : b.attr = none) (stop : Nat) : b.closeAnyAttr stop = b := by
  unfold closeAnyAttr
  rw [h]
  rfl

theorem closeValue_of_eq_none (h : b.value = none) (stop : Nat) : b.closeValue stop = b := by
  unfold closeValue
  rw [h]

theorem closeTag_of_eq_none (h : b.tag = none) (selfClosing : Bool) (stop : Nat)
    (bodyFollows : Bool) : b.closeTag selfClosing stop bodyFollows = b := by
  unfold closeTag
  rw [h]

theorem closeAnyComment_of_eq_none (h : b.comment = none) (stop : Nat) :
    b.closeAnyComment stop = b := by
  unfold closeAnyComment
  rw [h]
  rfl

end Nothing

/-- **At the end of a block or branch no draft is open.** -/
theorem closed_closeDrafts (b : Assembly) : b.closeDrafts.Closed := by
  rw [closeDrafts_eq]
  obtain ⟨hv, _⟩ := b.settleAtEnd.closeValue_drafts b.offset
  obtain ⟨ha, hv'⟩ := (b.settleAtEnd.closeValue b.offset).closeAnyAttr_drafts b.offset
  generalize (b.settleAtEnd.closeValue b.offset).closeAnyAttr b.offset = b' at *
  obtain ⟨htag, hattr, hvalue, hcomment⟩ := b'.closeTag_drafts false b.offset false
  unfold closeAnyComment
  split
  · next hc =>
    obtain ⟨comment, hc⟩ := Option.isSome_iff_exists.mp hc
    simp only [Closed, enter_tag, enter_attr, enter_value, enter_comment, endComment, hc, addOut]
    exact ⟨htag, hattr.trans ha, hvalue.trans (hv'.trans hv), trivial⟩
  · next hc =>
    exact ⟨htag, hattr.trans ha, hvalue.trans (hv'.trans hv), by simpa using hc⟩

end Assembly

end TemplateMarkup
