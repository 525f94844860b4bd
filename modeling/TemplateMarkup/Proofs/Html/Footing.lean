/-
# Every draft in its place

Whatever is reported, the context of an assembly tells which drafts are open, with one exception:
when a value without quotes is ended in a branch that did not begin it, the value stays open in the
surroundings and the reader is in the tag again.  `Ledger.Quiet` says that no such end has been
reported, and `Assembly.Footed` is what then holds at every moment: a tag is open in a tag, an
attribute in its name, before its value and in it, a value in a value, and nothing else.

So a branch ends where its entry leads (`rewriteFlow_leads`), and what is among the attributes of a
tag, or waits for one, always has the tag.
-/
import TemplateMarkup.Proofs.Html.Drafts

namespace TemplateMarkup

/-! ## 1. Quiet runs -/

/-- No value has been ended that was begun in another block. -/
def Ledger.Quiet (l : Ledger) : Prop :=
  ∀ d ∈ l.diagnostics, d.fault ≠ .closedInOtherBlock .attributeValue

theorem Ledger.Extends.quiet {l l' : Ledger} (h : l.Extends l') (hq : l'.Quiet) : l.Quiet :=
  fun d hd => hq d (h.diagnostics.subset hd)

theorem Ledger.Clean.quiet {l : Ledger} (h : l.Clean) : l.Quiet := by
  intro d hd
  rw [h] at hd
  cases hd

theorem Ledger.not_quiet_report (l : Ledger) (location : Span) :
    ¬ (l.report location (.closedInOtherBlock .attributeValue)).Quiet :=
  fun h => h _ List.mem_cons_self rfl

/-- No value has been ended that was begun in another block. -/
def Assembly.Quiet (b : Assembly) : Prop := b.ledger.Quiet

theorem Assembly.Extends.quiet {b b' : Assembly} (h : b.Extends b') (hq : b'.Quiet) : b.Quiet :=
  h.ledger.quiet hq

/-! ## 2. Footing -/

/-- A tag is open, or the branch stands in one. -/
def Context.Surrounds (entry : Context) : Option TagDraft → Prop
  | none => entry.isInTag = true
  | some _ => entry.isContent = true

/-- An attribute waits for a value, or the branch stands for the value of one. -/
def Context.Awaits (entry : Context) : Option AttrDraft → Prop
  | none => entry = .beforeAttrValue
  | some _ => True

/-- The drafts that are open in a context, for an assembly entered in `entry`. -/
inductive Assembly.Footing (entry : Context) : Context → Option TagDraft → Option AttrDraft →
    Option ValueDraft → Option CommentDraft → Prop
  | content {here : Context} (he : entry.isContent = true) (hh : here.isContent = true) :
      Footing entry here none none none none
  | comment (draft : CommentDraft) (he : entry.isContent = true) :
      Footing entry .comment none none none (some draft)
  | inComment (he : entry = .comment) : Footing entry .comment none none none none
  | tagName (part : NamePart) (tag : TagDraft) (he : entry.isContent = true) :
      Footing entry (.tagName part) (some tag) none none none
  | inTag {tag : Option TagDraft} (ht : entry.Surrounds tag) :
      Footing entry .beforeAttrName tag none none none
  | attrName (part : NamePart) (sep drop : Bool) {tag : Option TagDraft} (attr : AttrDraft)
      (ht : entry.Surrounds tag) : Footing entry (.attrName part sep drop) tag (some attr) none none
  | beforeValue {tag : Option TagDraft} {attr : Option AttrDraft} (ht : entry.Surrounds tag)
      (ha : entry.Awaits attr) : Footing entry .beforeAttrValue tag attr none none
  | value {tag : Option TagDraft} {attr : Option AttrDraft} (draft : ValueDraft)
      (ht : entry.Surrounds tag) (ha : entry.Awaits attr) :
      Footing entry (.attrValue draft.quotes) tag attr (some draft) none
  | inValue {quotes : Quotes} (he : entry = .attrValue quotes) :
      Footing entry (.attrValue quotes) none none none none

namespace Assembly

/-- **The drafts that are open are those of the context.** -/
def Footed (b : Assembly) : Prop := Footing b.entry b.context b.tag b.attr b.value b.comment

theorem footed_start (l : Ledger) {entry : Context} (inBranch : Bool) (offset : Nat)
    (h : entry.isSettled = true) : (start l entry inBranch offset).Footed := by
  cases entry with
  | tagName | attrName => simp [Context.isSettled] at h
  | comment => exact .inComment rfl
  | beforeAttrName => exact .inTag rfl
  | beforeAttrValue => exact .beforeValue rfl rfl
  | attrValue quotes => exact .inValue rfl
  | _ => exact .content rfl rfl

/-- No construct is open. -/
theorem footed_of_content {b : Assembly} (he : b.entry.isContent = true)
    (hh : b.context.isContent = true) (hb : b.Closed) : b.Footed := by
  obtain ⟨ht, ha, hv, hm⟩ := hb
  unfold Footed
  rw [ht, ha, hv, hm]
  exact .content he hh

/-- The reader stands in the tag, and no attribute is open. -/
theorem footed_inTag {b : Assembly} (offset : Nat) (ht : b.entry.Surrounds b.tag) (ha : b.attr = none)
    (hv : b.value = none) (hm : b.comment = none) : (b.enter .beforeAttrName offset).Footed := by
  unfold Footed
  rw [enter_entry, enter_context, enter_tag, enter_attr, enter_value, enter_comment, ha, hv, hm]
  exact .inTag ht

theorem Footed.setContent {b : Assembly} (h : b.Footed) (nodes : List Node) :
    (b.setContent nodes).Footed := by
  obtain ⟨ledger, entry, here, inBranch, out, tag, attr, value, comment, filled, raw, offset⟩ := b
  dsimp only [Footed] at h
  cases h with
  | content he hh => cases here <;> exact .content he hh
  | comment draft he => exact .comment { draft with children := nodes } he
  | inComment he => exact .inComment he
  | tagName part tag he => exact .tagName part tag he
  | inTag ht => exact .inTag ht
  | attrName part sep drop attr ht => exact .attrName part sep drop attr ht
  | beforeValue ht ha => exact .beforeValue ht ha
  | value draft ht ha => exact .value { draft with children := nodes } ht ha
  | inValue he => exact .inValue he

theorem Footed.ledger {b : Assembly} (h : b.Footed) (l : Ledger) :
    ({ b with ledger := l } : Assembly).Footed := h

theorem Footed.addText {b : Assembly} (h : b.Footed) (text : Text) (location : Span) :
    (b.addText text location).Footed := by
  unfold Assembly.addText
  split
  · exact h.setContent _
  · exact Footed.setContent (b := { b with ledger := b.ledger.drawn }) h _

theorem Footed.reportLexeme {b : Assembly} (h : b.Footed) (location : Span) (l : Lexeme) :
    (b.reportLexeme location l).Footed := by
  rw [reportLexeme_eq]
  exact h

/-! ## 3. What the drafts of a context are -/

/-- Between tags no draft is open. -/
theorem Footed.closed {b : Assembly} (h : b.Footed) (hb : b.context.isContent = true) :
    b.entry.isContent = true ∧ b.Closed := by
  obtain ⟨ledger, entry, here, inBranch, out, tag, attr, value, comment, filled, raw, off⟩ := b
  dsimp only [Footed] at h hb
  cases h with
  | content he _ => exact ⟨he, rfl, rfl, rfl, rfl⟩
  | _ => simp [Context.isContent] at hb

/-- In a tag name a tag is open. -/
theorem Footed.of_tagName {b : Assembly} {part : NamePart} (h : b.Footed)
    (hb : b.context = .tagName part) : b.entry.isContent = true ∧ b.tag.isSome = true
      ∧ b.attr = none ∧ b.value = none ∧ b.comment = none := by
  obtain ⟨ledger, entry, here, inBranch, out, tag, attr, value, comment, filled, raw, off⟩ := b
  dsimp only at hb
  subst hb
  dsimp only [Footed] at h
  cases h with
  | content _ hh => simp [Context.isContent] at hh
  | tagName _ _ he => exact ⟨he, rfl, rfl, rfl, rfl⟩

/-- Between attributes none is open. -/
theorem Footed.of_beforeAttrName {b : Assembly} (h : b.Footed) (hb : b.context = .beforeAttrName) :
    b.entry.Surrounds b.tag ∧ b.attr = none ∧ b.value = none ∧ b.comment = none := by
  obtain ⟨ledger, entry, here, inBranch, out, tag, attr, value, comment, filled, raw, off⟩ := b
  dsimp only at hb
  subst hb
  dsimp only [Footed] at h
  cases h with
  | content _ hh => simp [Context.isContent] at hh
  | inTag ht => exact ⟨ht, rfl, rfl, rfl⟩

/-- In an attribute name an attribute is open. -/
theorem Footed.of_attrName {b : Assembly} {part : NamePart} {sep drop : Bool} (h : b.Footed)
    (hb : b.context = .attrName part sep drop) : b.entry.Surrounds b.tag ∧ b.attr.isSome = true
      ∧ b.value = none ∧ b.comment = none := by
  obtain ⟨ledger, entry, here, inBranch, out, tag, attr, value, comment, filled, raw, off⟩ := b
  dsimp only at hb
  subst hb
  dsimp only [Footed] at h
  cases h with
  | content _ hh => simp [Context.isContent] at hh
  | attrName _ _ _ _ ht => exact ⟨ht, rfl, rfl, rfl⟩

/-- Before a value an attribute waits for it. -/
theorem Footed.of_beforeAttrValue {b : Assembly} (h : b.Footed)
    (hb : b.context = .beforeAttrValue) : b.entry.Surrounds b.tag ∧ b.entry.Awaits b.attr
      ∧ b.value = none ∧ b.comment = none := by
  obtain ⟨ledger, entry, here, inBranch, out, tag, attr, value, comment, filled, raw, off⟩ := b
  dsimp only at hb
  subst hb
  dsimp only [Footed] at h
  cases h with
  | content _ hh => simp [Context.isContent] at hh
  | beforeValue ht ha => exact ⟨ht, ha, rfl, rfl⟩

/-- In a value that is open an attribute waits for it. -/
theorem Footed.of_value {b : Assembly} {value : ValueDraft} (h : b.Footed)
    (hv : b.value = some value) : b.context = .attrValue value.quotes
      ∧ b.entry.Surrounds b.tag ∧ b.entry.Awaits b.attr ∧ b.comment = none := by
  obtain ⟨ledger, entry, here, inBranch, out, tag, attr, value, comment, filled, raw, off⟩ := b
  dsimp only at hv
  subst hv
  dsimp only [Footed] at h
  cases h with
  | value _ ht ha => exact ⟨rfl, ht, ha, rfl⟩

/-- In a comment that is open nothing else is. -/
theorem Footed.of_comment {b : Assembly} {comment : CommentDraft} (h : b.Footed)
    (hm : b.comment = some comment) : b.entry.isContent = true ∧ b.tag = none ∧ b.attr = none
      ∧ b.value = none := by
  obtain ⟨ledger, entry, here, inBranch, out, tag, attr, value, comment, filled, raw, off⟩ := b
  dsimp only at hm
  subst hm
  dsimp only [Footed] at h
  cases h with
  | comment _ he => exact ⟨he, rfl, rfl, rfl⟩

/-! ## 4. Marks -/

/-- A tag that is given up or finished leaves no construct open. -/
theorem footed_abortTag {b : Assembly} (he : b.entry.isContent = true) (ht : b.tag.isSome = true)
    (ha : b.attr = none) (hv : b.value = none) (hm : b.comment = none) : b.abortTag.Footed := by
  obtain ⟨tag, ht⟩ := Option.isSome_iff_exists.mp ht
  obtain ⟨h1, h2, h3, h4⟩ := b.abortTag_drafts
  refine footed_of_content ?_ ?_ ⟨h1, h2.trans ha, h3.trans hv, h4.trans hm⟩
  · rw [b.extends_abortTag.entry]
    exact he
  · rw [abortTag_context ht]
    unfold TagDraft.outside
    split <;> rfl

theorem footed_closeTag {b : Assembly} (selfClosing : Bool) (stop : Nat) (bodyFollows : Bool)
    (he : b.entry.isContent = true) (ht : b.tag.isSome = true) (ha : b.attr = none)
    (hv : b.value = none) (hm : b.comment = none) :
    (b.closeTag selfClosing stop bodyFollows).Footed := by
  obtain ⟨tag, ht'⟩ := Option.isSome_iff_exists.mp ht
  obtain ⟨h1, h2, h3, h4⟩ := b.closeTag_drafts selfClosing stop bodyFollows
  refine footed_of_content ?_ ?_ ⟨h1, h2.trans ha, h3.trans hv, h4.trans hm⟩
  · rw [(b.extends_closeTag ..).entry]
    exact he
  · unfold closeTag
    simp only [ht']
    split
    · rw [abortTag_context ht']
      unfold TagDraft.outside
      split <;> rfl
    · split
      · rw [(addCloseTag_drafts ..).2.1]
        rfl
      · exact (addOpenTag_drafts ..).2.1

/-- A tag stays open when it gets one more child. -/
theorem surrounds_addAmongAttrs {b : Assembly} {entry : Context} (node : Node)
    (h : entry.Surrounds b.tag) : entry.Surrounds (b.addAmongAttrs node).tag := by
  unfold addAmongAttrs
  split
  · next tag ht =>
    rw [ht] at h
    exact h
  · exact h

theorem surrounds_addAttr {b : Assembly} {entry : Context} (attr : AttrDraft)
    (value : Option Node) (stop : Nat) (h : entry.Surrounds b.tag) :
    entry.Surrounds (b.addAttr attr value stop).tag := by
  unfold addAttr
  split
  · exact h
  · split
    · exact h
    · exact surrounds_addAmongAttrs (b := { b with ledger := b.ledger.drawnForHtml }) _ h

/-- An attribute ends. -/
theorem footed_endAttr {b : Assembly} (stop offset : Nat) (ht : b.entry.Surrounds b.tag)
    (hv : b.value = none) (hm : b.comment = none) :
    ((b.endAttr stop).enter .beforeAttrName offset).Footed := by
  have hfin : b.finishAttrName.entry = b.entry ∧ b.finishAttrName.tag = b.tag
      ∧ b.finishAttrName.value = b.value ∧ b.finishAttrName.comment = b.comment := by
    unfold finishAttrName
    split
    · exact ⟨rfl, rfl, rfl, rfl⟩
    · split <;> exact ⟨rfl, rfl, rfl, rfl⟩
  obtain ⟨h1, h2, h3, h4⟩ := hfin
  have ht' : b.finishAttrName.entry.Surrounds b.finishAttrName.tag := by
    rw [h1, h2]
    exact ht
  unfold endAttr
  dsimp only
  split
  · next ha => exact footed_inTag offset ht' ha (h3.trans hv) (h4.trans hm)
  · next attr ha =>
    refine footed_inTag offset ?_ ?_ ?_ ?_
    · rw [(extends_addAttr ..).entry]
      exact surrounds_addAttr (b := { b.finishAttrName with attr := none }) attr none stop ht'
    · rw [addAttr_attr]
    · rw [addAttr_value]
      exact h3.trans hv
    · rw [addAttr_comment]
      exact h4.trans hm

/-- A value, or control flow that gives one, goes to the attribute that waits for it. -/
theorem footed_giveValue {b : Assembly} (value : Node) (stop offset : Nat)
    (ht : b.entry.Surrounds b.tag) (hv : b.value = none) (hm : b.comment = none) :
    ((b.giveValue value stop).enter .beforeAttrName offset).Footed := by
  refine footed_inTag offset ?_ (giveValue_attr ..) ?_ ?_
  · rw [(extends_giveValue ..).entry]
    unfold giveValue
    split
    · exact surrounds_addAttr (b := { b with attr := none }) _ _ _ ht
    · exact ht
  · rw [giveValue_value]
    exact hv
  · rw [giveValue_comment]
    exact hm

/-- An open value ends. -/
theorem Footed.endValue {b : Assembly} {value : ValueDraft} (h : b.Footed)
    (hv : b.value = some value) (stop offset : Nat) :
    ((b.endValue stop).enter .beforeAttrName offset).Footed := by
  obtain ⟨_, ht, _, hm⟩ := h.of_value hv
  unfold Assembly.endValue
  rw [hv]
  exact footed_giveValue _ _ _ ht rfl hm

theorem reportAttr_drafts (b : Assembly) (location : Span) (entry : Context)
    (h : entry.Surrounds b.tag) : entry.Surrounds (b.reportAttr location).tag
      ∧ (b.reportAttr location).value = b.value ∧ (b.reportAttr location).comment = b.comment := by
  unfold reportAttr
  split
  · exact ⟨h, rfl, rfl⟩
  · exact ⟨h, rfl, rfl⟩
  · next htag =>
    rw [htag] at h
    split
    · exact ⟨by rw [htag]; exact h, rfl, rfl⟩
    · exact ⟨h, rfl, rfl⟩

/-- An attribute opens. -/
theorem footed_openAttr {b : Assembly} (location : Span) (name : Option Node) (discard : Bool)
    (part : NamePart) (sep drop : Bool) (offset : Nat) (ht : b.entry.Surrounds b.tag)
    (hv : b.value = none) (hm : b.comment = none) :
    ((b.openAttr location name discard).enter (.attrName part sep drop) offset).Footed := by
  obtain ⟨h1, h2, h3⟩ := b.reportAttr_drafts location b.entry ht
  unfold Footed
  rw [enter_entry, enter_context, enter_tag, enter_attr, enter_value, enter_comment,
    (b.extends_openAttr ..).entry]
  simp only [openAttr, h2, h3, hv, hm]
  exact .attrName part sep drop _ h1

/-- What an operation leaves alone when it enters another context. -/
theorem footed_enter {b : Assembly} {next : Context} (offset : Nat)
    (h : Footing b.entry next b.tag b.attr b.value b.comment) : (b.enter next offset).Footed := by
  unfold Footed
  rw [enter_entry, enter_context, enter_tag, enter_attr, enter_value, enter_comment]
  exact h

/-- A tag opens between tags. -/
theorem footed_openTag {b : Assembly} (close : Bool) (location : Span) (offset : Nat)
    (h : b.Footed) (hb : b.context.isContent = true) :
    ((b.openTag close location).enter (.tagName .empty) offset).Footed := by
  obtain ⟨he, ht, ha, hv, hm⟩ := h.closed hb
  refine footed_enter offset ?_
  simp only [openTag, ha, hv, hm]
  exact .tagName .empty _ he

/-- The name of a tag ends. -/
theorem Footed.endTagName {b : Assembly} {part : NamePart} (h : b.Footed)
    (hb : b.context = .tagName part) (offset : Nat) :
    (b.finishTagName.enter .beforeAttrName offset).Footed := by
  obtain ⟨he, ht, ha, hv, hm⟩ := h.of_tagName hb
  obtain ⟨tag, ht⟩ := Option.isSome_iff_exists.mp ht
  refine footed_enter offset ?_
  unfold finishTagName
  simp only [ht]
  split
  · simp only [ha, hv, hm]
    exact .inTag he
  · simp only [ht, ha, hv, hm]
    exact .inTag he

/-- Characters of a name that is dropped. -/
theorem Footed.skipInName {b : Assembly} {part : NamePart} {sep drop : Bool} (h : b.Footed)
    (hb : b.context = .attrName part sep drop) (part' : NamePart) (offset : Nat) :
    ((if (Context.attrName part' false true).discards && !b.context.discards then b.discardAttr
      else b).enter (.attrName part' false true) offset).Footed := by
  obtain ⟨ht, ha, hv, hm⟩ := h.of_attrName hb
  obtain ⟨attr, ha⟩ := Option.isSome_iff_exists.mp ha
  refine footed_enter offset ?_
  split
  · simp only [discardAttr, ha, Option.map_some, hv, hm]
    exact .attrName _ _ _ _ ht
  · simp only [ha, hv, hm]
    exact .attrName _ _ _ _ ht

/-- The end of a value: one that is open, since no other may be ended. -/
theorem Footed.apply_valueEnd {b : Assembly} {text : Text} (location : Span) (h : b.Footed)
    (hq : (b.apply .valueEnd .beforeAttrName text location).Quiet) :
    (b.apply .valueEnd .beforeAttrName text location).Footed := by
  simp only [Assembly.apply] at hq ⊢
  split at hq
  · next value hv =>
    exact h.endValue hv _ _
  · split at hq
    · exact absurd ((extends_enter ..).quiet hq) (b.ledger.not_quiet_report location)
    · exact absurd ((extends_addText ..).quiet hq) (b.ledger.not_quiet_report location)

/-- **A mark keeps every draft in its place.** -/
theorem Footed.apply {b : Assembly} {c : Char} {l : Lexeme} {m : Mark} {text : Text}
    (location : Span) (h : b.Footed) (hl : Context.Move b.context c l) (hm : l.mark = some m)
    (hq : (b.apply m l.next text location).Quiet) : (b.apply m l.next text location).Footed := by
  generalize hb : b.context = here at hl
  cases hl <;> cases hm
  case openComment =>
    obtain ⟨he, ht, ha, hv, hm⟩ := h.closed (by rw [hb]; rfl)
    refine footed_enter _ ?_
    simp only [ht, ha, hv]
    exact .comment _ he
  case openTag close w => exact footed_openTag close location _ h (by rw [hb]; rfl)
  case closeRcdata e => exact footed_openTag true location _ h (by rw [hb]; rfl)
  case closeComment =>
    simp only [Assembly.apply]
    split
    · next comment hc =>
      obtain ⟨he, ht, ha, hv⟩ := h.of_comment hc
      refine footed_enter _ ?_
      simp only [endComment, hc, addOut, ht, ha, hv]
      exact .content he rfl
    · exact Footed.addText (b := b.report ..) h _ _
  case nameChars part w hp =>
    obtain ⟨he, ht, ha, hv, hm⟩ := h.of_tagName hb
    obtain ⟨tag, ht⟩ := Option.isSome_iff_exists.mp ht
    refine footed_enter _ ?_
    simp only [addTagName, ht, ha, hv, hm]
    exact .tagName .static _ he
  case abort part =>
    obtain ⟨he, ht, ha, hv, hm⟩ := h.of_tagName hb
    simp only [Assembly.apply]
    split
    · exact footed_abortTag he ht ha hv hm
    · next hn => simp [hn] at ht
  case nameEnd part hp => exact h.endTagName hb _
  case nameGlued => exact h.endTagName hb _
  case skipInTag w =>
    obtain ⟨ht, ha, hv, hm⟩ := h.of_beforeAttrName hb
    simp only [Assembly.apply, Context.discards, Bool.false_and, Bool.false_eq_true, if_false]
    exact footed_inTag _ ht ha hv hm
  case endTag selfClosing w =>
    obtain ⟨ht, ha, hv, hm⟩ := h.of_beforeAttrName hb
    simp only [Assembly.apply]
    split
    · next tag htag =>
      rw [htag] at ht
      exact footed_closeTag _ _ _ ht (by rw [htag]; rfl) ha hv hm
    · exact h
  case attrStart hc =>
    obtain ⟨ht, ha, hv, hm⟩ := h.of_beforeAttrName hb
    exact footed_openAttr _ _ _ _ _ _ _ ht hv hm
  case badAttr =>
    obtain ⟨ht, ha, hv, hm⟩ := h.of_beforeAttrName hb
    exact footed_openAttr _ _ _ _ _ _ _ ht hv hm
  case skipDropped part sep => exact h.skipInName hb part _
  case spoiled part sep hp => exact h.skipInName hb part _
  case attrChar part sep sep' hp =>
    obtain ⟨ht, ha, hv, hm⟩ := h.of_attrName hb
    obtain ⟨attr, ha⟩ := Option.isSome_iff_exists.mp ha
    refine footed_enter _ ?_
    simp only [addAttrName, ha]
    split
    · simp only [ha, hv, hm]
      exact .attrName _ _ _ _ ht
    · simp only [hv, hm]
      exact .attrName _ _ _ _ ht
  case equals part sep drop hc =>
    obtain ⟨ht, ha, hv, hm⟩ := h.of_attrName hb
    obtain ⟨attr, ha⟩ := Option.isSome_iff_exists.mp ha
    refine footed_enter _ ?_
    simp only [finishAttrName, ha]
    split
    · simp only [hv, hm]
      exact .beforeValue ht trivial
    · simp only [ha, hv, hm]
      exact .beforeValue ht trivial
  case attrEnd part sep drop hc =>
    obtain ⟨ht, ha, hv, hm⟩ := h.of_attrName hb
    exact footed_endAttr _ _ ht hv hm
  case attrGlued sep =>
    obtain ⟨ht, ha, hv, hm⟩ := h.of_attrName hb
    exact footed_endAttr _ _ ht hv hm
  case skipBeforeValue w =>
    obtain ⟨ht, ha, hv, hm⟩ := h.of_beforeAttrValue hb
    simp only [Assembly.apply, Context.discards, Bool.false_and, Bool.false_eq_true, if_false]
    refine footed_enter _ ?_
    rw [hv, hm]
    exact .beforeValue ht ha
  case openQuoted quotes hq' =>
    obtain ⟨ht, ha, hv, hm⟩ := h.of_beforeAttrValue hb
    refine footed_enter _ ?_
    simp only [hm]
    exact .value ⟨quotes, _, []⟩ ht ha
  case openBare =>
    obtain ⟨ht, ha, hv, hm⟩ := h.of_beforeAttrValue hb
    refine footed_enter _ ?_
    simp only [hm]
    exact .value ⟨.bare, _, []⟩ ht ha
  case closeBare => exact h.apply_valueEnd _ hq
  case closeQuoted quotes hq' => exact h.apply_valueEnd _ hq

/-! ## 5. Runs -/

/-- Content that is read changes the context only between contexts of one sort. -/
theorem Footed.enter_content {b : Assembly} {c : Char} {l : Lexeme} (offset : Nat) (h : b.Footed)
    (hl : Context.Move b.context c l) (hm : l.mark = none) : (b.enter l.next offset).Footed := by
  have same {next : Context} (hb : b.context = next) : (b.enter next offset).Footed := by
    unfold enter
    rw [if_pos hb]
    exact h
  have content {next : Context} (hb : b.context.isContent = true) (hn : next.isContent = true) :
      (b.enter next offset).Footed := by
    obtain ⟨he, ht, ha, hv, hm⟩ := h.closed hb
    refine footed_enter offset ?_
    rw [ht, ha, hv, hm]
    exact .content he hn
  generalize hb : b.context = here at hl content
  cases hl with
  | commentText | valueText => exact same hb
  | text | badTag | openCdata | openDeclaration | rcdataText | declarationText | closeDeclaration
  | cdataText | closeCdata => exact content rfl rfl
  | _ => cases hm

/-- **A run of text keeps every draft in its place.** -/
theorem Footed.read {b : Assembly} {run : RawRun} {t : Text} (h : b.Footed)
    (hq : (b.read run 0 none t).Quiet) : (b.read run 0 none t).Footed := by
  refine read_rule (P := fun b _ _ => b.Quiet → b.Footed) ?_ ?_ ?_ (fun _ => h)
    (fun _ h => by cases h) hq
  · intro b' h c cs location offset hP hm hq
    have hq' := (extends_reportLexeme ..).quiet ((extends_enter ..).quiet hq)
    have hmove := Context.lexeme_move b'.context c cs
    rw [← reportLexeme_context b' location (b'.context.lexeme c cs)] at hmove
    have := Footed.enter_content offset ((hP hq').reportLexeme location (b'.context.lexeme c cs))
      hmove (by rw [reportLexeme_context]; exact hm)
    rwa [reportLexeme_context] at this
  · exact fun location hP _ _ hq => (hP ((extends_addText ..).quiet hq)).addText _ location
  · intro b' c cs m location place hP hm hq
    have hq' := (extends_reportLexeme ..).quiet ((extends_apply ..).quiet hq)
    have hmove : Context.Move (b'.reportLexeme location (b'.context.lexeme c cs)).context c
        (b'.context.lexeme c cs) := by
      rw [reportLexeme_context]
      exact Context.lexeme_move ..
    exact ((hP hq').reportLexeme location _).apply place hmove hm hq

theorem Footed.readRun {b : Assembly} {run : RawRun} (h : b.Footed) (hq : (b.readRun run).Quiet) :
    (b.readRun run).Footed :=
  Footed.read (b := { b with ledger := b.ledger.countRun }) h hq

theorem Footed.readCollected {b : Assembly} {run : Option RawRun} (h : b.Footed)
    (hq : (b.readCollected run).Quiet) : (b.readCollected run).Footed := by
  cases run with
  | none => exact h
  | some run => exact h.readRun hq

theorem Footed.collect {b : Assembly} {run : Option RawRun} {text : Text} {location : Span}
    (h : b.Footed) (hq : (b.collect run text location).1.Quiet) :
    (b.collect run text location).1.Footed := by
  unfold Assembly.collect at hq ⊢
  split at hq
  · exact h
  · split at hq <;> rename_i hj
    · rw [if_pos hj]
      exact h
    · rw [if_neg hj]
      exact h.readRun hq

/-! ## 6. Placing -/

/-- A node of content that changes the context does so between contexts without drafts. -/
theorem isContent_of_contextAfter? {here next : Context} {node : Node}
    (h : contextAfter? here node = some next) :
    here.isContent = true ∧ next.isContent = true := by
  unfold contextAfter? at h
  split at h
  · obtain ⟨e, _, rfl⟩ := Option.map_eq_some_iff.mp h
    exact ⟨rfl, rfl⟩
  · split at h
    · cases h
      exact ⟨rfl, rfl⟩
    · cases h
  · cases h

theorem Footed.placeContent {b : Assembly} (h : b.Footed) (node : Node) :
    (b.placeContent node).Footed := by
  unfold Assembly.placeContent
  split
  · exact h.setContent _
  · next next hn =>
    obtain ⟨hb, hn⟩ := isContent_of_contextAfter? hn
    obtain ⟨he, ht, ha, hv, hm⟩ := h.closed hb
    refine footed_enter _ ?_
    simp only [addContent, setContent_of_isContent hb, ht, ha, hv, hm]
    exact .content he hn

theorem Footed.addAmongAttrs {b : Assembly} (h : b.Footed) (hb : b.context.isInTag = true)
    (node : Node) : (b.addAmongAttrs node).Footed := by
  unfold Footed
  rw [addAmongAttrs_entry, addAmongAttrs_context, addAmongAttrs_attr, addAmongAttrs_value,
    addAmongAttrs_comment]
  cases hc : b.context <;> simp [hc, Context.isInTag] at hb
  · obtain ⟨ht, ha, hv, hm⟩ := h.of_beforeAttrName hc
    rw [ha, hv, hm]
    exact .inTag (surrounds_addAmongAttrs node ht)
  · obtain ⟨ht, ha, hv, hm⟩ := h.of_beforeAttrValue hc
    rw [hv, hm]
    exact .beforeValue (surrounds_addAmongAttrs node ht) ha

theorem Footed.placeInTag {b : Assembly} (h : b.Footed) (hb : b.context = .beforeAttrName)
    (node : Node) : (b.placeInTag node).Footed := by
  unfold Assembly.placeInTag
  split
  · obtain ⟨ht, ha, hv, hm⟩ := h.of_beforeAttrName hb
    exact footed_openAttr _ _ _ _ _ _ _ ht hv hm
  · exact h.addAmongAttrs (by rw [hb]; rfl) node

/-- The attribute whose name is being read ends. -/
theorem Footed.closeAttr {b : Assembly} {part : NamePart} {sep drop : Bool} (h : b.Footed)
    (hb : b.context = .attrName part sep drop) (offset : Nat) : (b.closeAttr offset).Footed := by
  obtain ⟨ht, _, hv, hm⟩ := h.of_attrName hb
  exact footed_endAttr _ _ ht hv hm

theorem Footed.placeTagName {b : Assembly} (h : b.Footed) (hb : b.context = .tagName .empty)
    (node : Node) : (b.placeTagName node).Footed := by
  obtain ⟨he, ht, ha, hv, hm⟩ := h.of_tagName hb
  obtain ⟨tag, htag⟩ := Option.isSome_iff_exists.mp ht
  unfold Assembly.placeTagName
  split
  · refine footed_enter _ ?_
    simp only [htag, ha, hv, hm]
    exact .tagName _ _ he
  · exact (footed_abortTag (b := b.report ..) he ht ha hv hm).placeContent node

theorem Footed.placeBeforeValue {b : Assembly} (h : b.Footed) (hb : b.context = .beforeAttrValue)
    (node : Node) : (b.placeBeforeValue node).Footed := by
  obtain ⟨ht, ha, hv, hm⟩ := h.of_beforeAttrValue hb
  have bare (location : Span) : ({ b with value := some ⟨.bare, location.start, [node]⟩ }.enter
      (.attrValue .bare) location.start).Footed := by
    refine footed_enter _ ?_
    simp only [hm]
    exact .value ⟨.bare, _, _⟩ ht ha
  unfold Assembly.placeBeforeValue
  split
  · exact bare _
  · exact bare _
  · exact footed_giveValue _ _ _ ht hv hm
  · exact h.addAmongAttrs (by rw [hb]; rfl) node

theorem Footed.reportJoined {b : Assembly} (h : b.Footed) (node : Node) :
    (b.reportJoined node).Footed := by
  unfold Assembly.reportJoined
  split <;> exact h

@[simp] theorem reportJoined_context (b : Assembly) (node : Node) :
    (b.reportJoined node).context = b.context := by
  unfold reportJoined
  split <;> rfl

/-- **A node that is placed leaves every draft in its place.** -/
theorem Footed.place {b : Assembly} (h : b.Footed) (node : Node) : (b.place node).Footed := by
  unfold Assembly.place
  split <;> rename_i hb
  case h_7 => exact h.placeTagName hb node
  case h_8 part hp =>
    exact ((h.reportJoined node).endTagName (by rw [reportJoined_context]; exact hb) _).placeInTag
      (enter_context ..) node
  case h_9 => exact h.placeInTag hb node
  case h_10 part sep drop =>
    split
    · exact h
    · exact ((h.reportJoined node).closeAttr (by rw [reportJoined_context]; exact hb) _).placeInTag
        (enter_context ..) node
  case h_11 => exact h.placeBeforeValue hb node
  all_goals exact h.placeContent node

/-! ## 7. Control flow -/

/-- **Before control flow the name that is being read ends**, so branches begin in a settled
context. -/
theorem Footed.settle {b : Assembly} (h : b.Footed) (location : Span) :
    (b.settle location).Footed ∧ (b.settle location).context.isSettled = true := by
  unfold Assembly.settle
  split <;> rename_i hb
  · obtain ⟨he, ht, ha, hv, hm⟩ := h.of_tagName hb
    obtain ⟨tag, htag⟩ := Option.isSome_iff_exists.mp ht
    refine ⟨footed_abortTag (b := b.report ..) he ht ha hv hm, ?_⟩
    rw [abortTag_context (b := b.report location .controlFlowInTagName) htag]
    unfold TagDraft.outside
    split <;> rfl
  · exact ⟨h.endTagName hb _, by rw [enter_context]; rfl⟩
  · exact ⟨h.closeAttr hb _, by rw [Assembly.closeAttr, enter_context]; rfl⟩
  · next h1 h2 =>
    refine ⟨h, ?_⟩
    cases hx : b.context with
    | tagName part => exact absurd hx (h2 part)
    | attrName part sep drop => exact absurd hx (hb part sep drop)
    | _ => rfl

/-- **Control flow is placed**, and the reader goes on where its branches have led. -/
theorem Footed.placeFlow {b : Assembly} (h : b.Footed) (flow : Flow) {exit : Context}
    (hl : Context.Leads b.context exit) : (b.placeFlow flow exit).Footed := by
  have same {b' : Assembly} {next : Context} (hb' : b'.Footed) (hn : b'.context = next)
      (offset : Nat) : (b'.enter next offset).Footed := by
    unfold enter
    rw [if_pos hn]
    exact hb'
  unfold Assembly.placeFlow
  split
  · next hb =>
    obtain ⟨ht, ha, hv, hm⟩ := h.of_beforeAttrValue hb
    split
    · exact footed_giveValue _ _ _ ht hv hm
    · next hx =>
      rw [hb] at hl
      obtain rfl | hx' := hl
      · exact same (h.addAmongAttrs (by rw [hb]; rfl) _) ((addAmongAttrs_context ..).trans hb) _
      · exact absurd hx' hx
  · next hb =>
    rw [hb] at hl
    obtain rfl : exit = .beforeAttrName := hl
    exact same (h.addAmongAttrs (by rw [hb]; rfl) _) ((addAmongAttrs_context ..).trans hb) _
  · by_cases hb : b.context.isContent = true
    · obtain ⟨he, ht, ha, hv, hm⟩ := h.closed hb
      refine footed_enter _ ?_
      simp only [addContent, setContent_of_isContent hb, ht, ha, hv, hm]
      exact .content he ((Context.leads_of_isContent hb).mp hl)
    · have hx : b.context = exit := by
        generalize b.context = here at *
        cases here <;> first | exact hl.symm | exact hl.elim | contradiction
      exact same (h.setContent _) ((addContent_context ..).trans hx) _

/-! ## 8. Ends -/

/-- At the end the name that is being read ends too. -/
theorem Footed.settleAtEnd {b : Assembly} (h : b.Footed) :
    b.settleAtEnd.Footed ∧ b.settleAtEnd.context.isSettled = true := by
  unfold Assembly.settleAtEnd
  split <;> rename_i hb
  · obtain ⟨he, ht, ha, hv, hm⟩ := h.of_tagName hb
    obtain ⟨tag, htag⟩ := Option.isSome_iff_exists.mp ht
    refine ⟨footed_abortTag he ht ha hv hm, ?_⟩
    rw [abortTag_context htag]
    unfold TagDraft.outside
    split <;> rfl
  · exact ⟨h.endTagName hb _, by rw [enter_context]; rfl⟩
  · exact ⟨h.closeAttr hb _, by rw [Assembly.closeAttr, enter_context]; rfl⟩
  · next h1 h2 =>
    refine ⟨h, ?_⟩
    cases hx : b.context with
    | tagName part => exact absurd hx (h2 part)
    | attrName part sep drop => exact absurd hx (hb part sep drop)
    | _ => rfl

theorem Footed.closeValue {b : Assembly} (h : b.Footed) (stop : Nat) :
    (b.closeValue stop).Footed := by
  unfold Assembly.closeValue
  split
  · exact h
  · next value hv => exact h.endValue hv stop stop

/-- The value of a settled assembly ends in the tag. -/
theorem isSettled_closeValue {b : Assembly} (hs : b.context.isSettled = true) (stop : Nat) :
    (b.closeValue stop).context.isSettled = true := by
  unfold Assembly.closeValue
  split
  · exact hs
  · rw [enter_context]
    rfl

theorem isSettled_closeAnyAttr {b : Assembly} (hs : b.context.isSettled = true) (stop : Nat) :
    (b.closeAnyAttr stop).context.isSettled = true := by
  unfold Assembly.closeAnyAttr
  split
  · exact congrArg Context.isSettled (enter_context ..)
  · exact hs

theorem Footed.closeAnyAttr {b : Assembly} (h : b.Footed) (hs : b.context.isSettled = true)
    (hv : b.value = none) (stop : Nat) : (b.closeAnyAttr stop).Footed := by
  unfold Assembly.closeAnyAttr
  split
  · next ha =>
    obtain ⟨ledger, entry, here, inBranch, out, tag, attr, value, comment, filled, raw, off⟩ := b
    dsimp only at ha hv hs
    subst hv
    have h' := h
    dsimp only [Footed] at h'
    cases h' with
    | attrName => simp [Context.isSettled] at hs
    | beforeValue ht _ => exact footed_endAttr _ _ ht rfl rfl
    | _ => simp at ha
  · exact h

/-- What the last two drafts, a tag or a comment, end in. -/
theorem Footed.leads_closeTag {b : Assembly} (h : b.Footed) (hs : b.context.isSettled = true)
    (ha : b.attr = none) (hv : b.value = none) (stop : Nat) :
    Context.Leads b.entry ((b.closeTag false stop false).closeAnyComment stop).context := by
  have hfoot {tag : TagDraft} (ht : b.tag = some tag) (he : b.entry.isContent = true)
      (hm : b.comment = none) :
      ((b.closeTag false stop false).closeAnyComment stop).context.isContent = true := by
    have hclose := footed_closeTag false stop false he (by rw [ht]; rfl) ha hv hm
    obtain ⟨h1, h2, h3, h4⟩ := b.closeTag_drafts false stop false
    unfold closeAnyComment
    rw [h4, hm]
    simp only [Option.isSome_none, Bool.false_eq_true, if_false]
    unfold closeTag
    simp only [ht]
    split
    · rw [abortTag_context ht]
      unfold TagDraft.outside
      split <;> rfl
    · split
      · rw [(addCloseTag_drafts ..).2.1]
        rfl
      · exact (addOpenTag_drafts ..).2.1
  obtain ⟨ledger, entry, here, inBranch, out, tag, attr, value, comment, filled, raw, off⟩ := b
  dsimp only at ha hv hs hfoot
  subst ha hv
  dsimp only [Footed] at h
  cases h with
  | content he hh => exact (Context.leads_of_isContent he).mpr hh
  | comment draft he =>
    refine (Context.leads_of_isContent he).mpr ?_
    simp [closeTag, closeAnyComment, Context.isContent]
  | inComment he => subst he; rfl
  | tagName => simp [Context.isSettled] at hs
  | inTag ht =>
    cases tag with
    | some tag => exact (Context.leads_of_isContent ht).mpr (hfoot rfl ht rfl)
    | none =>
      cases entry <;> simp [Context.Surrounds, Context.isInTag] at ht
      · rfl
      · exact Or.inr rfl
  | beforeValue ht ha =>
    obtain rfl : entry = .beforeAttrValue := ha
    cases tag with
    | some tag => simp [Context.Surrounds, Context.isContent] at ht
    | none => exact Or.inl rfl
  | inValue he => subst he; rfl

/-- **A branch ends where its entry leads**, whatever it left open. -/
theorem Footed.leads_closeDrafts {b : Assembly} (h : b.Footed) :
    Context.Leads b.entry b.closeDrafts.context := by
  rw [closeDrafts_eq]
  obtain ⟨hfoot, hset⟩ := h.settleAtEnd
  have hvalue := hfoot.closeValue b.offset
  have hset' := isSettled_closeValue hset b.offset
  obtain ⟨hv, _⟩ := b.settleAtEnd.closeValue_drafts b.offset
  obtain ⟨ha, hv'⟩ := (b.settleAtEnd.closeValue b.offset).closeAnyAttr_drafts b.offset
  have hattr := hvalue.closeAnyAttr hset' hv b.offset
  have hset'' : ((b.settleAtEnd.closeValue b.offset).closeAnyAttr b.offset).context.isSettled
      = true := by
    unfold Assembly.closeAnyAttr
    split
    · rw [Assembly.closeAttr, enter_context]
      rfl
    · exact hset'
  have hentry : ((b.settleAtEnd.closeValue b.offset).closeAnyAttr b.offset).entry = b.entry :=
    ((b.extends_settleAtEnd.trans (extends_closeValue ..)).trans (extends_closeAnyAttr ..)).entry
  rw [← hentry]
  exact hattr.leads_closeTag hset'' ha (hv'.trans hv) b.offset

theorem Footed.leads_endBranch {b : Assembly} (h : b.Footed) :
    Context.Leads b.entry b.endBranch.context := by
  unfold Assembly.endBranch
  split
  · exact h.leads_closeDrafts
  · exact h.leads_closeDrafts

end Assembly

/-! ## 9. The pass -/

/-- The context after control flow is that before it or that after some branch. -/
theorem reconcile_fst (l : Ledger) (location : Span) (head : FlowHead) (entry : Context)
    (exits : Exits) :
    (reconcile l location head entry exits).1 = entry
      ∨ ∃ e ∈ exits, (reconcile l location head entry exits).1 = e.2 := by
  rw [reconcile_exit]
  split
  · exact .inl rfl
  · cases exits with
    | nil => exact .inl rfl
    | cons e exits => exact .inr ⟨e, List.mem_cons_self, rfl⟩

mutual

/-- **Along a quiet run every draft stays in its place.** -/
theorem feedNodes_footed : ∀ (nodes : List Node) (b : Assembly) (run : Option RawRun),
    b.Footed → (feedNodes b run nodes).Quiet → (feedNodes b run nodes).Footed
  | [], b, run, h, hq => by
    rw [feedNodes] at hq ⊢
    exact h.readCollected hq
  | n :: nodes, b, run, h, hq => by
    rw [feedNodes] at hq ⊢
    cases ht : n.rawText? with
    | some text =>
      simp only [ht] at hq ⊢
      exact feedNodes_footed nodes _ _ (h.collect ((feedNodes_extends nodes _ _).quiet hq)) hq
    | none =>
      simp only [ht] at hq ⊢
      have hq' := (feedNodes_extends nodes _ _).quiet hq
      have hread := h.readCollected ((feedNode_extends n _).quiet hq')
      exact feedNodes_footed nodes _ _ (feedNode_footed n _ hread hq') hq

theorem feedNode_footed : ∀ (n : Node) (b : Assembly), b.Footed → (feedNode b n).Quiet →
    (feedNode b n).Footed
  | .call id location callee params, b, h, _ => by
    rw [feedNode]
    exact (h.ledger _).place _
  | .binding id location var value, b, h, _ => by
    rw [feedNode]
    exact (h.ledger _).place _
  | .flow flow, b, h, hq => by
    rw [feedNode] at hq ⊢
    have hq' := (Assembly.extends_placeFlow ..).quiet ((Assembly.extends_reach ..).quiet hq)
    obtain ⟨hfoot, hset⟩ := h.settle flow.location
    exact (hfoot.ledger _).placeFlow _ (rewriteFlow_leads flow _ _ hset hq')
  | .raw .., b, h, _ | .print .., b, h, _ | .openTag .., b, h, _ | .closeTag .., b, h, _
  | .attr .., b, h, _ | .attrValue .., b, h, _ | .comment .., b, h, _ => by
    rw [feedNode]
    exact h.place _
    all_goals simp

/-- **Control flow goes on where its entry leads.** -/
theorem rewriteFlow_leads : ∀ (flow : Flow) (l : Ledger) (entry : Context),
    entry.isSettled = true → (rewriteFlow l entry flow).2.2.Quiet →
    Context.Leads entry (rewriteFlow l entry flow).2.1
  | ⟨id, location, head, branches⟩, l, entry, hs, hq => by
    rw [rewriteFlow] at hq ⊢
    dsimp only at hq ⊢
    split at hq
    · next hd =>
      rw [if_pos hd]
      exact Context.leads_refl hs
    · next hd =>
      rw [if_neg hd]
      have hq' := (reconcile_extends _ location head entry _).quiet hq
      have hall := rewriteBranches_lead branches { l with depth := l.depth + 1 } entry location.start
        hs hq'
      generalize rewriteBranches { l with depth := l.depth + 1 } entry location.start branches = r
        at hall
      rcases reconcile_fst { r.2.2 with depth := l.depth } location head entry r.2.1
        with hx | ⟨e, he, hx⟩
      · exact (congrArg (Context.Leads entry) hx).mpr (Context.leads_refl hs)
      · exact (congrArg (Context.Leads entry) hx).mpr (hall e he)

theorem rewriteBranches_lead : ∀ (branches : List Branch) (l : Ledger) (entry : Context)
    (offset : Nat), entry.isSettled = true → (rewriteBranches l entry offset branches).2.2.Quiet →
    ∀ e ∈ (rewriteBranches l entry offset branches).2.1, Context.Leads entry e.2
  | [], l, entry, offset, _, _ => by
    rw [rewriteBranches]
    simp
  | branch :: branches, l, entry, offset, hs, hq => by
    rw [rewriteBranches] at hq ⊢
    dsimp only at hq ⊢
    intro e he
    rcases List.mem_cons.mp he with rfl | he
    · exact rewriteBranch_leads branch l entry offset hs ((rewriteBranches_extends ..).quiet hq)
    · exact rewriteBranches_lead branches _ entry offset hs hq e he

theorem rewriteBranch_leads : ∀ (branch : Branch) (l : Ledger) (entry : Context) (offset : Nat),
    entry.isSettled = true → (rewriteBranch l entry offset branch).2.2.Quiet →
    Context.Leads entry (rewriteBranch l entry offset branch).2.1
  | ⟨id, kind, nodes⟩, l, entry, offset, hs, hq => by
    rw [rewriteBranch] at hq ⊢
    dsimp only at hq ⊢
    have hfoot := feedNodes_footed nodes (.start l.countBranch entry true offset) none
      (Assembly.footed_start _ _ _ hs) ((Assembly.extends_endBranch _).quiet hq)
    have := hfoot.leads_endBranch
    rwa [(feedNodes_extends nodes (.start l.countBranch entry true offset) none).entry] at this

end

end TemplateMarkup
