/-
# Which drafts are open in which context

While nothing has been reported, the context of an assembly tells which drafts are open.
`Assembly.Stage` lists the cases: between tags nothing is open, in a tag name a tag without a name
is, before a value a named attribute is, and so on.  A branch may begin inside a comment, a tag or
a value that its surroundings hold; then the draft is not there, and the context the branch was
entered in says why.

`Coherent` is kept by every operation that reports nothing, and at the end of a branch it leaves
only the exits of `Context.Leads`.
-/
import TemplateMarkup.Proofs.Html.Footing

namespace TemplateMarkup

/-! ## 1. Stages -/

/-- The name of a tag, by how much of it has been read. -/
def TagDraft.Spells (tag : TagDraft) : NamePart → Prop
  | .empty => tag.name = none ∧ tag.nameText = []
  | .static => tag.name = none ∧ tag.nameText ≠ []
  | .dynamic => tag.name.isSome = true

/-- Nothing has been found among the attributes of the tag, and nothing is wrong with them. -/
def TagDraft.IsFresh (tag : TagDraft) : Prop := tag.children = [] ∧ tag.warned = false

/-- The name of an attribute, by how much of it has been read. -/
def AttrDraft.Spells (attr : AttrDraft) : NamePart → Prop
  | .empty => attr.name = none ∧ attr.nameText = []
  | .static => attr.name = none ∧ attr.nameText ≠ []
  | .dynamic => attr.name.isSome = true

/-- The tag between whose attributes the reader stands: one with a name, or that of the
surroundings. -/
def Context.HoldsTag (entry : Context) : Option TagDraft → Prop
  | none => entry.isInTag = true
  | some tag => entry.isContent = true ∧ tag.name.isSome = true ∧ tag.warned = false

/-- The attribute whose value is due: one with a name, or that of the surroundings. -/
def Context.HoldsSlot (entry : Context) : Option AttrDraft → Prop
  | none => entry = .beforeAttrValue
  | some attr => attr.discard = false ∧ attr.name.isSome = true

/-- The drafts that are open in a context, for an assembly entered in `entry` with the text `t`
left to read. -/
inductive Assembly.Stage (entry : Context) : Context → Option TagDraft → Option AttrDraft →
    Option ValueDraft → Option CommentDraft → Text → Prop
  | content {here : Context} {t : Text} (he : entry.isContent = true)
      (hh : here.isContent = true) : Stage entry here none none none none t
  | comment {draft : CommentDraft} {t : Text} (he : entry.isContent = true) :
      Stage entry .comment none none none (some draft) t
  | inComment {t : Text} (he : entry = .comment) : Stage entry .comment none none none none t
  | tagName {part : NamePart} {tag : TagDraft} {t : Text} (he : entry.isContent = true)
      (hs : tag.Spells part) (hf : tag.IsFresh) : Stage entry (.tagName part) (some tag) none none none t
  | inTag {tag : Option TagDraft} {t : Text} (ht : entry.HoldsTag tag) :
      Stage entry .beforeAttrName tag none none none t
  | attrName {part : NamePart} {sep : Bool} {tag : Option TagDraft} {attr : AttrDraft} {t : Text}
      (ht : entry.HoldsTag tag) (hd : attr.discard = false) (hs : attr.Spells part)
      (hn : part = .empty → ∃ c cs, t = c :: cs ∧ startsAttrName c = true) :
      Stage entry (.attrName part sep false) tag (some attr) none none t
  | beforeValue {tag : Option TagDraft} {attr : Option AttrDraft} {t : Text}
      (ht : entry.HoldsTag tag) (ha : entry.HoldsSlot attr) :
      Stage entry .beforeAttrValue tag attr none none t
  | value {tag : Option TagDraft} {attr : Option AttrDraft} (draft : ValueDraft) {t : Text}
      (ht : entry.HoldsTag tag) (ha : entry.HoldsSlot attr) :
      Stage entry (.attrValue draft.quotes) tag attr (some draft) none t
  | inValue {quotes : Quotes} {t : Text} (he : entry = .attrValue quotes) :
      Stage entry (.attrValue quotes) none none none none t

namespace Assembly

/-- **The drafts fit the context**, with the text `t` left to read. -/
def Coherent (b : Assembly) (t : Text) : Prop :=
  Stage b.entry b.context b.tag b.attr b.value b.comment t

theorem coherent_start (l : Ledger) {entry : Context} (inBranch : Bool) (offset : Nat)
    (h : entry.isSettled = true) : (start l entry inBranch offset).Coherent [] := by
  cases entry with
  | tagName | attrName => simp [Context.isSettled] at h
  | comment => exact .inComment rfl
  | beforeAttrName => exact .inTag rfl
  | beforeAttrValue => exact .beforeValue rfl rfl
  | attrValue quotes => exact .inValue rfl
  | _ => exact .content rfl rfl

/-- Between tags no draft is open. -/
theorem Coherent.closed {b : Assembly} {t : Text} (h : b.Coherent t)
    (hb : b.context.isContent = true) : b.Closed := by
  obtain ⟨ledger, entry, here, inBranch, out, tag, attr, value, comment, filled, raw, off⟩ := b
  dsimp only [Coherent] at h hb
  cases h with
  | content => exact ⟨rfl, rfl, rfl, rfl⟩
  | _ => simp [Context.isContent] at hb

/-- Only in a name that has not begun does the text that is left matter. -/
theorem Stage.restrict {entry here : Context} {tag : Option TagDraft} {attr : Option AttrDraft}
    {value : Option ValueDraft} {comment : Option CommentDraft} {t t' : Text}
    (h : Stage entry here tag attr value comment t)
    (hn : ∀ sep, here ≠ .attrName .empty sep false) :
    Stage entry here tag attr value comment t' := by
  cases h with
  | content he hh => exact .content he hh
  | comment he => exact .comment he
  | inComment he => exact .inComment he
  | tagName he hs hf => exact .tagName he hs hf
  | inTag ht => exact .inTag ht
  | @attrName part sep _ _ _ ht hd hs h' =>
    exact .attrName ht hd hs fun hp => absurd (by rw [hp]) (hn sep)
  | beforeValue ht ha => exact .beforeValue ht ha
  | value draft ht ha => exact .value draft ht ha
  | inValue he => exact .inValue he

/-- While nothing has been reported no attribute name is dropped. -/
theorem Coherent.discards {b : Assembly} {t : Text} (h : b.Coherent t) :
    b.context.discards = false := by
  unfold Coherent at h
  generalize b.context = here, b.tag = tag, b.attr = attr, b.value = value, b.comment = comment at h
  cases h with
  | content _ hh => cases here <;> first | rfl | cases hh
  | _ => rfl

/-- At the end of a run no attribute name is about to begin. -/
theorem Coherent.restrict_nil {b : Assembly} {t : Text} (h : b.Coherent []) : b.Coherent t := by
  refine Stage.restrict h fun sep hc => ?_
  have h' : Stage b.entry (.attrName .empty sep false) b.tag b.attr b.value b.comment [] := hc ▸ h
  generalize b.tag = tag, b.attr = attr, b.value = value, b.comment = comment at h'
  cases h' with
  | content _ hh => simp [Context.isContent] at hh
  | attrName _ _ _ hn =>
    obtain ⟨_, _, ht, _⟩ := hn rfl
    simp at ht

/-- Among attributes no comment is open, and a value only if one is being read. -/
theorem Coherent.amongAttrs {b : Assembly} {t : Text} (h : b.Coherent t)
    (hb : b.context = .beforeAttrName ∨ b.context = .beforeAttrValue
      ∨ (∃ part sep drop, b.context = .attrName part sep drop)) :
    b.value = none ∧ b.comment = none := by
  obtain ⟨ledger, entry, here, inBranch, out, tag, attr, value, comment, filled, raw, off⟩ := b
  dsimp only [Coherent] at h hb ⊢
  cases h with
  | content _ hh => rcases hb with rfl | rfl | ⟨_, _, _, rfl⟩ <;> cases hh
  | inTag | attrName | beforeValue => exact ⟨rfl, rfl⟩
  | _ => rcases hb with hb | hb | ⟨_, _, _, hb⟩ <;> cases hb

/-- Where a value is due or being read, an attribute waits for it or the surroundings do. -/
theorem Coherent.slotted {b : Assembly} {t : Text} (h : b.Coherent t)
    (hb : b.context = .beforeAttrValue ∨ ∃ quotes, b.context = .attrValue quotes) :
    b.comment = none ∧ (b.attr = none → b.tag = none) := by
  obtain ⟨ledger, entry, here, inBranch, out, tag, attr, value, comment, filled, raw, off⟩ := b
  dsimp only [Coherent] at h hb ⊢
  have alone (ht : entry.HoldsTag tag) (ha : entry.HoldsSlot attr) : attr = none → tag = none := by
    rintro rfl
    cases tag with
    | none => rfl
    | some tag =>
      obtain rfl : entry = .beforeAttrValue := ha
      cases ht.1
  cases h with
  | content _ hh => rcases hb with rfl | ⟨_, rfl⟩ <;> cases hh
  | beforeValue ht ha => exact ⟨rfl, alone ht ha⟩
  | value _ ht ha => exact ⟨rfl, alone ht ha⟩
  | inValue => exact ⟨rfl, fun _ => rfl⟩
  | _ => rcases hb with hb | ⟨_, hb⟩ <;> cases hb

end Assembly

/-! ## 2. What keeps the stage -/

namespace Assembly

/-- A lexeme with a fault is reported. -/
theorem not_clean_reportLexeme (b : Assembly) (location : Span) {l : Lexeme} {fault : LexFault}
    (h : l.fault = some fault) : ¬ (b.reportLexeme location l).Clean := by
  unfold reportLexeme
  rw [h]
  cases fault <;> exact b.not_clean_report _ _

/-- Where a clean assembly has come to, the lexeme had no fault. -/
theorem fault_eq_none_of_clean {b b' : Assembly} {location : Span} {l : Lexeme}
    (h : (b.reportLexeme location l).Extends b') (hc : b'.Clean) : l.fault = none := by
  cases hf : l.fault with
  | none => rfl
  | some fault => exact absurd (h.clean hc) (b.not_clean_reportLexeme location hf)

/-- Content goes into a container, and no draft opens or closes. -/
theorem Coherent.setContent {b : Assembly} {t : Text} (h : b.Coherent t) (nodes : List Node) :
    (b.setContent nodes).Coherent t := by
  obtain ⟨ledger, entry, here, inBranch, out, tag, attr, value, comment, filled, raw, offset⟩ := b
  dsimp only [Coherent] at h
  cases h with
  | content he hh => cases here <;> exact .content he hh
  | comment he => exact .comment he
  | inComment he => exact .inComment he
  | tagName he hs hf => exact .tagName he hs hf
  | inTag ht => exact .inTag ht
  | attrName ht hd hs hn => exact .attrName ht hd hs hn
  | beforeValue ht ha => exact .beforeValue ht ha
  | value draft ht ha => exact .value { draft with children := nodes } ht ha
  | inValue he => exact .inValue he

theorem Coherent.ledger {b : Assembly} {t : Text} (h : b.Coherent t) (l : Ledger) :
    ({ b with ledger := l } : Assembly).Coherent t := h

theorem Coherent.addText {b : Assembly} {t : Text} (h : b.Coherent t) (text : Text)
    (location : Span) : (b.addText text location).Coherent t := by
  unfold Assembly.addText
  split
  · exact h.setContent _
  · exact (h.ledger _).setContent _

/-! ## 3. Marks -/

theorem reportLexeme_of_fault_eq_none {l : Lexeme} (h : l.fault = none) (b : Assembly)
    (location : Span) : b.reportLexeme location l = b := by
  unfold reportLexeme
  rw [h]

/-- Content that is read keeps the stage. -/
theorem Coherent.content {b : Assembly} {c : Char} {cs t : Text} {l : Lexeme} (offset : Nat)
    (h : b.Coherent (c :: cs)) (hl : Context.Move b.context c l) (hm : l.mark = none) :
    (b.enter l.next offset).Coherent t := by
  obtain ⟨ledger, entry, here, inBranch, out, tag, attr, value, comment, filled, raw, off⟩ := b
  dsimp only [Coherent] at h hl
  simp only [Coherent, enter_entry, enter_context, enter_tag, enter_attr, enter_value,
    enter_comment]
  cases hl with
  | text | badTag | openCdata | openDeclaration | rcdataText | declarationText | closeDeclaration
  | cdataText | closeCdata =>
    cases h with
    | content he _ => exact .content he rfl
  | commentText =>
    cases h with
    | content _ hh => simp [Context.isContent] at hh
    | comment he => exact .comment he
    | inComment he => exact .inComment he
  | valueText =>
    cases h with
    | content _ hh => simp [Context.isContent] at hh
    | value draft ht ha => exact .value draft ht ha
    | inValue he => exact .inValue he
  | _ => simp at hm

/-- The drafts of an assembly in which no construct is open. -/
theorem coherent_of_content {b : Assembly} {t : Text} (he : b.entry.isContent = true)
    (hh : b.context.isContent = true) (ht : b.tag = none) (ha : b.attr = none)
    (hv : b.value = none) (hm : b.comment = none) : b.Coherent t := by
  unfold Coherent
  rw [ht, ha, hv, hm]
  exact .content he hh

/-- **A tag with a name ends.** -/
theorem coherent_closeTag {b : Assembly} {t : Text} {tag : TagDraft} (selfClosing : Bool)
    (stop : Nat) (bodyFollows : Bool) (he : b.entry.isContent = true) (ht : b.tag = some tag)
    (hn : tag.name.isSome = true) (ha : b.attr = none) (hv : b.value = none)
    (hm : b.comment = none) : (b.closeTag selfClosing stop bodyFollows).Coherent t := by
  obtain ⟨name, hname⟩ := Option.isSome_iff_exists.mp hn
  unfold closeTag
  rw [ht]
  dsimp only
  rw [hname]
  dsimp only
  split
  · obtain ⟨h1, h2, h3, h4, h5, h6⟩ := addCloseTag_drafts { b with tag := none } tag name
      (.upTo tag.start stop)
    exact coherent_of_content (by rw [h1]; exact he) (by rw [h2]; rfl) h3 (h4.trans ha) (h5.trans hv)
      (h6.trans hm)
  · obtain ⟨h1, h2, h3, h4, h5, h6⟩ := addOpenTag_drafts { b with tag := none } tag name
      (.upTo tag.start stop) selfClosing bodyFollows
    exact coherent_of_content (by rw [h1]; exact he) h2 h3 (h4.trans ha) (h5.trans hv) (h6.trans hm)

/-- The characters of a tag name that has been spelled become its name. -/
theorem finishTagName_of_spells {b : Assembly} {tag : TagDraft} {part : NamePart}
    (ht : b.tag = some tag) (hs : tag.Spells part) (hp : part ≠ .empty) :
    ∃ tag' l, b.finishTagName = { b with ledger := l, tag := some tag' }
      ∧ tag'.name.isSome = true ∧ tag'.warned = tag.warned := by
  unfold finishTagName
  rw [ht]
  dsimp only
  cases part with
  | empty => exact absurd rfl hp
  | static =>
    obtain ⟨h1, h2⟩ := hs
    rw [if_pos (by simp [h1, h2])]
    exact ⟨_, _, rfl, rfl, rfl⟩
  | dynamic =>
    have hn : tag.name.isNone = false := by simpa [TagDraft.Spells] using hs
    rw [if_neg (by simp [hn])]
    exact ⟨tag, b.ledger, by rw [← ht], hs, rfl⟩

/-- The characters of an attribute name that has been spelled become its name. -/
theorem finishAttrName_of_spells {b : Assembly} {attr : AttrDraft} {part : NamePart}
    (ha : b.attr = some attr) (hs : attr.Spells part) (hp : part ≠ .empty) :
    ∃ attr' l, b.finishAttrName = { b with ledger := l, attr := some attr' }
      ∧ attr'.discard = attr.discard ∧ attr'.name.isSome = true := by
  unfold finishAttrName
  rw [ha]
  dsimp only
  cases part with
  | empty => exact absurd rfl hp
  | static =>
    obtain ⟨h1, h2⟩ := hs
    rw [if_pos (by simp [h1, h2])]
    exact ⟨_, _, rfl, rfl, rfl⟩
  | dynamic =>
    have hn : attr.name.isNone = false := by simpa [AttrDraft.Spells] using hs
    rw [if_neg (by simp [hn])]
    exact ⟨attr, b.ledger, by rw [← ha], rfl, hs⟩

/-- The tag that a stage holds is still held when it gets one more child. -/
theorem holdsTag_addAmongAttrs (b : Assembly) (node : Node) {entry : Context}
    (h : entry.HoldsTag b.tag) : entry.HoldsTag (b.addAmongAttrs node).tag := by
  unfold addAmongAttrs
  split
  · next tag ht =>
    rw [ht] at h
    exact h
  · exact h

/-- **An attribute ends**, and the reader stands in the tag again. -/
theorem coherent_addAttr {b : Assembly} {t : Text} (attr : AttrDraft) (value : Option Node)
    (stop offset : Nat) (ht : b.entry.HoldsTag b.tag) (ha : b.attr = none) (hv : b.value = none)
    (hm : b.comment = none) :
    ((b.addAttr attr value stop).enter .beforeAttrName offset).Coherent t := by
  have inTag {b' : Assembly} (ht : b'.entry.HoldsTag b'.tag) (ha : b'.attr = none)
      (hv : b'.value = none) (hm : b'.comment = none) :
      (b'.enter .beforeAttrName offset).Coherent t := by
    simp only [Coherent, enter_entry, enter_context, enter_tag, enter_attr, enter_value,
      enter_comment, ha, hv, hm]
    exact .inTag ht
  unfold addAttr
  split
  · exact inTag ht ha hv hm
  · split
    · exact inTag ht ha hv hm
    · refine inTag ?_ ?_ ?_ ?_
      · rw [addAmongAttrs_entry]
        exact holdsTag_addAmongAttrs { b with ledger := b.ledger.drawnForHtml } _ ht
      · rw [addAmongAttrs_attr]; exact ha
      · rw [addAmongAttrs_value]; exact hv
      · rw [addAmongAttrs_comment]; exact hm

/-- An attribute without a value ends. -/
theorem coherent_closeAttr {b : Assembly} {t : Text} {attr : AttrDraft} {part : NamePart}
    (stop offset : Nat) (ht : b.entry.HoldsTag b.tag) (ha : b.attr = some attr)
    (hs : attr.Spells part) (hp : part ≠ .empty) (hv : b.value = none) (hm : b.comment = none) :
    ((b.endAttr stop).enter .beforeAttrName offset).Coherent t := by
  obtain ⟨attr', l, hfin, _, _⟩ := finishAttrName_of_spells ha hs hp
  unfold endAttr
  dsimp only
  rw [hfin]
  exact coherent_addAttr attr' none stop offset ht rfl hv hm

/-- A value, or control flow that gives one, goes to the attribute that waits for it. -/
theorem coherent_giveValue {b : Assembly} {t : Text} (value : Node) (stop offset : Nat)
    (ht : b.entry.HoldsTag b.tag) (hv : b.value = none) (hm : b.comment = none) :
    ((b.giveValue value stop).enter .beforeAttrName offset).Coherent t := by
  unfold giveValue
  split
  · exact coherent_addAttr _ _ stop offset ht rfl hv hm
  · next ha =>
    simp only [Coherent, enter_entry, enter_context, enter_tag, enter_attr, enter_value,
      enter_comment, addOut, ha, hv, hm]
    exact .inTag ht

/-- Where no attribute of the tag is reported, none is refused. -/
theorem attrFault?_eq_none {b : Assembly} {location : Span} {entry : Context}
    (ht : entry.HoldsTag b.tag) (hc : (b.reportAttr location).Clean) : b.attrFault? = none := by
  unfold reportAttr at hc
  split at hc
  · next h => exact h
  · exact absurd hc (not_clean_report _ _ _)
  · next tag _ htag =>
    rw [htag] at ht
    rw [if_neg (by simp [ht.2.2])] at hc
    exact absurd hc (b.not_clean_report _ _)

/-- An attribute that may start opens, and nothing else changes. -/
theorem openAttr_of_attrFault?_eq_none {b : Assembly} (h : b.attrFault? = none) (location : Span)
    (name : Option Node) (discard : Bool) :
    b.openAttr location name discard
      = { b with attr := some ⟨location.start, [], location, name, discard⟩ } := by
  unfold openAttr reportAttr
  simp [h]

/-- The end of a value that the assembly opened itself. -/
theorem Coherent.apply_valueEnd {b : Assembly} {t t' text : Text} {quotes : Quotes}
    {location : Span} (h : b.Coherent t) (hq : b.context = .attrValue quotes)
    (hc : (b.apply .valueEnd .beforeAttrName text location).Clean) :
    (b.apply .valueEnd .beforeAttrName text location).Coherent t' := by
  obtain ⟨ledger, entry, here, inBranch, out, tag, attr, value, comment, filled, raw, off⟩ := b
  dsimp only at hq
  subst hq
  dsimp only [Coherent] at h
  cases h with
  | content _ hh => simp [Context.isContent] at hh
  | value draft ht ha => exact coherent_giveValue _ _ _ ht rfl rfl
  | inValue he =>
    simp only [Assembly.apply] at hc
    split at hc
    · exact absurd ((extends_enter ..).clean hc) (not_clean_report _ _ _)
    · exact absurd ((extends_addText ..).clean hc) (not_clean_report _ _ _)

/-- **A mark that reports nothing keeps the stage.** -/
theorem Coherent.apply {b : Assembly} {c : Char} {cs : Text} {l : Lexeme} {m : Mark}
    (location : Span) (h : b.Coherent (c :: cs)) (hl : Context.Move b.context c l)
    (hm : l.mark = some m) (hf : l.fault = none)
    (hc : (b.apply m l.next ((c :: cs).take l.width) location).Clean) :
    (b.apply m l.next ((c :: cs).take l.width) location).Coherent ((c :: cs).drop l.width) := by
  obtain ⟨ledger, entry, here, inBranch, out, tag, attr, value, comment, filled, raw, off⟩ := b
  dsimp only [Coherent] at h hl
  cases hl <;> cases hm <;> try (cases hf; done)
  case openComment =>
    cases h with
    | content he _ =>
      simp only [Assembly.apply, Coherent, enter_entry, enter_context, enter_tag, enter_attr,
        enter_value, enter_comment]
      exact .comment he
  case openTag close w =>
    cases h with
    | content he _ =>
      simp only [Assembly.apply, Coherent, openTag, enter_entry, enter_context, enter_tag,
        enter_attr, enter_value, enter_comment]
      exact .tagName he ⟨rfl, rfl⟩ ⟨rfl, rfl⟩
  case closeRcdata e =>
    cases h with
    | content he _ =>
      simp only [Assembly.apply, Coherent, openTag, enter_entry, enter_context, enter_tag,
        enter_attr, enter_value, enter_comment]
      exact .tagName he ⟨rfl, rfl⟩ ⟨rfl, rfl⟩
  case closeComment =>
    cases h with
    | content _ hh => simp [Context.isContent] at hh
    | comment he =>
      simp only [Assembly.apply, Coherent, endComment, addOut, enter_entry, enter_context, enter_tag,
        enter_attr, enter_value, enter_comment]
      exact .content he rfl
    | inComment he =>
      exact absurd ((extends_addText ..).clean hc) (not_clean_report _ _ _)
  case nameChars part w hp =>
    cases h with
    | content _ hh => simp [Context.isContent] at hh
    | @tagName _ tag _ he hs hf =>
      simp only [Assembly.apply, Coherent, addTagName, enter_entry, enter_context, enter_tag,
        enter_attr, enter_value, enter_comment]
      refine .tagName he ?_ hf
      cases part with
      | dynamic => exact absurd rfl hp
      | empty => exact ⟨hs.1, by simp⟩
      | static => exact ⟨hs.1, by simp⟩
  case nameEnd part hp =>
    cases h with
    | content _ hh => simp [Context.isContent] at hh
    | @tagName _ tag _ he hs hf =>
      obtain ⟨tag', l', hfin, hn, hw⟩ := finishTagName_of_spells
        (b := ⟨ledger, entry, .tagName part, inBranch, out, some tag, none, none, none, filled, raw,
          off⟩) rfl hs hp
      simp only [Assembly.apply, hfin, Coherent, enter_entry, enter_context, enter_tag, enter_attr,
        enter_value, enter_comment]
      exact .inTag ⟨he, hn, hw.trans hf.2⟩
  case skipInTag w =>
    cases h with
    | content _ hh => simp [Context.isContent] at hh
    | inTag ht =>
      simp only [Assembly.apply, Context.discards, Bool.false_and, Bool.false_eq_true, if_false,
        Coherent, enter_entry, enter_context, enter_tag, enter_attr, enter_value, enter_comment]
      exact .inTag ht
  case endTag selfClosing w =>
    cases h with
    | content _ hh => simp [Context.isContent] at hh
    | @inTag tag _ ht =>
      cases tag with
      | none => exact absurd hc (not_clean_report _ _ _)
      | some tag => exact coherent_closeTag _ _ _ ht.1 rfl ht.2.1 rfl rfl rfl
  case attrStart hs =>
    cases h with
    | content _ hh => simp [Context.isContent] at hh
    | inTag ht =>
      have hfault := attrFault?_eq_none
        (b := ⟨ledger, entry, .beforeAttrName, inBranch, out, tag, none, none, none, filled, raw,
          off⟩) ht ((extends_enter ..).clean hc : ((_ : Assembly).openAttr _ _ _).Clean)
      simp only [Assembly.apply, openAttr_of_attrFault?_eq_none hfault, hfault, Coherent, enter_entry,
        enter_context, enter_tag, enter_attr, enter_value, enter_comment]
      exact .attrName ht rfl ⟨rfl, rfl⟩ fun _ => ⟨c, cs, rfl, hs⟩
  case skipDropped part sep =>
    cases h with
    | content _ hh => simp [Context.isContent] at hh
  case attrChar part sep sep' hp =>
    cases h with
    | content _ hh => simp [Context.isContent] at hh
    | @attrName _ _ _ attr _ ht hd hs hn =>
      simp only [Assembly.apply, addAttrName, hd, Bool.false_eq_true, if_false, Coherent,
        enter_entry, enter_context, enter_tag, enter_attr, enter_value, enter_comment]
      refine .attrName ht rfl ?_ (by simp)
      cases part with
      | dynamic => exact absurd rfl hp
      | empty => exact ⟨hs.1, by simp⟩
      | static => exact ⟨hs.1, by simp⟩
  case equals part sep drop hn =>
    cases h with
    | content _ hh => simp [Context.isContent] at hh
    | @attrName _ _ _ attr _ ht hd hs hn' =>
      have hp : part ≠ .empty := by
        rintro rfl
        obtain ⟨_, _, hcs, hstart⟩ := hn' rfl
        cases hcs
        simp [hn rfl rfl] at hstart
      obtain ⟨attr', l', hfin, hd', hn'⟩ := finishAttrName_of_spells
        (b := ⟨ledger, entry, .attrName part sep false, inBranch, out, tag, some attr, none, none,
          filled, raw, off⟩) rfl hs hp
      simp only [Assembly.apply, hfin, Coherent, enter_entry, enter_context, enter_tag, enter_attr,
        enter_value, enter_comment]
      exact .beforeValue ht ⟨hd'.trans hd, hn'⟩
  case attrEnd part sep drop hn =>
    cases h with
    | content _ hh => simp [Context.isContent] at hh
    | @attrName _ _ _ attr _ ht hd hs hn' =>
      have hp : part ≠ .empty := by
        rintro rfl
        obtain ⟨_, _, hcs, hstart⟩ := hn' rfl
        cases hcs
        simp [hn rfl rfl] at hstart
      exact coherent_closeAttr _ _ ht rfl hs hp rfl rfl
  case skipBeforeValue w =>
    cases h with
    | content _ hh => simp [Context.isContent] at hh
    | beforeValue ht ha =>
      simp only [Assembly.apply, Context.discards, Bool.false_and, Bool.false_eq_true, if_false,
        Coherent, enter_entry, enter_context, enter_tag, enter_attr, enter_value, enter_comment]
      exact .beforeValue ht ha
  case openQuoted quotes hq =>
    cases h with
    | content _ hh => simp [Context.isContent] at hh
    | beforeValue ht ha =>
      simp only [Assembly.apply, Coherent, enter_entry, enter_context, enter_tag, enter_attr,
        enter_value, enter_comment]
      exact .value ⟨quotes, _, []⟩ ht ha
  case openBare =>
    cases h with
    | content _ hh => simp [Context.isContent] at hh
    | beforeValue ht ha =>
      simp only [Assembly.apply, Coherent, enter_entry, enter_context, enter_tag, enter_attr,
        enter_value, enter_comment]
      exact .value ⟨.bare, _, []⟩ ht ha
  case closeBare => exact Coherent.apply_valueEnd h rfl hc
  case closeQuoted quotes hq => exact Coherent.apply_valueEnd h rfl hc

/-! ## 4. Runs -/

/-- One lexeme of content in a run that reports nothing. -/
theorem Coherent.content_of_clean {b : Assembly} {c : Char} {cs : Text} (location : Span)
    (offset : Nat) (h : b.Clean → b.Coherent (c :: cs)) (hm : (b.context.lexeme c cs).mark = none)
    (hc : ((b.reportLexeme location (b.context.lexeme c cs)).enter (b.context.lexeme c cs).next
      offset).Clean) :
    ((b.reportLexeme location (b.context.lexeme c cs)).enter (b.context.lexeme c cs).next
      offset).Coherent ((c :: cs).drop (b.context.lexeme c cs).width) := by
  have hc' := (extends_enter ..).clean hc
  have hf := fault_eq_none_of_clean (.refl _) hc'
  rw [reportLexeme_of_fault_eq_none hf] at hc' ⊢
  exact (h hc').content offset (Context.lexeme_move b.context c cs) hm

/-- One mark in a run that reports nothing. -/
theorem Coherent.mark_of_clean {b : Assembly} {c : Char} {cs : Text} {m : Mark}
    (location place : Span) (h : b.Clean → b.Coherent (c :: cs))
    (hm : (b.context.lexeme c cs).mark = some m)
    (hc : ((b.reportLexeme location (b.context.lexeme c cs)).apply m (b.context.lexeme c cs).next
      ((c :: cs).take (b.context.lexeme c cs).width) place).Clean) :
    ((b.reportLexeme location (b.context.lexeme c cs)).apply m (b.context.lexeme c cs).next
      ((c :: cs).take (b.context.lexeme c cs).width) place).Coherent
        ((c :: cs).drop (b.context.lexeme c cs).width) := by
  have hc' := (extends_apply ..).clean hc
  have hf := fault_eq_none_of_clean (.refl _) hc'
  rw [reportLexeme_of_fault_eq_none hf] at hc hc' ⊢
  exact (h hc').apply place (Context.lexeme_move b.context c cs) hm hf hc

/-- **A run that reports nothing keeps the stage.** -/
theorem Coherent.read {b : Assembly} {run : RawRun} {t : Text} (h : b.Coherent t)
    (hc : (b.read run 0 none t).Clean) : (b.read run 0 none t).Coherent [] := by
  refine read_rule (P := fun b _ t => b.Clean → b.Coherent t) ?_ ?_ ?_ (fun _ => h) nofun hc
  · exact fun location offset hP hm => Coherent.content_of_clean location offset hP hm
  · exact fun location hP _ _ hc => (hP ((extends_addText ..).clean hc)).addText _ location
  · exact fun location place hP hm => Coherent.mark_of_clean location place hP hm

theorem Coherent.readRun {b : Assembly} {run : RawRun} (h : b.Coherent [])
    (hc : (b.readRun run).Clean) : (b.readRun run).Coherent [] :=
  Coherent.read (b := { b with ledger := b.ledger.countRun }) h.restrict_nil hc

theorem Coherent.readCollected {b : Assembly} {run : Option RawRun} (h : b.Coherent [])
    (hc : (b.readCollected run).Clean) : (b.readCollected run).Coherent [] := by
  cases run with
  | none => exact h
  | some run => exact h.readRun hc

theorem Coherent.collect {b : Assembly} {run : Option RawRun} {text : Text} {location : Span}
    (h : b.Coherent []) (hc : (b.collect run text location).1.Clean) :
    (b.collect run text location).1.Coherent [] := by
  unfold Assembly.collect at hc ⊢
  split at hc
  · exact h
  · split at hc <;> rename_i hj
    · rw [if_pos hj]
      exact h
    · rw [if_neg hj]
      exact h.readRun hc

/-! ## 5. Placing -/

theorem Coherent.enter_content {b : Assembly} {t : Text} {next : Context} (offset : Nat)
    (h : b.Coherent t) (hb : b.context.isContent = true) (hn : next.isContent = true) :
    (b.enter next offset).Coherent t := by
  obtain ⟨ledger, entry, here, inBranch, out, tag, attr, value, comment, filled, raw, off⟩ := b
  dsimp only [Coherent] at h hb
  simp only [Coherent, enter_entry, enter_context, enter_tag, enter_attr, enter_value,
    enter_comment]
  cases h with
  | content he _ => exact .content he hn
  | _ => simp [Context.isContent] at hb

theorem Coherent.placeContent {b : Assembly} {t : Text} (h : b.Coherent t) (node : Node) :
    (b.placeContent node).Coherent t := by
  unfold Assembly.placeContent
  split
  · exact h.setContent _
  · next next hn =>
    obtain ⟨hb, hn⟩ := isContent_of_contextAfter? hn
    exact Coherent.enter_content _ (h.setContent _) (by rw [← hb]; exact congrArg _ (addContent_context ..)) hn

/-- One more node among the attributes leaves the stage. -/
theorem Coherent.addAmongAttrs {b : Assembly} {t : Text} (h : b.Coherent t)
    (hb : b.context.isInTag = true) (node : Node) : (b.addAmongAttrs node).Coherent t := by
  have hTag {entry : Context} (ht : entry.HoldsTag b.tag) := holdsTag_addAmongAttrs b node ht
  obtain ⟨ledger, entry, here, inBranch, out, tag, attr, value, comment, filled, raw, off⟩ := b
  simp only [Coherent, addAmongAttrs_entry, addAmongAttrs_context, addAmongAttrs_attr,
    addAmongAttrs_value, addAmongAttrs_comment] at h hb hTag ⊢
  cases h with
  | inTag ht => exact .inTag (hTag ht)
  | beforeValue ht ha => exact .beforeValue (hTag ht) ha
  | content _ hh => cases here <;> simp [Context.isContent, Context.isInTag] at hh hb
  | _ => simp [Context.isInTag] at hb

/-- **A node is placed between attributes**: a computed name begins an attribute. -/
theorem Coherent.placeInTag {b : Assembly} {t : Text} (h : b.Coherent t)
    (hb : b.context = .beforeAttrName) (node : Node) (hc : (b.placeInTag node).Clean) :
    (b.placeInTag node).Coherent t := by
  unfold Assembly.placeInTag at hc ⊢
  split
  · next hp =>
    rw [if_pos hp] at hc
    obtain ⟨ledger, entry, here, inBranch, out, tag, attr, value, comment, filled, raw, off⟩ := b
    dsimp only at hb
    subst hb
    cases h with
    | content _ hh => simp [Context.isContent] at hh
    | inTag ht =>
      have hfault := attrFault?_eq_none
        (b := ⟨ledger, entry, .beforeAttrName, inBranch, out, tag, none, none, none, filled, raw,
          off⟩) ht ((extends_enter ..).clean hc : ((_ : Assembly).openAttr _ _ _).Clean)
      simp only [openAttr_of_attrFault?_eq_none hfault, hfault, Coherent, enter_entry,
        enter_context, enter_tag, enter_attr, enter_value, enter_comment]
      exact .attrName ht rfl rfl (by simp)
  · exact h.addAmongAttrs (by rw [hb]; rfl) node

/-- A name that is being read ends before a node that cannot join it. -/
theorem Coherent.finishTagName {b : Assembly} {t : Text} {part : NamePart} (h : b.Coherent t)
    (hb : b.context = .tagName part) (hp : part ≠ .empty) (offset : Nat) :
    (b.finishTagName.enter .beforeAttrName offset).Coherent t := by
  obtain ⟨ledger, entry, here, inBranch, out, tag, attr, value, comment, filled, raw, off⟩ := b
  dsimp only at hb
  subst hb
  dsimp only [Coherent] at h
  cases h with
  | content _ hh => simp [Context.isContent] at hh
  | @tagName _ tag _ he hs hf =>
    obtain ⟨tag', l', hfin, hn, hw⟩ := finishTagName_of_spells
      (b := ⟨ledger, entry, .tagName part, inBranch, out, some tag, none, none, none, filled, raw,
        off⟩) rfl hs hp
    simp only [hfin, Coherent, enter_entry, enter_context, enter_tag, enter_attr, enter_value,
      enter_comment]
    exact .inTag ⟨he, hn, hw.trans hf.2⟩

/-- At the end of a run an attribute whose name is being read has a name. -/
theorem Coherent.closeAttr {b : Assembly} {part : NamePart} {sep drop : Bool} (h : b.Coherent [])
    (hb : b.context = .attrName part sep drop) (offset : Nat) :
    (b.closeAttr offset).Coherent [] := by
  obtain ⟨ledger, entry, here, inBranch, out, tag, attr, value, comment, filled, raw, off⟩ := b
  dsimp only at hb
  subst hb
  dsimp only [Coherent] at h
  cases h with
  | content _ hh => simp [Context.isContent] at hh
  | @attrName _ _ _ attr _ ht hd hs hn =>
    refine coherent_closeAttr _ _ ht rfl hs ?_ rfl rfl
    rintro rfl
    obtain ⟨_, _, hcs, _⟩ := hn rfl
    cases hcs

theorem Coherent.fillSlot {b : Assembly} {t : Text} (h : b.Coherent t)
    (hb : b.context = .beforeAttrValue) (node : Node) (stop : Nat) :
    (b.fillSlot node stop).Coherent t := by
  obtain ⟨ledger, entry, here, inBranch, out, tag, attr, value, comment, filled, raw, off⟩ := b
  dsimp only at hb
  subst hb
  dsimp only [Coherent] at h
  cases h with
  | content _ hh => simp [Context.isContent] at hh
  | beforeValue ht ha => exact coherent_giveValue _ _ _ ht rfl rfl

theorem Coherent.placeBeforeValue {b : Assembly} {t : Text} (h : b.Coherent t)
    (hb : b.context = .beforeAttrValue) (node : Node) : (b.placeBeforeValue node).Coherent t := by
  have bare (location : Span) : ({ b with value := some ⟨.bare, location.start, [node]⟩ }.enter
      (.attrValue .bare) location.start).Coherent t := by
    obtain ⟨ledger, entry, here, inBranch, out, tag, attr, value, comment, filled, raw, off⟩ := b
    dsimp only at hb
    subst hb
    dsimp only [Coherent] at h
    simp only [Coherent, enter_entry, enter_context, enter_tag, enter_attr, enter_value,
      enter_comment]
    cases h with
    | content _ hh => simp [Context.isContent] at hh
    | beforeValue ht ha => exact .value ⟨.bare, _, _⟩ ht ha
  unfold Assembly.placeBeforeValue
  split
  · exact bare _
  · exact bare _
  · exact h.fillSlot hb _ _
  · exact h.addAmongAttrs (by rw [hb]; rfl) node

/-- A node that follows a part of a name is no part of it, or it is reported. -/
theorem reportJoined_of_clean {b : Assembly} {node : Node} (h : (b.reportJoined node).Clean) :
    node.isPrinting = false ∧ b.reportJoined node = b := by
  unfold reportJoined at h ⊢
  split at h
  · exact absurd h (b.not_clean_report _ _)
  · next hp => exact ⟨by simpa using hp, if_neg hp⟩

/-- **A node that reports nothing keeps the stage.** -/
theorem Coherent.place {b : Assembly} (h : b.Coherent []) (node : Node)
    (hc : (b.place node).Clean) : (b.place node).Coherent [] := by
  unfold Assembly.place at hc ⊢
  split at hc <;> rename_i hb
  case h_7 =>
    unfold Assembly.placeTagName at hc ⊢
    split at hc
    · next hp =>
      rw [if_pos hp]
      obtain ⟨ledger, entry, here, inBranch, out, tag, attr, value, comment, filled, raw, off⟩ := b
      dsimp only at hb
      subst hb
      dsimp only [Coherent] at h
      cases h with
      | content _ hh => simp [Context.isContent] at hh
      | tagName he hs hf =>
        simp only [Coherent, enter_entry, enter_context, enter_tag, enter_attr, enter_value,
          enter_comment]
        exact .tagName he rfl hf
    · exact absurd ((extends_abortTag _).clean ((extends_placeContent ..).clean hc))
        (not_clean_report _ _ _)
  case h_8 part hp =>
    have hc' := (extends_finishTagName _).clean
      ((extends_enter ..).clean ((extends_placeInTag ..).clean hc))
    obtain ⟨_, hj⟩ := reportJoined_of_clean hc'
    rw [hj] at hc ⊢
    exact (h.finishTagName hb (fun he => hp (by rw [he])) _).placeInTag (enter_context ..) node hc
  case h_9 => exact h.placeInTag hb node hc
  case h_10 part sep drop =>
    split at hc
    · next hd =>
      rw [if_pos hd]
      exact h
    · next hd =>
      rw [if_neg hd]
      obtain ⟨_, hj⟩ := reportJoined_of_clean ((extends_closeAttr ..).clean
        ((extends_placeInTag ..).clean hc))
      rw [hj] at hc ⊢
      exact (h.closeAttr hb _).placeInTag (enter_context ..) node hc
  case h_11 => exact h.placeBeforeValue hb node
  all_goals exact h.placeContent node

/-! ## 6. Control flow and ends -/

/-- Giving up a tag goes back to content. -/
theorem coherent_abortTag {b : Assembly} {t : Text} {tag : TagDraft} (he : b.entry.isContent = true)
    (ht : b.tag = some tag) (hn : tag.name = none) (ha : b.attr = none) (hv : b.value = none)
    (hm : b.comment = none) : b.abortTag.Coherent t := by
  unfold abortTag
  simp only [ht, hn]
  refine Coherent.addText ?_ _ _
  refine coherent_of_content ?_ ?_ ?_ ?_ ?_ ?_
  · rw [enter_entry]
    exact he
  · rw [enter_context]
    unfold TagDraft.outside
    split <;> rfl
  · exact enter_tag ..
  · exact (enter_attr ..).trans ha
  · exact (enter_value ..).trans hv
  · exact (enter_comment ..).trans hm

/-- **Before control flow the name that is being read ends**, so branches begin in a settled
context. -/
theorem Coherent.settle {b : Assembly} (h : b.Coherent []) (location : Span)
    (hc : (b.settle location).Clean) :
    (b.settle location).Coherent [] ∧ (b.settle location).context.isSettled = true := by
  unfold Assembly.settle at hc ⊢
  split at hc <;> rename_i hb
  · exact absurd ((extends_abortTag _).clean hc) (not_clean_report _ _ _)
  · next part hp =>
    exact ⟨h.finishTagName hb (fun he => hp (by rw [he])) _, by rw [enter_context]; rfl⟩
  · exact ⟨h.closeAttr hb _, by rw [Assembly.closeAttr, enter_context]; rfl⟩
  · next h1 h2 =>
    refine ⟨h, ?_⟩
    cases hx : b.context with
    | tagName part => exact absurd hx (h2 part)
    | attrName part sep drop => exact absurd hx (hb part sep drop)
    | _ => rfl

/-- **Control flow is placed**, and the reader goes on where its branches have led. -/
theorem Coherent.placeFlow {b : Assembly} {t : Text} (h : b.Coherent t) (flow : Flow)
    {exit : Context} (hl : Context.Leads b.context exit) : (b.placeFlow flow exit).Coherent t := by
  have same {b' : Assembly} (hb' : b'.Coherent t) (offset : Nat) :
      (b'.enter b'.context offset).Coherent t := by
    unfold enter
    rw [if_pos rfl]
    exact hb'
  unfold Assembly.placeFlow
  split
  · next hb =>
    split
    · exact h.fillSlot hb _ _
    · next hx =>
      rw [hb] at hl
      obtain rfl | hx' := hl
      · have := same (h.addAmongAttrs (by rw [hb]; rfl) (.flow flow)) flow.location.start
        rwa [addAmongAttrs_context, hb] at this
      · exact absurd hx' hx
  · next hb =>
    rw [hb] at hl
    obtain rfl : exit = .beforeAttrName := hl
    have := same (h.addAmongAttrs (by rw [hb]; rfl) (.flow flow)) flow.location.start
    rwa [addAmongAttrs_context, hb] at this
  · have h' : (b.addContent (.flow flow)).Coherent t := h.setContent _
    by_cases hb : b.context.isContent = true
    · have hx : exit.isContent = true := (Context.leads_of_isContent hb).mp hl
      exact h'.enter_content _ (by rw [addContent_context]; exact hb) hx
    · have hx : exit = (b.addContent (.flow flow)).context := by
        rw [addContent_context]
        generalize b.context = here at *
        cases here <;> first | exact hl | exact hl.elim | contradiction
      rw [hx]
      exact same h' _

/-- **At the end the name that is being read ends too.** -/
theorem Coherent.settleAtEnd {b : Assembly} (h : b.Coherent []) :
    b.settleAtEnd.Coherent [] ∧ b.settleAtEnd.context.isSettled = true := by
  unfold Assembly.settleAtEnd
  split <;> rename_i hb
  · obtain ⟨ledger, entry, here, inBranch, out, tag, attr, value, comment, filled, raw, off⟩ := b
    dsimp only at hb
    subst hb
    dsimp only [Coherent] at h
    cases h with
    | content _ hh => simp [Context.isContent] at hh
    | @tagName _ tag _ he hs hf =>
      refine ⟨coherent_abortTag he rfl hs.1 rfl rfl rfl, ?_⟩
      rw [abortTag_context rfl]
      unfold TagDraft.outside
      split <;> rfl
  · next part hp =>
    exact ⟨h.finishTagName hb (fun he => hp (by rw [he])) _, by rw [enter_context]; rfl⟩
  · exact ⟨h.closeAttr hb _, by rw [Assembly.closeAttr, enter_context]; rfl⟩
  · next h1 h2 =>
    refine ⟨h, ?_⟩
    cases hx : b.context with
    | tagName part => exact absurd hx (h2 part)
    | attrName part sep drop => exact absurd hx (hb part sep drop)
    | _ => rfl

theorem Coherent.closeValue {b : Assembly} {t : Text} (h : b.Coherent t) (stop : Nat) :
    (b.closeValue stop).Coherent t := by
  obtain ⟨ledger, entry, here, inBranch, out, tag, attr, value, comment, filled, raw, offset⟩ := b
  cases value with
  | none => exact h
  | some value =>
    dsimp only [Coherent] at h
    cases h with
    | value draft ht => exact coherent_giveValue _ _ _ ht rfl rfl

/-- The attribute that is still open at the end has a name, and waits for its value. -/
theorem Coherent.closeAnyAttr {b : Assembly} {t : Text} (h : b.Coherent t)
    (hs : b.context.isSettled = true) (hv : b.value = none) (stop : Nat) :
    (b.closeAnyAttr stop).Coherent t := by
  obtain ⟨ledger, entry, here, inBranch, out, tag, attr, value, comment, filled, raw, offset⟩ := b
  cases attr with
  | none => exact h
  | some attr =>
    dsimp only [Coherent] at h hs hv
    cases h with
    | attrName => simp [Context.isSettled] at hs
    | beforeValue ht ha =>
      have hname : attr.Spells .dynamic := ha.2
      exact coherent_closeAttr _ _ ht rfl hname (by rintro ⟨⟩) rfl rfl
    | value => cases hv

end Assembly

/-! ## 7. The pass -/

mutual

/-- **A clean run that starts coherent ends coherent.** -/
theorem feedNodes_coherent : ∀ (nodes : List Node) (b : Assembly) (run : Option RawRun),
    b.Coherent [] → (feedNodes b run nodes).Clean → (feedNodes b run nodes).Coherent []
  | [], b, run, h, hc => by
    rw [feedNodes] at hc ⊢
    exact h.readCollected hc
  | n :: nodes, b, run, h, hc => by
    rw [feedNodes] at hc ⊢
    cases ht : n.rawText? with
    | some text =>
      simp only [ht] at hc ⊢
      exact feedNodes_coherent nodes _ _ (h.collect ((feedNodes_extends nodes _ _).clean hc)) hc
    | none =>
      simp only [ht] at hc ⊢
      have hc' := (feedNodes_extends nodes _ _).clean hc
      have hread := h.readCollected ((feedNode_extends n _).clean hc')
      exact feedNodes_coherent nodes _ _ (feedNode_coherent n _ hread hc') hc

theorem feedNode_coherent : ∀ (n : Node) (b : Assembly), b.Coherent [] → (feedNode b n).Clean →
    (feedNode b n).Coherent []
  | .call id location callee params, b, h, hc => by
    rw [feedNode] at hc ⊢
    exact (h.ledger _).place _ hc
  | .binding id location var value, b, h, hc => by
    rw [feedNode] at hc ⊢
    exact (h.ledger _).place _ hc
  | .flow flow, b, h, hc => by
    rw [feedNode] at hc ⊢
    have hc' := (Assembly.extends_placeFlow ..).clean ((Assembly.extends_reach ..).clean hc)
    have hsettle := (rewriteFlow_extends flow _ _).clean hc'
    obtain ⟨hcoh, hset⟩ := h.settle flow.location hsettle
    exact (hcoh.ledger _).placeFlow _ (rewriteFlow_leads flow _ _ hset (Ledger.Clean.quiet hc'))
  | .raw .., b, h, hc | .print .., b, h, hc | .openTag .., b, h, hc | .closeTag .., b, h, hc
  | .attr .., b, h, hc | .attrValue .., b, h, hc | .comment .., b, h, hc => by
    rw [feedNode] at hc ⊢
    exact h.place _ hc
    all_goals simp

end

end TemplateMarkup
