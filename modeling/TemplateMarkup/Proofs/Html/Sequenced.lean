/-
# Authored nodes keep their order in an assembly

What an assembly holds is read from the outside in: the finished nodes, the open tag, the open
attribute, the open value or comment.  `Assembly.sequence` lists the authored nodes in that order.
Text changes nothing about it (`sequence_read`), and a node that is placed comes last
(`sequence_place`), unless it is put among the attributes while an attribute with a computed name
waits for its value (`Assembly.Waits`).
-/
import TemplateMarkup.Proofs.Html.Conservation
import TemplateMarkup.Proofs.Tree.Sequence

namespace TemplateMarkup

/-! ## 1. What an assembly holds -/

/-- The authored nodes in a tag. -/
def TagDraft.sequence (t : TagDraft) : List Node :=
  TemplateMarkup.sequence t.name.toList ++ TemplateMarkup.sequence t.children.reverse

/-- The authored nodes in an attribute. -/
def AttrDraft.sequence (a : AttrDraft) : List Node := TemplateMarkup.sequence a.name.toList

/-- The authored nodes in a value. -/
def ValueDraft.sequence (v : ValueDraft) : List Node := TemplateMarkup.sequence v.children.reverse

/-- The authored nodes in a comment. -/
def CommentDraft.sequence (c : CommentDraft) : List Node :=
  TemplateMarkup.sequence c.children.reverse

/-- The contexts in which a mark may close a draft. -/
theorem Context.Move.of_end {here : Context} {c : Char} {l : Lexeme} {m : Mark}
    (h : Context.Move here c l) (hm : l.mark = some m) :
    ((∃ selfClosing, m = .tagEnd selfClosing) → here = .beforeAttrName)
      ∧ (m = .attrNameEnd → ∃ part sep drop, here = .attrName part sep drop) := by
  cases h <;> cases hm <;> simp

namespace Assembly

/-- The authored nodes that an assembly holds, in order. -/
def sequence (b : Assembly) : List Node :=
  TemplateMarkup.sequence b.out.reverse ++ (b.tag.elim [] TagDraft.sequence
    ++ (b.attr.elim [] AttrDraft.sequence ++ (b.value.elim [] ValueDraft.sequence
      ++ b.comment.elim [] CommentDraft.sequence)))

/-- An attribute with a computed name waits for its value. -/
def Waits (b : Assembly) : Prop :=
  b.context = .beforeAttrValue ∧ b.attr.elim [] AttrDraft.sequence ≠ []

section Operations

variable {b : Assembly} {t : Text}

@[simp] theorem sequence_ledger (b : Assembly) (l : Ledger) :
    { b with ledger := l }.sequence = b.sequence := rfl

@[simp] theorem sequence_report (b : Assembly) (location : Span) (fault : Fault) :
    (b.report location fault).sequence = b.sequence := rfl

@[simp] theorem sequence_enter (b : Assembly) (next : Context) (offset : Nat) :
    (b.enter next offset).sequence = b.sequence := by
  unfold enter
  split <;> rfl

/-! ## 2. Content -/

/-- Without drafts there are only finished nodes. -/
theorem Closed.sequence (h : b.Closed) : b.sequence = TemplateMarkup.sequence b.out.reverse := by
  obtain ⟨ht, ha, hv, hm⟩ := h
  simp [Assembly.sequence, ht, ha, hv, hm]

/-- Where text is content, content comes last. -/
theorem Coherent.sequence_setContent (h : b.Coherent t) (hb : b.context.holdsText = true) :
    ∃ before, b.sequence = before ++ TemplateMarkup.sequence b.content.reverse
      ∧ ∀ nodes, (b.setContent nodes).sequence
        = before ++ TemplateMarkup.sequence nodes.reverse := by
  -- without drafts content is what is finished
  have closed (hc : b.Closed) (hout : b.content = b.out)
      (hset : ∀ nodes, b.setContent nodes = { b with out := nodes }) :
      ∃ before, b.sequence = before ++ TemplateMarkup.sequence b.content.reverse
        ∧ ∀ nodes, (b.setContent nodes).sequence
          = before ++ TemplateMarkup.sequence nodes.reverse := by
    refine ⟨[], by rw [hout, hc.sequence, List.nil_append], fun nodes => ?_⟩
    rw [hset, Closed.sequence (b := { b with out := nodes }) hc, List.nil_append]
  obtain ⟨ledger, entry, here, inBranch, out, tag, attr, value, comment, filled, raw, off⟩ := b
  dsimp only [Coherent] at h hb
  cases h with
  | content _ hh =>
    exact closed ⟨rfl, rfl, rfl, rfl⟩ (content_of_isContent hh) (setContent_of_isContent hh)
  | inComment => exact closed ⟨rfl, rfl, rfl, rfl⟩ rfl fun _ => rfl
  | inValue => exact closed ⟨rfl, rfl, rfl, rfl⟩ rfl fun _ => rfl
  | comment => exact ⟨TemplateMarkup.sequence out.reverse, rfl, fun _ => rfl⟩
  | value draft =>
    refine ⟨TemplateMarkup.sequence out.reverse ++ (tag.elim [] TagDraft.sequence
      ++ attr.elim [] AttrDraft.sequence), ?_, fun nodes => ?_⟩ <;>
      simp [Assembly.sequence, Assembly.content, Assembly.setContent, ValueDraft.sequence]
  | _ => cases hb

theorem Coherent.sequence_addContent (h : b.Coherent t) (hb : b.context.holdsText = true)
    (node : Node) : (b.addContent node).sequence = b.sequence ++ node.sequence := by
  obtain ⟨before, hsame, hset⟩ := h.sequence_setContent hb
  rw [addContent, hset, hsame, List.reverse_cons, sequence_append, sequence_cons, sequence_nil,
    List.append_nil, List.append_assoc]

theorem Coherent.sequence_addText (h : b.Coherent t) (hb : b.context.holdsText = true)
    (text : Text) (location : Span) : (b.addText text location).sequence = b.sequence := by
  obtain ⟨before, hsame, hset⟩ := h.sequence_setContent hb
  obtain ⟨before', hsame', hset'⟩ := (h.ledger b.ledger.drawn).sequence_setContent hb
  unfold Assembly.addText
  split
  · next id s t nodes hc =>
    rw [hset, hsame, hc]
    simp
  · rw [hset', List.reverse_cons, sequence_append, sequence_cons, Node.sequence_raw, sequence_nil,
      List.append_nil, List.append_nil]
    exact hsame'.symm

theorem Closed.sequence_addOut (h : b.Closed) (node : Node) :
    (b.addOut node).sequence = b.sequence ++ node.sequence := by
  obtain ⟨ht, ha, hv, hm⟩ := h
  simp [Assembly.sequence, addOut, ht, ha, hv, hm]

/-- A node among the attributes comes last, unless an attribute is open that holds one. -/
theorem sequence_addAmongAttrs (ha : b.attr.elim [] AttrDraft.sequence = []) (hv : b.value = none)
    (hm : b.comment = none) (node : Node) :
    (b.addAmongAttrs node).sequence = b.sequence ++ node.sequence := by
  unfold addAmongAttrs
  split
  · next tag ht =>
    simp [Assembly.sequence, TagDraft.sequence, ht, ha, hv, hm]
  · next ht =>
    simp [Assembly.sequence, addOut, ht, ha, hv, hm]

/-! ## 3. Tags -/

theorem Coherent.sequence_openTag (h : b.Coherent t) (hb : b.context.isContent = true)
    (close : Bool) (location : Span) : (b.openTag close location).sequence = b.sequence := by
  obtain ⟨ht, -, -, -⟩ := h.closed hb
  simp [Assembly.sequence, openTag, TagDraft.sequence, ht]

@[simp] theorem sequence_addTagName (b : Assembly) (text : Text) (location : Span) :
    (b.addTagName text location).sequence = b.sequence := by
  unfold addTagName
  split
  · rfl
  · next ht => simp [Assembly.sequence, TagDraft.sequence, ht]

@[simp] theorem sequence_finishTagName (b : Assembly) : b.finishTagName.sequence = b.sequence := by
  unfold finishTagName
  split
  · rfl
  · next tag ht =>
    split
    · next hn =>
      have hn : tag.name = none := by simp_all
      simp [Assembly.sequence, TagDraft.sequence, ht, hn]
    · rfl

/-- Where a tag is given up nothing stands among its attributes. -/
theorem Coherent.sequence_abortTag {part : NamePart} (h : b.Coherent t)
    (hb : b.context = .tagName part) : b.abortTag.sequence = b.sequence := by
  obtain ⟨ledger, entry, here, inBranch, out, tag, attr, value, comment, filled, raw, off⟩ := b
  dsimp only at hb
  subst hb
  dsimp only [Coherent] at h
  cases h with
  | content _ hh => cases hh
  | @tagName _ tag _ he hs hf =>
    obtain ⟨hch, -⟩ := hf
    simp only [abortTag]
    have houtside : tag.outside.isContent = true := by
      unfold TagDraft.outside
      split <;> rfl
    have hcoh : ((Assembly.mk ledger entry (.tagName part) inBranch out none none none none filled
        raw off).enter tag.outside tag.start).Coherent t := by
      refine coherent_of_content ?_ ?_ ?_ ?_ ?_ ?_ <;> simp [he, houtside]
    have htext := hcoh.sequence_addText (by
      rw [enter_context]
      cases hx : tag.outside <;> rw [hx] at houtside <;> first | rfl | cases houtside)
      ((if tag.close then ['<', '/'] else ['<']) ++ tag.nameText)
      (Span.upTo tag.start tag.nameLocation.stop)
    have hclosed := (hcoh.addText ((if tag.close then ['<', '/'] else ['<']) ++ tag.nameText)
      (Span.upTo tag.start tag.nameLocation.stop)).closed
      (by rw [addText_context, enter_context]; exact houtside)
    split
    · next name hname =>
      rw [hclosed.sequence_addOut, htext]
      simp [Assembly.sequence, TagDraft.sequence, hname, hch]
    · next hname =>
      rw [htext]
      simp [Assembly.sequence, TagDraft.sequence, hname, hch]

/-- What stands among the attributes of a close tag comes after it, and after its name. -/
theorem Closed.sequence_addCloseTag (h : b.Closed) (tag : TagDraft) {name : Node}
    (hn : tag.name = some name) (location : Span) :
    (b.addCloseTag tag name location).sequence = b.sequence ++ tag.sequence := by
  obtain ⟨ht, ha, hv, hm⟩ := h
  unfold addCloseTag
  dsimp only
  rw [sequence_enter]
  split <;> split <;>
    simp [Assembly.sequence, TagDraft.sequence, report, hn, ht, ha, hv, hm]

theorem Closed.sequence_addOpenTag (h : b.Closed) (tag : TagDraft) {name : Node}
    (hn : tag.name = some name) (location : Span) (selfClosing bodyFollows : Bool) :
    (b.addOpenTag tag name location selfClosing bodyFollows).sequence
      = b.sequence ++ tag.sequence := by
  obtain ⟨ht, ha, hv, hm⟩ := h
  unfold addOpenTag
  rw [sequence_enter]
  simp [Assembly.sequence, TagDraft.sequence, hn, ht, ha, hv, hm]

/-- A tag with a name ends. -/
theorem sequence_closeTag {tag : TagDraft} {name : Node} (ht : b.tag = some tag)
    (hn : tag.name = some name) (ha : b.attr = none) (hv : b.value = none) (hm : b.comment = none)
    (selfClosing : Bool) (stop : Nat) (bodyFollows : Bool) :
    (b.closeTag selfClosing stop bodyFollows).sequence = b.sequence := by
  have hclosed : ({ b with tag := none } : Assembly).Closed := ⟨rfl, ha, hv, hm⟩
  have hb : b.sequence = { b with tag := none }.sequence ++ tag.sequence := by
    simp [Assembly.sequence, ht, ha, hv, hm]
  unfold closeTag
  rw [ht, hb]
  dsimp only
  rw [hn]
  dsimp only
  split
  · exact hclosed.sequence_addCloseTag tag hn _
  · exact hclosed.sequence_addOpenTag tag hn _ _ _

/-! ## 4. Attributes, values and comments -/

@[simp] theorem sequence_reportAttr (b : Assembly) (location : Span) :
    (b.reportAttr location).sequence = b.sequence := by
  unfold reportAttr
  split
  · rfl
  · rfl
  · next ht =>
    split
    · rfl
    · simp [Assembly.sequence, TagDraft.sequence, report, ht]

theorem sequence_openAttr (ha : b.attr = none) (hv : b.value = none) (hm : b.comment = none)
    (location : Span) (name : Option Node) (discard : Bool) :
    (b.openAttr location name discard).sequence
      = b.sequence ++ TemplateMarkup.sequence name.toList := by
  rw [← sequence_reportAttr b location]
  have ha' := (b.reportAttr_attr location).trans ha
  have hv' := (b.reportAttr_value location).trans hv
  have hm' : (b.reportAttr location).comment = none := by
    rw [← hm]
    unfold reportAttr
    split
    · rfl
    · rfl
    · split <;> rfl
  simp [Assembly.sequence, openAttr, AttrDraft.sequence, ha', hv', hm']

@[simp] theorem sequence_addAttrName (b : Assembly) (text : Text) (location : Span) :
    (b.addAttrName text location).sequence = b.sequence := by
  unfold addAttrName
  split
  · rfl
  · next ha =>
    split
    · rfl
    · simp [Assembly.sequence, AttrDraft.sequence, ha]

@[simp] theorem sequence_discardAttr (b : Assembly) : b.discardAttr.sequence = b.sequence := by
  unfold discardAttr
  cases h : b.attr <;> simp [Assembly.sequence, AttrDraft.sequence, h]

@[simp] theorem sequence_finishAttrName (b : Assembly) :
    b.finishAttrName.sequence = b.sequence := by
  unfold finishAttrName
  split
  · rfl
  · next attr ha =>
    split
    · next hn =>
      have hn : attr.name = none := by simp_all
      simp [Assembly.sequence, AttrDraft.sequence, ha, hn]
    · rfl

/-- The characters of a name are not a node that was there before. -/
theorem finishAttrName_attr (b : Assembly) :
    b.finishAttrName.attr.elim [] AttrDraft.sequence = b.attr.elim [] AttrDraft.sequence := by
  unfold finishAttrName
  split
  · rfl
  · next attr ha =>
    split
    · next hn =>
      have hn : attr.name = none := by simp_all
      simp [AttrDraft.sequence, ha, hn]
    · rfl

/-- An attribute that is added comes last, with its name and its value. -/
theorem sequence_addAttr {attr : AttrDraft} {value : Option Node} (ha : b.attr = none)
    (hv : b.value = none) (hm : b.comment = none) (hd : attr.discard = false)
    (hn : attr.name.isSome = true ∨ value = none) (stop : Nat) :
    (b.addAttr attr value stop).sequence
      = b.sequence ++ (attr.sequence ++ TemplateMarkup.sequence value.toList) := by
  unfold addAttr
  rw [if_neg (by rw [hd]; exact Bool.false_ne_true)]
  split
  · next hnone =>
    obtain rfl := hn.resolve_left (by rw [hnone]; exact Bool.false_ne_true)
    simp [AttrDraft.sequence, hnone]
  · next name hname =>
    dsimp only
    rw [sequence_addAmongAttrs (b := { b with ledger := b.ledger.drawnForHtml }) (by simp [ha]) hv
      hm]
    cases value <;> simp [AttrDraft.sequence, hname]

/-- An attribute ends without a value. -/
theorem sequence_endAttr (hv : b.value = none) (hm : b.comment = none)
    (hd : ∀ a, b.attr = some a → a.discard = false) (stop : Nat) :
    (b.endAttr stop).sequence = b.sequence := by
  obtain ⟨l, attr, hfin, hkeep⟩ : ∃ l attr, b.finishAttrName = { b with ledger := l, attr := attr }
      ∧ ∀ a, attr = some a → a.discard = false := by
    unfold finishAttrName
    split
    · exact ⟨b.ledger, b.attr, rfl, hd⟩
    · next a ha =>
      split
      · refine ⟨_, _, rfl, ?_⟩
        rintro _ ⟨⟩
        exact hd a ha
      · exact ⟨b.ledger, b.attr, rfl, hd⟩
  have hsame := b.sequence_finishAttrName
  unfold endAttr
  rw [hfin] at hsame ⊢
  dsimp only
  split
  · exact hsame
  · next a =>
    rw [sequence_addAttr (b := { b with ledger := l, attr := none }) rfl hv hm (hkeep a rfl)
      (.inr rfl), ← hsame]
    simp [Assembly.sequence, hv, hm]

/-- A value, or what gives one, comes last. -/
theorem sequence_giveValue (hv : b.value = none) (hm : b.comment = none)
    (ht : b.attr = none → b.tag = none)
    (ha : ∀ a, b.attr = some a → a.discard = false ∧ a.name.isSome = true) (value : Node)
    (stop : Nat) : (b.giveValue value stop).sequence = b.sequence ++ value.sequence := by
  unfold giveValue
  split
  · next attr hattr =>
    obtain ⟨hd, hn⟩ := ha attr hattr
    rw [sequence_addAttr (b := { b with attr := none }) rfl hv hm hd (.inl hn)]
    simp [Assembly.sequence, hattr, hv, hm]
  · next hattr =>
    have ht := ht hattr
    simp [Assembly.sequence, addOut, ht, hattr, hv, hm]

/-- A value ends. -/
theorem sequence_endValue (hm : b.comment = none) (ht : b.attr = none → b.tag = none)
    (ha : ∀ a, b.attr = some a → a.discard = false ∧ a.name.isSome = true) (stop : Nat) :
    (b.endValue stop).sequence = b.sequence := by
  unfold endValue
  split
  · rfl
  · next value hvalue =>
    rw [sequence_giveValue (b := { b with ledger := b.ledger.drawnForHtml, value := none }) rfl hm
      ht ha]
    simp [Assembly.sequence, ValueDraft.sequence, hvalue, hm]

/-- A comment ends. -/
theorem sequence_endComment (ht : b.tag = none) (ha : b.attr = none) (hv : b.value = none)
    (stop : Nat) : (b.endComment stop).sequence = b.sequence := by
  unfold endComment
  split
  · rfl
  · next comment hm =>
    simp [Assembly.sequence, CommentDraft.sequence, addOut, ht, ha, hv, hm]

/-! ## 5. Reading -/

/-- A value that is open is being read. -/
theorem Coherent.of_value_eq_some {value : ValueDraft} (h : b.Coherent t)
    (hv : b.value = some value) : b.context = .attrValue value.quotes := by
  obtain ⟨ledger, entry, here, inBranch, out, tag, attr, value', comment, filled, raw, off⟩ := b
  dsimp only at hv
  subst hv
  dsimp only [Coherent] at h
  cases h with
  | value => rfl

/-- A comment that is open is all that is open. -/
theorem Coherent.of_comment_eq_some {comment : CommentDraft} (h : b.Coherent t)
    (hm : b.comment = some comment) : b.tag = none ∧ b.attr = none ∧ b.value = none := by
  obtain ⟨ledger, entry, here, inBranch, out, tag, attr, value, comment', filled, raw, off⟩ := b
  dsimp only at hm
  subst hm
  dsimp only [Coherent] at h
  cases h with
  | comment => exact ⟨rfl, rfl, rfl⟩

/-- Where no name is being read the tag has one. -/
theorem Coherent.named_of_isSettled {tag : TagDraft} (h : b.Coherent t)
    (hs : b.context.isSettled = true) (ht : b.tag = some tag) : ∃ name, tag.name = some name := by
  obtain ⟨ledger, entry, here, inBranch, out, tag', attr, value, comment, filled, raw, off⟩ := b
  dsimp only at hs ht
  subst ht
  dsimp only [Coherent] at h
  cases h with
  | tagName | attrName => cases hs
  | inTag ht | beforeValue ht | value _ ht => exact Option.isSome_iff_exists.mp ht.2.1

/-- **A mark moves no node.** -/
theorem Coherent.sequence_apply {c : Char} {cs text : Text} {l : Lexeme} {m : Mark}
    (location : Span) (h : b.Coherent (c :: cs)) (hl : Context.Move b.context c l)
    (hm : l.mark = some m) (hc : (b.apply m l.next text location).Clean) :
    (b.apply m l.next text location).sequence = b.sequence := by
  obtain ⟨hContent, hInName, hInTag, hBefore, hInValue⟩ := hl.of_mark hm
  obtain ⟨hAtTag, hAtName⟩ := hl.of_end hm
  cases m <;> simp only [Assembly.apply] at hc ⊢
  case skip =>
    rw [sequence_enter]
    split
    · exact b.sequence_discardAttr
    · rfl
  case tagStart close =>
    rw [sequence_enter, h.sequence_openTag (hContent (.inl ⟨close, rfl⟩))]
  case tagNameChars => rw [sequence_enter, sequence_addTagName]
  case tagNameEnd => rw [sequence_enter, sequence_finishTagName]
  case tagAbort =>
    obtain ⟨part, hb⟩ := hInName rfl
    split
    · exact h.sequence_abortTag hb
    · exact sequence_enter ..
  case tagEnd selfClosing =>
    split
    · next tag ht =>
      have hb := hAtTag ⟨selfClosing, rfl⟩
      obtain ⟨hv, hm⟩ := h.amongAttrs (.inl hb)
      obtain ⟨name, hn⟩ := h.named_of_isSettled (by rw [hb]; rfl) ht
      exact sequence_closeTag ht hn (h.attr_eq_none hb) hv hm _ _ _
    · rfl
  case attrNameStart =>
    have hb := hInTag rfl
    obtain ⟨hv, hm⟩ := h.amongAttrs (.inl hb)
    rw [sequence_enter, sequence_openAttr (h.attr_eq_none hb) hv hm]
    exact List.append_nil _
  case attrNameChar => rw [sequence_enter, sequence_addAttrName]
  case attrNameEnd =>
    obtain ⟨hv, hm⟩ := h.amongAttrs (.inr (.inr (hAtName rfl)))
    rw [sequence_enter, sequence_endAttr hv hm h.keeps.2]
  case attrEquals => rw [sequence_enter, sequence_finishAttrName]
  case valueStart quotes =>
    have hb := hBefore ⟨quotes, rfl⟩
    obtain ⟨hv, hm⟩ := h.amongAttrs (.inr (.inl hb))
    rw [sequence_enter]
    simp [Assembly.sequence, ValueDraft.sequence, hv, hm]
  case valueEnd =>
    have hb := hInValue rfl
    obtain ⟨hm, ht⟩ := h.slotted (.inr hb)
    split
    · rw [sequence_enter, sequence_endValue hm ht (h.slot (.inr hb)).1]
    · next hv =>
      rw [hv] at hc
      dsimp only at hc
      split at hc
      · exact absurd ((extends_enter ..).clean hc) (not_clean_report _ _ _)
      · exact absurd ((extends_addText ..).clean hc) (not_clean_report _ _ _)
  case commentStart =>
    obtain ⟨ht, ha, hv, hm⟩ := h.closed (hContent (.inr rfl))
    rw [sequence_enter]
    simp [Assembly.sequence, CommentDraft.sequence, ht, ha, hv, hm]
  case commentEnd =>
    split
    · next hm =>
      obtain ⟨ht, ha, hv⟩ := h.of_comment_eq_some hm
      rw [sequence_enter, sequence_endComment ht ha hv]
    · next hm =>
      rw [hm] at hc
      exact absurd ((extends_addText ..).clean hc) (not_clean_report _ _ _)

/-- **A run of text moves no node.** -/
theorem Coherent.sequence_read {run : RawRun} (h : b.Coherent t)
    (hc : (b.read run 0 none t).Clean) : (b.read run 0 none t).sequence = b.sequence := by
  refine (read_rule (P := fun b' _ t' => b'.Clean → b'.Coherent t' ∧ b'.sequence = b.sequence)
    ?_ ?_ ?_ (fun _ => ⟨h, rfl⟩) (fun _ hk => by cases hk) hc).2
  · intro b' held c cs location offset hP hm hc
    have hc' := (extends_reportLexeme ..).clean ((extends_enter ..).clean hc)
    refine ⟨Coherent.content_of_clean location offset (fun hc => (hP hc).1) hm hc, ?_⟩
    rw [sequence_enter, reportLexeme_eq, sequence_ledger, (hP hc').2]
  · intro b' held t' location hP _ hb hc
    obtain ⟨hcoh, hsame⟩ := hP ((extends_addText ..).clean hc)
    exact ⟨hcoh.addText .., (hcoh.sequence_addText hb ..).trans hsame⟩
  · intro b' c cs m location place hP hm hc
    refine ⟨Coherent.mark_of_clean location place (fun hc => (hP hc).1) hm hc, ?_⟩
    have hfault := fault_eq_none_of_clean (extends_apply ..) hc
    rw [reportLexeme_of_fault_eq_none hfault] at hc ⊢
    obtain ⟨hcoh, hsame⟩ := hP ((extends_apply ..).clean hc)
    exact (hcoh.sequence_apply place (Context.lexeme_move ..) hm hc).trans hsame

theorem Coherent.sequence_readRun {run : RawRun} (h : b.Coherent []) (hc : (b.readRun run).Clean) :
    (b.readRun run).sequence = b.sequence :=
  Coherent.sequence_read (b := { b with ledger := b.ledger.countRun }) h.restrict_nil hc

theorem Coherent.sequence_readCollected {run : Option RawRun} (h : b.Coherent [])
    (hc : (b.readCollected run).Clean) : (b.readCollected run).sequence = b.sequence := by
  cases run with
  | none => rfl
  | some run => exact h.sequence_readRun hc

theorem Coherent.sequence_collect {run : Option RawRun} {text : Text} {location : Span}
    (h : b.Coherent []) (hc : (b.collect run text location).1.Clean) :
    (b.collect run text location).1.sequence = b.sequence := by
  unfold Assembly.collect at hc ⊢
  cases run with
  | none => rfl
  | some run =>
    dsimp only at hc ⊢
    split at hc
    · next hj => rw [if_pos hj]
    · next hj =>
      rw [if_neg hj]
      exact h.sequence_readRun hc

/-! ## 6. Placing -/

theorem Coherent.sequence_placeContent (h : b.Coherent t) (hb : b.context.holdsText = true)
    (node : Node) : (b.placeContent node).sequence = b.sequence ++ node.sequence := by
  unfold Assembly.placeContent
  split
  · exact h.sequence_addContent hb node
  · rw [sequence_enter, h.sequence_addContent hb node]

theorem Coherent.sequence_placeInTag (h : b.Coherent t) (hb : b.context = .beforeAttrName)
    (node : Node) : (b.placeInTag node).sequence = b.sequence ++ node.sequence := by
  obtain ⟨hv, hm⟩ := h.amongAttrs (.inl hb)
  have ha := h.attr_eq_none hb
  unfold Assembly.placeInTag
  split
  · rw [sequence_enter, sequence_openAttr ha hv hm]
    simp
  · exact sequence_addAmongAttrs (by rw [ha]; rfl) hv hm node

/-- A name that is being read ends. -/
theorem Coherent.sequence_closeAttr (h : b.Coherent t)
    (hb : ∃ part sep drop, b.context = .attrName part sep drop) (stop : Nat) :
    (b.closeAttr stop).sequence = b.sequence := by
  obtain ⟨hv, hm⟩ := h.amongAttrs (.inr (.inr hb))
  rw [Assembly.closeAttr, sequence_enter, sequence_endAttr hv hm h.keeps.2]

/-- What waits for a value gets it. -/
theorem Coherent.sequence_fillSlot (h : b.Coherent t) (hb : b.context = .beforeAttrValue)
    (value : Node) (stop : Nat) :
    (b.fillSlot value stop).sequence = b.sequence ++ value.sequence := by
  obtain ⟨hm, ht⟩ := h.slotted (.inl hb)
  obtain ⟨ha, hv⟩ := h.slot (.inl hb)
  rw [Assembly.fillSlot, sequence_enter, sequence_giveValue (hv hb) hm ht ha]

theorem Coherent.sequence_placeTagName (h : b.Coherent t) (hb : b.context = .tagName .empty)
    {node : Node} (hc : (b.placeTagName node).Clean) :
    (b.placeTagName node).sequence = b.sequence ++ node.sequence := by
  obtain ⟨ledger, entry, here, inBranch, out, tag, attr, value, comment, filled, raw, off⟩ := b
  dsimp only at hb
  subst hb
  unfold Assembly.placeTagName at hc ⊢
  split at hc
  · next hp =>
    rw [if_pos hp, sequence_enter]
    dsimp only [Coherent] at h
    cases h with
    | content _ hh => cases hh
    | tagName _ hs hf => simp [Assembly.sequence, TagDraft.sequence, hs.1, hf.1]
  · exact absurd ((extends_abortTag _).clean ((extends_placeContent ..).clean hc))
      (not_clean_report _ _ _)

/-- A node that gives no value stands among the attributes. -/
theorem Coherent.sequence_placeBeforeValue (h : b.Coherent t) (hb : b.context = .beforeAttrValue)
    {node : Node} (hw : b.Waits → node.isValue = true) :
    (b.placeBeforeValue node).sequence = b.sequence ++ node.sequence := by
  obtain ⟨hv, hm⟩ := h.amongAttrs (.inr (.inl hb))
  have hbare (start : Nat) : { b with value := some ⟨.bare, start, [node]⟩ }.sequence
      = b.sequence ++ node.sequence := by
    simp [Assembly.sequence, ValueDraft.sequence, hv, hm]
  have hamong (ho : node.isValue = false) :
      (b.addAmongAttrs node).sequence = b.sequence ++ node.sequence := by
    refine sequence_addAmongAttrs (Classical.byContradiction fun hne => ?_) hv hm node
    exact absurd (ho.symm.trans (hw ⟨hb, hne⟩)) Bool.false_ne_true
  unfold Assembly.placeBeforeValue
  cases node with
  | print | call => rw [sequence_enter, hbare]
  | attrValue => exact h.sequence_fillSlot hb _ _
  | _ => exact hamong rfl

/-- **A node is placed after all others**, unless it gives no value where one is due. -/
theorem Coherent.sequence_place (h : b.Coherent []) {node : Node}
    (hw : b.Waits → node.isValue = true) (hc : (b.place node).Clean) :
    (b.place node).sequence = b.sequence ++ node.sequence := by
  unfold Assembly.place at hc ⊢
  split at hc <;> rename_i hb
  case h_7 => exact h.sequence_placeTagName hb hc
  case h_8 part hp =>
    obtain ⟨_, hj⟩ := reportJoined_of_clean ((extends_finishTagName _).clean
      ((extends_enter ..).clean ((extends_placeInTag ..).clean hc)))
    rw [hj]
    have hcoh := h.finishTagName hb (fun he => hp (by rw [he])) node.location.start
    rw [hcoh.sequence_placeInTag (enter_context ..), sequence_enter, sequence_finishTagName]
  case h_9 => exact h.sequence_placeInTag hb node
  case h_10 part sep drop =>
    split at hc
    · next hd =>
      have hdrop := h.keeps_names
      rw [hb, Context.discards] at hdrop
      rw [hdrop, Bool.false_and] at hd
      exact absurd hd Bool.false_ne_true
    · next hd =>
      rw [if_neg hd]
      obtain ⟨_, hj⟩ := reportJoined_of_clean ((extends_closeAttr ..).clean
        ((extends_placeInTag ..).clean hc))
      rw [hj]
      have hcoh := h.closeAttr hb node.location.start
      rw [hcoh.sequence_placeInTag (enter_context ..), h.sequence_closeAttr ⟨_, _, _, hb⟩]
  case h_11 => exact h.sequence_placeBeforeValue hb hw
  all_goals exact h.sequence_placeContent (by rw [hb]; rfl) node

theorem Coherent.sequence_settle (h : b.Coherent []) (location : Span)
    (hc : (b.settle location).Clean) : (b.settle location).sequence = b.sequence := by
  unfold Assembly.settle at hc ⊢
  split <;> rename_i hb
  · rw [hb] at hc
    exact absurd ((extends_abortTag _).clean hc) (not_clean_report _ _ _)
  · rw [sequence_enter, sequence_finishTagName]
  · exact h.sequence_closeAttr ⟨_, _, _, hb⟩ _
  · rfl

/-- **So is control flow.** -/
theorem Coherent.sequence_placeFlow (h : b.Coherent t) (hs : b.context.isSettled = true)
    (flow : Flow) {exit : Context} (hw : b.Waits → exit = .beforeAttrName) :
    (b.placeFlow flow exit).sequence = b.sequence ++ (Node.flow flow).sequence := by
  unfold Assembly.placeFlow
  split <;> rename_i hb
  · split
    · exact h.sequence_fillSlot hb _ _
    · next hexit =>
      obtain ⟨hv, hm⟩ := h.amongAttrs (.inr (.inl hb))
      rw [sequence_enter, sequence_addAmongAttrs _ hv hm]
      exact Classical.byContradiction fun hne => hexit (hw ⟨hb, hne⟩)
  · obtain ⟨hv, hm⟩ := h.amongAttrs (.inl hb)
    rw [sequence_enter, sequence_addAmongAttrs _ hv hm]
    rw [h.attr_eq_none hb]
    rfl
  · next hb' =>
    rw [sequence_enter, h.sequence_addContent]
    cases hx : b.context with
    | beforeAttrValue => exact absurd hx hb'
    | beforeAttrName => exact absurd hx hb
    | tagName | attrName => rw [hx] at hs; cases hs
    | _ => rfl

/-! ## 7. Ends -/

theorem Coherent.sequence_settleAtEnd (h : b.Coherent []) :
    b.settleAtEnd.sequence = b.sequence := by
  unfold Assembly.settleAtEnd
  split <;> rename_i hb
  · exact h.sequence_abortTag hb
  · rw [sequence_enter, sequence_finishTagName]
  · exact h.sequence_closeAttr ⟨_, _, _, hb⟩ _
  · rfl

theorem Coherent.sequence_closeValue (h : b.Coherent t) (stop : Nat) :
    (b.closeValue stop).sequence = b.sequence := by
  unfold Assembly.closeValue
  split
  · rfl
  · next value hv =>
    have hb : ∃ quotes, b.context = .attrValue quotes := ⟨_, h.of_value_eq_some hv⟩
    obtain ⟨hm, ht⟩ := h.slotted (.inr hb)
    rw [sequence_enter, sequence_endValue hm ht (h.slot (.inr hb)).1]

theorem Coherent.sequence_closeAnyAttr (h : b.Coherent t) (hv : b.value = none) (stop : Nat) :
    (b.closeAnyAttr stop).sequence = b.sequence := by
  unfold Assembly.closeAnyAttr
  split
  · next ha =>
    have hm : b.comment = none := by
      cases hm : b.comment with
      | none => rfl
      | some comment =>
        rw [(h.of_comment_eq_some hm).2.1] at ha
        cases ha
    rw [Assembly.closeAttr, sequence_enter, sequence_endAttr hv hm h.keeps.2]
  · rfl

/-- The last drafts that are open are a tag or a comment. -/
theorem Coherent.sequence_closeTag (h : b.Coherent t) (hs : b.context.isSettled = true)
    (ha : b.attr = none) (hv : b.value = none) (stop : Nat) :
    ((b.closeTag false stop false).closeAnyComment stop).sequence = b.sequence := by
  obtain ⟨htag', hattr', hvalue', hcomment'⟩ := b.closeTag_drafts false stop false
  cases hm : b.comment with
  | none =>
    rw [closeAnyComment_of_eq_none (hcomment'.trans hm)]
    cases ht : b.tag with
    | none => rw [closeTag_of_eq_none ht]
    | some tag =>
      obtain ⟨name, hn⟩ := h.named_of_isSettled hs ht
      exact Assembly.sequence_closeTag ht hn ha hv hm _ _ _
  | some comment =>
    obtain ⟨ht, -, -⟩ := h.of_comment_eq_some hm
    rw [closeTag_of_eq_none ht]
    unfold Assembly.closeAnyComment
    split
    · rw [sequence_enter, sequence_endComment ht ha hv]
    · rfl

/-- **What is open at the end stays where it is.** -/
theorem Coherent.sequence_closeDrafts (h : b.Coherent []) : b.closeDrafts.sequence = b.sequence := by
  rw [closeDrafts_eq]
  obtain ⟨hcoh, hset⟩ := h.settleAtEnd
  have hcoh' := hcoh.closeValue b.offset
  have hset' := isSettled_closeValue hset b.offset
  obtain ⟨hvalue, -⟩ := closeValue_drafts b.settleAtEnd b.offset
  have hcoh'' := hcoh'.closeAnyAttr hset' hvalue b.offset
  obtain ⟨hattr, hvalue'⟩ := (b.settleAtEnd.closeValue b.offset).closeAnyAttr_drafts b.offset
  rw [hcoh''.sequence_closeTag (isSettled_closeAnyAttr hset' _) hattr (hvalue'.trans hvalue),
    hcoh'.sequence_closeAnyAttr hvalue, hcoh.sequence_closeValue, h.sequence_settleAtEnd]

theorem Coherent.sequence_endBranch (h : b.Coherent []) : b.endBranch.sequence = b.sequence := by
  unfold endBranch
  split
  · exact h.sequence_closeDrafts
  · exact h.sequence_closeDrafts

theorem Coherent.sequence_endBlock (h : b.Coherent []) (block : BlockKind) :
    (b.endBlock block).sequence = b.sequence := by
  unfold endBlock checkContext
  split
  · exact Coherent.sequence_closeDrafts (b := b.report _ _) h
  · exact h.sequence_closeDrafts

end Operations

end Assembly

end TemplateMarkup
