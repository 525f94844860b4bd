/-
# What a branch leaves open

A branch has to close what it opened: at its end the innermost construct that is still open is
reported.  `rewriteBranch_reportsUnclosed` says for every branch when that is, in terms of the
drafts that are open after its last node (`Assembly.leavesOpen`).

It is not enough to look at what is reported: the drafts of a branch do not go with its context once
something has been reported (`Assembly.DraftsInOrder` holds before the first report only).  A value
without quotes that a branch inside it ends stays open, though the context has gone on.  What holds
in any case is `Assembly.Loose`: an attribute that is open has a value as well unless its name or
its value is due, and a branch that was entered in a tag stays among its attributes.
-/
import TemplateMarkup.Proofs.Html.Footing
import TemplateMarkup.Template.Read

namespace TemplateMarkup

/-! ## 1. The same drafts -/

namespace Assembly

/-- The same drafts are open, in a branch that was entered in the same context. -/
structure SameDrafts (b b' : Assembly) : Prop where
  entry : b'.entry = b.entry
  tag : b'.tag.isSome = b.tag.isSome
  attr : b'.attr.isSome = b.attr.isSome
  value : b'.value.isSome = b.value.isSome
  comment : b'.comment.isSome = b.comment.isSome

theorem SameDrafts.refl (b : Assembly) : b.SameDrafts b := ⟨rfl, rfl, rfl, rfl, rfl⟩

theorem SameDrafts.trans {b b' b'' : Assembly} (h : b.SameDrafts b') (h' : b'.SameDrafts b'') :
    b.SameDrafts b'' where
  entry := h'.entry.trans h.entry
  tag := h'.tag.trans h.tag
  attr := h'.attr.trans h.attr
  value := h'.value.trans h.value
  comment := h'.comment.trans h.comment

/-- The ledger does not matter. -/
theorem SameDrafts.of_ledger {b b' : Assembly} {l : Ledger}
    (h : ({ b with ledger := l } : Assembly).SameDrafts b') : b.SameDrafts b' :=
  ⟨h.entry, h.tag, h.attr, h.value, h.comment⟩

section Operations

variable (b : Assembly)

theorem sameDrafts_enter (next : Context) (offset : Nat) : b.SameDrafts (b.enter next offset) := by
  constructor <;> simp

theorem sameDrafts_report (location : Span) (fault : Fault) :
    b.SameDrafts (b.report location fault) := ⟨rfl, rfl, rfl, rfl, rfl⟩

theorem sameDrafts_reportLexeme (location : Span) (l : Lexeme) :
    b.SameDrafts (b.reportLexeme location l) := by
  rw [reportLexeme_eq]
  exact ⟨rfl, rfl, rfl, rfl, rfl⟩

theorem sameDrafts_setContent (nodes : List Node) : b.SameDrafts (b.setContent nodes) := by
  obtain ⟨_, _, here, _, _, _, _, value, comment, _, _, _⟩ := b
  cases here <;> cases value <;> cases comment <;> exact ⟨rfl, rfl, rfl, rfl, rfl⟩

theorem sameDrafts_addContent (node : Node) : b.SameDrafts (b.addContent node) :=
  b.sameDrafts_setContent _

theorem sameDrafts_addText (text : Text) (location : Span) :
    b.SameDrafts (b.addText text location) := by
  obtain ⟨l, id, before, nodes, -, hadd⟩ := b.exists_addText
  obtain ⟨place, h⟩ := hadd text location
  rw [h]
  exact .of_ledger (sameDrafts_setContent { b with ledger := l } _)

theorem sameDrafts_addAmongAttrs (node : Node) : b.SameDrafts (b.addAmongAttrs node) := by
  unfold addAmongAttrs
  split
  · next ht => exact ⟨rfl, by rw [ht]; rfl, rfl, rfl, rfl⟩
  · exact ⟨rfl, rfl, rfl, rfl, rfl⟩

theorem sameDrafts_addTagName (text : Text) (location : Span) :
    b.SameDrafts (b.addTagName text location) := by
  unfold addTagName
  split
  · exact .refl b
  · next ht => exact ⟨rfl, by rw [ht]; rfl, rfl, rfl, rfl⟩

theorem sameDrafts_finishTagName : b.SameDrafts b.finishTagName := by
  unfold finishTagName
  split
  · exact .refl b
  · next ht =>
    split
    · exact ⟨rfl, by rw [ht]; rfl, rfl, rfl, rfl⟩
    · exact .refl b

theorem sameDrafts_reportAttr (location : Span) : b.SameDrafts (b.reportAttr location) := by
  unfold reportAttr
  split
  · exact .refl b
  · exact b.sameDrafts_report ..
  · next ht =>
    split
    · exact .refl b
    · exact ⟨rfl, by rw [ht]; rfl, rfl, rfl, rfl⟩

theorem sameDrafts_addAttrName (text : Text) (location : Span) :
    b.SameDrafts (b.addAttrName text location) := by
  unfold addAttrName
  split
  · exact .refl b
  · next ha =>
    split
    · exact .refl b
    · exact ⟨rfl, rfl, by rw [ha]; rfl, rfl, rfl⟩

theorem sameDrafts_discardAttr : b.SameDrafts b.discardAttr :=
  ⟨rfl, rfl, by rw [discardAttr, Option.isSome_map], rfl, rfl⟩

theorem sameDrafts_finishAttrName : b.SameDrafts b.finishAttrName := by
  unfold finishAttrName
  split
  · exact .refl b
  · next ha =>
    split
    · exact ⟨rfl, rfl, by rw [ha]; rfl, rfl, rfl⟩
    · exact .refl b

theorem sameDrafts_addAttr (attr : AttrDraft) (value : Option Node) (stop : Nat) :
    b.SameDrafts (b.addAttr attr value stop) := by
  unfold addAttr
  split
  · exact .refl b
  · split
    · exact .refl b
    · exact .of_ledger (sameDrafts_addAmongAttrs { b with ledger := b.ledger.drawnForHtml } _)

theorem sameDrafts_reportJoined (node : Node) : b.SameDrafts (b.reportJoined node) := by
  unfold reportJoined
  split
  · exact b.sameDrafts_report ..
  · exact .refl b

/-- What is given to an attribute closes it, and leaves the other drafts. -/
theorem sameDrafts_giveValue (value : Node) (stop : Nat) :
    ({ b with attr := none } : Assembly).SameDrafts (b.giveValue value stop) := by
  unfold giveValue
  split
  · exact sameDrafts_addAttr { b with attr := none } ..
  · next ha => exact ⟨rfl, rfl, by rw [addOut, ha], rfl, rfl⟩

theorem sameDrafts_endAttr (stop : Nat) :
    ({ b with attr := none } : Assembly).SameDrafts (b.endAttr stop) := by
  obtain ⟨he, ht, ha, hv, hm⟩ := b.sameDrafts_finishAttrName
  have hnone : ({ b with attr := none } : Assembly).SameDrafts
      { b.finishAttrName with attr := none } := ⟨he, ht, rfl, hv, hm⟩
  unfold endAttr
  dsimp only
  split
  · next hattr => exact ⟨he, ht, by rw [hattr], hv, hm⟩
  · exact hnone.trans (sameDrafts_addAttr ..)

theorem sameDrafts_closeAttr (stop : Nat) :
    ({ b with attr := none } : Assembly).SameDrafts (b.closeAttr stop) :=
  (b.sameDrafts_endAttr stop).trans (sameDrafts_enter ..)

/-- A value that ends closes the attribute it belongs to. -/
theorem sameDrafts_endValue {b : Assembly} {value : ValueDraft} (h : b.value = some value)
    (stop : Nat) :
    ({ b with attr := none, value := none } : Assembly).SameDrafts (b.endValue stop) := by
  unfold endValue
  rw [h]
  have hs := sameDrafts_giveValue { b with ledger := b.ledger.drawnForHtml, value := none }
    (.attrValue b.ledger.ids.next (Span.upTo value.start stop) value.quotes value.children.reverse)
    stop
  exact ⟨hs.entry, hs.tag, hs.attr, hs.value, hs.comment⟩

theorem sameDrafts_abortTag : ({ b with tag := none } : Assembly).SameDrafts b.abortTag := by
  obtain ⟨ht, ha, hv, hm⟩ := b.abortTag_drafts
  exact ⟨(extends_abortTag b).entry, by rw [ht], by rw [ha], by rw [hv], by rw [hm]⟩

theorem sameDrafts_closeTag (selfClosing : Bool) (stop : Nat) (bodyFollows : Bool) :
    ({ b with tag := none } : Assembly).SameDrafts (b.closeTag selfClosing stop bodyFollows) := by
  obtain ⟨ht, ha, hv, hm⟩ := b.closeTag_drafts selfClosing stop bodyFollows
  exact ⟨(extends_closeTag ..).entry, by rw [ht], by rw [ha], by rw [hv], by rw [hm]⟩

theorem sameDrafts_endComment (stop : Nat) :
    ({ b with comment := none } : Assembly).SameDrafts (b.endComment stop) := by
  unfold endComment
  split
  · next hm => exact ⟨rfl, rfl, rfl, rfl, by rw [hm]⟩
  · exact ⟨rfl, rfl, rfl, rfl, rfl⟩

end Operations

/-! ## 2. What holds whatever is reported -/

/-- **What the drafts of a block or branch keep to, whatever has been reported.** -/
structure Loose (b : Assembly) : Prop where
  /-- An attribute that is open has a value, unless its name or its value is due. -/
  served : b.context.isNaming = false → b.attr.isSome = true → b.value.isSome = true
  /-- A branch that was entered in a tag stays there. -/
  among : b.entry.isAmongAttrs = true → b.context.isAmongAttrs = true
  tag : b.entry.isAmongAttrs = true → b.tag.isSome = false
  comment : b.entry.isAmongAttrs = true → b.comment.isSome = false
  /-- The value it reads is its own, or the one it was entered in. -/
  value : b.entry.isAmongAttrs = true → ∀ quotes, b.context = .attrValue quotes →
    b.value.isSome = true ∨ b.entry = .attrValue quotes

theorem loose_start (l : Ledger) (entry : Context) (inBranch : Bool) (offset : Nat) :
    (start l entry inBranch offset).Loose :=
  ⟨fun _ => nofun, id, fun _ => rfl, fun _ => rfl, fun _ _ => .inr⟩

end Assembly

/-- Where control flow among attributes goes on: among them, and in a value only if it stands in
it. -/
structure Context.Stays (here exit : Context) : Prop where
  among : here.isAmongAttrs = true → exit.isAmongAttrs = true
  value : here.isAmongAttrs = true → ∀ quotes, exit = .attrValue quotes → here = .attrValue quotes

theorem Context.stays_refl (here : Context) : here.Stays here := ⟨id, fun _ _ h => h⟩

theorem Context.Stays.trans {here there exit : Context} (h : here.Stays there)
    (h' : there.Stays exit) : here.Stays exit where
  among ha := h'.among (h.among ha)
  value ha quotes hx := h.value ha quotes (h'.value (h.among ha) quotes hx)

/-- A context among attributes that is not in a value. -/
theorem Context.stays_of_ne {here exit : Context} (h : exit.isAmongAttrs = true)
    (hv : ∀ quotes, exit ≠ .attrValue quotes) : here.Stays exit :=
  ⟨fun _ => h, fun _ quotes hx => absurd hx (hv quotes)⟩

theorem Context.stays_beforeAttrName (here : Context) : here.Stays .beforeAttrName :=
  stays_of_ne rfl nofun

theorem Context.stays_beforeAttrValue (here : Context) : here.Stays .beforeAttrValue :=
  stays_of_ne rfl nofun

theorem Context.stays_attrName (here : Context) (part : NamePart) (sep discard : Bool) :
    here.Stays (.attrName part sep discard) :=
  stays_of_ne rfl nofun

theorem Context.stays_of_isAmongAttrs {here exit : Context} (h : here.isAmongAttrs = false) :
    here.Stays exit :=
  ⟨fun ha => absurd ha (ne_true_of_eq_false h), fun ha => absurd ha (ne_true_of_eq_false h)⟩

/-- Content is not among attributes. -/
theorem Context.stays_of_isContent {here exit : Context} (h : here.isContent = true) :
    here.Stays exit :=
  stays_of_isAmongAttrs (by cases here <;> first | rfl | cases h)

theorem Context.isNaming_of_isAmongAttrs {here : Context} (h : here.isAmongAttrs = false) :
    here.isNaming = false := by
  cases here <;> first | rfl | cases h

namespace Assembly

section Loose

variable {b b' : Assembly}

/-- An operation that leaves the drafts open and goes on in a context where they may be. -/
theorem Loose.keep (h : b.Loose) (hs : b.SameDrafts b')
    (hn : b'.context.isNaming = false → b.context.isNaming = false)
    (hc : b.context.Stays b'.context) : b'.Loose := by
  obtain ⟨he, ht, ha, hv, hm⟩ := hs
  refine ⟨fun hn' ha' => ?_, fun he' => ?_, fun he' => ?_, fun he' => ?_, fun he' quotes hx => ?_⟩
  · rw [hv]
    exact h.served (hn hn') (ha ▸ ha')
  · exact hc.among (h.among (he ▸ he'))
  · rw [ht]
    exact h.tag (he ▸ he')
  · rw [hm]
    exact h.comment (he ▸ he')
  · rw [hv, he]
    exact h.value (he ▸ he') quotes (hc.value (h.among (he ▸ he')) quotes hx)

/-- The same in the context that had been reached. -/
theorem Loose.same (h : b.Loose) (hs : b.SameDrafts b') (hc : b'.context = b.context) :
    b'.Loose := by
  refine h.keep hs ?_ ?_ <;> rw [hc]
  · exact id
  · exact Context.stays_refl _

/-- Where no attribute is open the branch may stand in any context of its surroundings. -/
theorem loose_of_attr (ha : b.attr.isSome = false)
    (hin : b.entry.isAmongAttrs = true → b.tag.isSome = false ∧ b.comment.isSome = false
      ∧ b.context.isAmongAttrs = true ∧ ∀ quotes, b.context ≠ .attrValue quotes) : b.Loose where
  served _ ha' := by rw [ha] at ha'; cases ha'
  among he := (hin he).2.2.1
  tag he := (hin he).1
  comment he := (hin he).2.1
  value he quotes hx := absurd hx ((hin he).2.2.2 quotes)

/-- Outside of tags a draft may be opened or closed that is no attribute. -/
theorem Loose.outside (h : b.Loose) (hb : b.context.isNaming = false)
    (he : b.entry.isAmongAttrs = false) (he' : b'.entry = b.entry)
    (ha : b'.attr.isSome = b.attr.isSome) (hv : b'.value.isSome = b.value.isSome) : b'.Loose := by
  have hno : b'.entry.isAmongAttrs ≠ true := by rw [he', he]; decide
  refine ⟨fun _ ha' => ?_, fun hx => absurd hx hno, fun hx => absurd hx hno,
    fun hx => absurd hx hno, fun hx => absurd hx hno⟩
  rw [hv]
  exact h.served hb (ha ▸ ha')

/-- What stands outside of tags was entered outside of them. -/
theorem Loose.entry_of_context (h : b.Loose) (hb : b.context.isAmongAttrs = false) :
    b.entry.isAmongAttrs = false := by
  cases he : b.entry.isAmongAttrs with
  | false => rfl
  | true => rw [h.among he] at hb; cases hb

/-- Where no attribute is named or waits, an operation keeps to it that leaves attribute and value. -/
theorem Loose.besides {here : Context} (h : b.Loose) (hb : b.context = here)
    (ho : here.isAmongAttrs = false) (he : b'.entry = b.entry)
    (ha : b'.attr.isSome = b.attr.isSome) (hv : b'.value.isSome = b.value.isSome) : b'.Loose := by
  subst hb
  exact h.outside (Context.isNaming_of_isAmongAttrs ho) (h.entry_of_context ho) he ha hv

/-- What has a tag open was entered outside of attributes. -/
theorem Loose.entry_of_tag (h : b.Loose) (ht : b.tag.isSome = true) :
    b.entry.isAmongAttrs = false := by
  cases he : b.entry.isAmongAttrs with
  | false => rfl
  | true => rw [h.tag he] at ht; cases ht

/-- The tag that is open is closed, or given up. -/
theorem Loose.closesTag (h : b.Loose) (hb : b.context.isNaming = false)
    (ht : b.tag.isSome = true) (hs : ({ b with tag := none } : Assembly).SameDrafts b') :
    b'.Loose := h.outside hb (h.entry_of_tag ht) hs.entry hs.attr hs.value

/-- An attribute ends. -/
theorem Loose.closesAttr (h : b.Loose) (hs : ({ b with attr := none } : Assembly).SameDrafts b')
    (hb : b'.context = .beforeAttrName) : b'.Loose := by
  refine loose_of_attr hs.attr fun he => ?_
  rw [hs.entry] at he
  refine ⟨hs.tag.trans (h.tag he), hs.comment.trans (h.comment he), ?_⟩
  rw [hb]
  exact ⟨rfl, nofun⟩

/-- So does a value, with its attribute. -/
theorem Loose.closesValue (h : b.Loose)
    (hs : ({ b with attr := none, value := none } : Assembly).SameDrafts b')
    (hb : b'.context = .beforeAttrName) : b'.Loose := by
  refine loose_of_attr hs.attr fun he => ?_
  rw [hs.entry] at he
  refine ⟨hs.tag.trans (h.tag he), hs.comment.trans (h.comment he), ?_⟩
  rw [hb]
  exact ⟨rfl, nofun⟩

/-- A value begins. -/
theorem Loose.opensValue (h : b.Loose) (value : ValueDraft) (quotes : Quotes) (offset : Nat) :
    ({ b with value := some value }.enter (.attrValue quotes) offset).Loose := by
  obtain ⟨he, ht, -, hv, hm⟩ :=
    sameDrafts_enter { b with value := some value } (.attrValue quotes) offset
  refine ⟨fun _ _ => hv, fun _ => ?_, fun he' => ?_, fun he' => ?_, fun _ _ _ => .inl hv⟩
  · rw [enter_context]
    rfl
  · exact ht.trans (h.tag (he ▸ he'))
  · exact hm.trans (h.comment (he ▸ he'))

/-- An attribute begins. -/
theorem Loose.opensAttr (h : b.Loose) (location : Span) (name : Option Node)
    (discard : Bool) (part : NamePart) (sep drop : Bool) (offset : Nat) :
    ((b.openAttr location name discard).enter (.attrName part sep drop) offset).Loose := by
  obtain ⟨he, ht, -, -, hm⟩ := b.sameDrafts_reportAttr location
  obtain ⟨he', ht', -, -, hm'⟩ :=
    sameDrafts_enter (b.openAttr location name discard) (.attrName part sep drop) offset
  have hentry := he'.trans he
  refine ⟨fun hn => ?_, fun _ => ?_, fun hx => ?_, fun hx => ?_, fun _ _ hx => ?_⟩
  · rw [enter_context] at hn
    cases hn
  · rw [enter_context]
    rfl
  · exact ht'.trans (ht.trans (h.tag (hentry ▸ hx)))
  · exact hm'.trans (hm.trans (h.comment (hentry ▸ hx)))
  · cases (enter_context ..).symm.trans hx

end Loose

/-! ## 3. Reading -/

section Reading

variable {b : Assembly}

/-- The drafts stay as they are, and the context that follows allows for them. -/
theorem Loose.enter (h : b.Loose) {b' : Assembly} (hs : b.SameDrafts b') {next : Context}
    (offset : Nat) (hn : next.isNaming = false → b.context.isNaming = false)
    (hc : b.context.Stays next) : (b'.enter next offset).Loose := by
  refine h.keep (hs.trans (sameDrafts_enter ..)) ?_ ?_ <;> rw [enter_context]
  · exact hn
  · exact hc

/-- So it does where the context is known. -/
theorem Loose.goOn {here next : Context} (h : b.Loose) (hb : b.context = here) {b' : Assembly}
    (hs : b.SameDrafts b') (offset : Nat) (hn : next.isNaming = true ∨ here.isNaming = false)
    (hc : here.Stays next) : (b'.enter next offset).Loose := by
  subst hb
  exact h.enter hs offset (fun hnext => hn.resolve_left fun ht => ne_false_of_eq_true ht hnext) hc

/-- What is skipped leaves the drafts, or spoils the name of the attribute. -/
theorem Loose.skip {here next : Context} (h : b.Loose) (hb : b.context = here) (drop : Bool)
    (offset : Nat) (hn : next.isNaming = true ∨ here.isNaming = false) (hc : here.Stays next) :
    ((if drop = true then b.discardAttr else b).enter next offset).Loose := by
  refine h.goOn hb ?_ offset hn hc
  split
  · exact b.sameDrafts_discardAttr
  · exact .refl b

/-- **A mark keeps to it**, whatever it reports. -/
theorem Loose.apply {c : Char} {l : Lexeme} {m : Mark} (h : b.Loose) (text : Text)
    (location : Span) (hl : Context.Move b.context c l) (hm : l.mark = some m) :
    (b.apply m l.next text location).Loose := by
  generalize hb : b.context = here at hl
  cases hl <;> cases hm <;> simp only [Assembly.apply]
  case openComment | openTag | closeRcdata =>
    exact h.besides hb rfl (enter_entry ..) (by simp [openTag]) (by simp [openTag])
  case closeComment =>
    split
    · have hs := (b.sameDrafts_endComment location.stop).trans
        (sameDrafts_enter _ .pcdata location.start)
      exact h.besides hb rfl hs.entry hs.attr hs.value
    · have hs := (b.sameDrafts_report location (.closedInOtherBlock .comment)).trans
        (sameDrafts_addText _ text location)
      exact h.besides hb rfl hs.entry hs.attr hs.value
  case nameChars =>
    have hs := (b.sameDrafts_addTagName text location).trans
      (sameDrafts_enter _ (.tagName .static) location.start)
    exact h.besides hb rfl hs.entry hs.attr hs.value
  case abort =>
    split
    · have hs := b.sameDrafts_abortTag
      exact h.besides hb rfl hs.entry hs.attr hs.value
    · have hs := b.sameDrafts_enter .pcdata location.start
      exact h.besides hb rfl hs.entry hs.attr hs.value
  case nameEnd | nameGlued =>
    have hs := b.sameDrafts_finishTagName.trans (sameDrafts_enter _ .beforeAttrName location.start)
    exact h.besides hb rfl hs.entry hs.attr hs.value
  case endTag =>
    split
    · next ht =>
      exact h.closesTag (by rw [hb]; rfl) (by rw [ht]; rfl) (b.sameDrafts_closeTag ..)
    · exact h.same (b.sameDrafts_report ..) rfl
  case attrStart | badAttr => exact h.opensAttr ..
  case skipInTag => exact h.skip hb _ _ (.inr rfl) (Context.stays_beforeAttrName _)
  case skipDropped | spoiled => exact h.skip hb _ _ (.inl rfl) (Context.stays_attrName ..)
  case skipBeforeValue => exact h.skip hb _ _ (.inl rfl) (Context.stays_beforeAttrValue _)
  case attrChar =>
    exact h.goOn hb (b.sameDrafts_addAttrName ..) _ (.inl rfl) (Context.stays_attrName ..)
  case equals =>
    exact h.goOn hb b.sameDrafts_finishAttrName _ (.inl rfl) (Context.stays_beforeAttrValue _)
  case attrEnd | attrGlued =>
    exact h.closesAttr ((b.sameDrafts_endAttr _).trans (sameDrafts_enter ..)) (enter_context ..)
  case openQuoted | openBare => exact h.opensValue ..
  case closeBare | closeQuoted =>
    split
    · next hv =>
      exact h.closesValue ((sameDrafts_endValue hv _).trans (sameDrafts_enter ..))
        (enter_context ..)
    · split
      · exact h.goOn hb (b.sameDrafts_report ..) _ (.inr rfl) (Context.stays_beforeAttrName _)
      · exact h.same ((b.sameDrafts_report ..).trans (sameDrafts_addText ..)) (addText_context ..)

theorem Loose.read {run : RawRun} {t : Text} (h : b.Loose) : (b.read run 0 none t).Loose := by
  refine read_rule (P := fun b _ _ => b.Loose) ?_ ?_ ?_ h nofun
  · intro b held c cs location offset h hm
    have hl := Context.lexeme_move b.context c cs
    refine h.enter (b.sameDrafts_reportLexeme ..) offset ?_ ?_
    all_goals
      generalize b.context = here at hl hm ⊢
      generalize here.lexeme c cs = l at hl hm ⊢
    · intro _
      cases hl <;> first | rfl | cases hm
    · cases hl <;> first
        | (cases hm; done)
        | exact Context.stays_refl _
        | exact Context.stays_of_isContent rfl
  · exact fun location h _ _ => h.same (sameDrafts_addText ..) (addText_context ..)
  · intro b c cs m location place h hm
    have hreport := h.same (b.sameDrafts_reportLexeme location (b.context.lexeme c cs))
      (reportLexeme_context ..)
    refine hreport.apply (c := c) _ _ ?_ hm
    rw [reportLexeme_context]
    exact Context.lexeme_move ..

theorem Loose.ledger (h : b.Loose) (l : Ledger) : ({ b with ledger := l } : Assembly).Loose :=
  h.same ⟨rfl, rfl, rfl, rfl, rfl⟩ rfl

theorem Loose.setOffset (h : b.Loose) (offset : Nat) :
    ({ b with offset := offset } : Assembly).Loose :=
  h.same ⟨rfl, rfl, rfl, rfl, rfl⟩ rfl

theorem Loose.readRun (h : b.Loose) (run : RawRun) : (b.readRun run).Loose :=
  (h.ledger b.ledger.countRun).read.setOffset _

theorem Loose.readCollected (h : b.Loose) (run : Option RawRun) : (b.readCollected run).Loose := by
  cases run with
  | none => exact h
  | some run => exact h.readRun run

theorem Loose.collect (h : b.Loose) (run : Option RawRun) (text : Text) (location : Span) :
    (b.collect run text location).1.Loose := by
  unfold Assembly.collect
  split
  · exact h
  · split
    · exact h
    · exact h.readRun _

end Reading

/-! ## 4. Placing -/

section Placing

variable {b : Assembly}

theorem Loose.placeContent (h : b.Loose) (hb : b.context.isNaming = false) (node : Node) :
    (b.placeContent node).Loose := by
  unfold Assembly.placeContent
  have hsame := b.sameDrafts_addContent node
  split
  · exact h.same hsame (addContent_context ..)
  · next next hn =>
    have hhere := (isContent_of_contextAfter? hn).1
    exact h.enter hsame _ (fun _ => hb) (Context.stays_of_isContent hhere)

theorem Loose.placeInTag (h : b.Loose) (node : Node) : (b.placeInTag node).Loose := by
  unfold Assembly.placeInTag
  split
  · exact h.opensAttr ..
  · exact h.same (b.sameDrafts_addAmongAttrs node) (addAmongAttrs_context ..)

/-- A value, or what a value is made of, ends the wait for it. -/
theorem Loose.fillSlot (h : b.Loose) (value : Node) (stop : Nat) : (b.fillSlot value stop).Loose :=
  h.closesAttr ((b.sameDrafts_giveValue value stop).trans (sameDrafts_enter ..)) (enter_context ..)

theorem Loose.placeBeforeValue (h : b.Loose) (node : Node) :
    (b.placeBeforeValue node).Loose := by
  unfold Assembly.placeBeforeValue
  split
  · exact h.opensValue ..
  · exact h.opensValue ..
  · exact h.fillSlot ..
  · exact h.same (b.sameDrafts_addAmongAttrs node) (addAmongAttrs_context ..)

/-- Outside of attributes a name ends in the tag or in content. -/
theorem Loose.abortTag (h : b.Loose) (hb : b.context.isAmongAttrs = false) : b.abortTag.Loose := by
  have hs := b.sameDrafts_abortTag
  exact h.besides rfl hb hs.entry hs.attr hs.value

theorem Loose.finishTagName (h : b.Loose) (hb : b.context.isAmongAttrs = false) (offset : Nat) :
    (b.finishTagName.enter .beforeAttrName offset).Loose := by
  have hs := b.sameDrafts_finishTagName.trans (sameDrafts_enter _ .beforeAttrName offset)
  exact h.besides rfl hb hs.entry hs.attr hs.value

theorem isNaming_abortTag (hb : b.context.isNaming = false) :
    b.abortTag.context.isNaming = false := by
  cases ht : b.tag with
  | none =>
    unfold Assembly.abortTag
    rwa [ht]
  | some tag =>
    rw [abortTag_context ht]
    unfold TagDraft.outside
    split <;> rfl

theorem Loose.placeTagName (h : b.Loose) (hb : b.context = .tagName .empty) (node : Node) :
    (b.placeTagName node).Loose := by
  unfold Assembly.placeTagName
  split
  · refine h.enter ?_ _ (fun _ => by rw [hb]; rfl) ?_
    · split
      · next ht => exact ⟨rfl, by rw [ht]; rfl, rfl, rfl, rfl⟩
      · exact ⟨rfl, rfl, rfl, rfl, rfl⟩
    · rw [hb]
      exact Context.stays_of_isAmongAttrs rfl
  · have hout : (b.report node.location .expectedTagName).context.isAmongAttrs = false := by
      rw [report, hb]
      rfl
    have hreport := h.same (b.sameDrafts_report node.location .expectedTagName) rfl
    exact (hreport.abortTag hout).placeContent
      (isNaming_abortTag (Context.isNaming_of_isAmongAttrs hout)) node

/-- A node that is placed keeps to it. -/
theorem Loose.place (h : b.Loose) (node : Node) : (b.place node).Loose := by
  have hjoined := h.same (b.sameDrafts_reportJoined node) (reportJoined_context ..)
  unfold Assembly.place
  split <;> rename_i hb
  case h_7 => exact h.placeTagName hb node
  case h_8 =>
    refine (hjoined.finishTagName ?_ _).placeInTag node
    rw [reportJoined_context, hb]
    rfl
  case h_9 => exact h.placeInTag node
  case h_10 =>
    split
    · exact h
    · exact (hjoined.closesAttr (sameDrafts_closeAttr ..) (enter_context ..)).placeInTag node
  case h_11 => exact h.placeBeforeValue node
  all_goals exact h.placeContent (by rw [hb]; rfl) node

/-- Before control flow a name ends. -/
theorem Loose.settle (h : b.Loose) (location : Span) : (b.settle location).Loose := by
  unfold Assembly.settle
  split <;> rename_i hb
  · have hreport := h.same (b.sameDrafts_report location .controlFlowInTagName) rfl
    exact hreport.abortTag (by rw [report, hb]; rfl)
  · exact h.finishTagName (by rw [hb]; rfl) _
  · exact h.closesAttr (b.sameDrafts_closeAttr _) (enter_context ..)
  · exact h

/-- After that only the wait for a value is left. -/
theorem settle_of_isNaming {location : Span} (hn : (b.settle location).context.isNaming = true) :
    (b.settle location).context = .beforeAttrValue := by
  unfold Assembly.settle at hn ⊢
  split at hn <;> rename_i hb
  · rw [isNaming_abortTag (by rw [report, hb]; rfl)] at hn
    cases hn
  · rw [enter_context] at hn
    cases hn
  · rw [closeAttr, enter_context] at hn
    cases hn
  · cases hc : b.context with
    | beforeAttrValue => rfl
    | attrName part sep drop => exact absurd hc (hb part sep drop)
    | _ =>
      rw [hc] at hn
      cases hn

/-- Control flow among attributes leaves them only where they end. -/
theorem Loose.placeFlow {exit : Context} (h : b.Loose)
    (hb : b.context.isNaming = true → b.context = .beforeAttrValue) (hx : b.context.Stays exit)
    (flow : Flow) : (b.placeFlow flow exit).Loose := by
  have hamong := b.sameDrafts_addAmongAttrs (.flow flow)
  unfold Assembly.placeFlow
  split
  · next hc =>
    split
    · exact h.fillSlot ..
    · next hne =>
      refine h.enter hamong _ (fun hn => ?_) hx
      rw [hc] at hx
      have := hx.among rfl
      cases exit with
      | beforeAttrName => exact absurd rfl hne
      | attrValue quotes => cases hx.value rfl quotes rfl
      | beforeAttrValue | attrName => cases hn
      | _ => cases this
  · next hc => exact h.enter hamong _ (fun _ => by rw [hc]; rfl) hx
  · next hne _ =>
    refine h.enter (b.sameDrafts_addContent _) _ (fun _ => ?_) hx
    cases hn : b.context.isNaming with
    | false => rfl
    | true => exact absurd (hb hn) hne

theorem Loose.reach (h : b.Loose) (offset : Nat) : (b.reach offset).Loose := h.setOffset _

/-! ## 5. Ends -/

theorem Loose.settleAtEnd (h : b.Loose) : b.settleAtEnd.Loose := by
  unfold Assembly.settleAtEnd
  split <;> rename_i hb
  · exact h.abortTag (by rw [hb]; rfl)
  · exact h.finishTagName (by rw [hb]; rfl) _
  · exact h.closesAttr (b.sameDrafts_closeAttr _) (enter_context ..)
  · exact h

theorem Loose.closeValue (h : b.Loose) (stop : Nat) : (b.closeValue stop).Loose := by
  unfold Assembly.closeValue
  split
  · exact h
  · next hv =>
    exact h.closesValue ((sameDrafts_endValue hv _).trans (sameDrafts_enter ..)) (enter_context ..)

theorem Loose.closeAnyAttr (h : b.Loose) (stop : Nat) : (b.closeAnyAttr stop).Loose := by
  unfold Assembly.closeAnyAttr
  split
  · exact h.closesAttr (b.sameDrafts_closeAttr _) (enter_context ..)
  · exact h

/-- **A branch that was entered among attributes ends there**, and in a value only if it was entered
in it. -/
theorem Loose.stays (h : b.Loose) : b.entry.Stays b.endBranch.context := by
  have hend : b.endBranch.context = b.closeDrafts.context := by
    unfold Assembly.endBranch
    split <;> rfl
  have hclosed := (h.settleAtEnd.closeValue b.offset).closeAnyAttr b.offset
  have hentry : ((b.settleAtEnd.closeValue b.offset).closeAnyAttr b.offset).entry = b.entry :=
    ((b.extends_settleAtEnd.trans (extends_closeValue ..)).trans (extends_closeAnyAttr ..)).entry
  have hvalue : ((b.settleAtEnd.closeValue b.offset).closeAnyAttr b.offset).value = none :=
    (closeAnyAttr_drafts ..).2.trans (closeValue_drafts ..).1
  rw [hend, closeDrafts_eq]
  generalize (b.settleAtEnd.closeValue b.offset).closeAnyAttr b.offset = b' at *
  rw [← hentry]
  have among (he : b'.entry.isAmongAttrs = true) :
      (b'.closeTag false b.offset false).closeAnyComment b.offset = b' := by
    rw [closeTag_of_eq_none (by simpa using hclosed.tag he),
      closeAnyComment_of_eq_none (by simpa using hclosed.comment he)]
  refine ⟨fun he => ?_, fun he quotes hx => ?_⟩
  · rw [among he]
    exact hclosed.among he
  · rw [among he] at hx
    refine (hclosed.value he quotes hx).resolve_left ?_
    rw [hvalue]
    nofun

end Placing

end Assembly

/-! ## 6. The pass -/

mutual

/-- **Whatever is reported, the drafts keep to it.** -/
theorem feedNodes_loose : ∀ (nodes : List Node) (b : Assembly) (run : Option RawRun),
    b.Loose → (feedNodes b run nodes).Loose
  | [], b, run, h => by
    rw [feedNodes]
    exact h.readCollected run
  | n :: nodes, b, run, h => by
    rw [feedNodes]
    split
    · next text _ => exact feedNodes_loose nodes _ _ (h.collect run text n.location)
    · exact feedNodes_loose nodes _ none (feedNode_loose n _ (h.readCollected run))

theorem feedNode_loose : ∀ (n : Node) (b : Assembly), b.Loose → (feedNode b n).Loose
  | .call id location callee params, b, h => by
    rw [feedNode]
    exact ((h.ledger _).place _).reach _
  | .binding id location var value, b, h => by
    rw [feedNode]
    exact ((h.ledger _).place _).reach _
  | .flow flow, b, h => by
    rw [feedNode]
    have hstays := rewriteFlow_stays flow (b.settle flow.location).ledger
      (b.settle flow.location).context
    have hsettle := h.settle flow.location
    generalize rewriteFlow (b.settle flow.location).ledger (b.settle flow.location).context flow
      = outcome at hstays
    exact ((hsettle.ledger outcome.2.2).placeFlow Assembly.settle_of_isNaming hstays
      outcome.1).reach _
  | .raw .., b, h | .print .., b, h | .openTag .., b, h | .closeTag .., b, h | .attr .., b, h
  | .attrValue .., b, h | .comment .., b, h => by
    rw [feedNode]
    exact (h.place _).reach _
    all_goals simp

theorem rewriteFlow_stays : ∀ (flow : Flow) (l : Ledger) (entry : Context),
    entry.Stays (rewriteFlow l entry flow).2.1
  | ⟨id, location, head, branches⟩, l, entry => by
    rw [rewriteFlow]
    dsimp only
    split
    · exact entry.stays_refl
    · have hexits :=
        rewriteBranches_stays branches { l with depth := l.depth + 1 } entry location.start
      generalize rewriteBranches { l with depth := l.depth + 1 } entry location.start branches
        = inner at hexits
      change entry.Stays
        (reconcile { inner.2.2 with depth := l.depth } location head entry inner.2.1).1
      rcases reconcile_fst { inner.2.2 with depth := l.depth } location head entry inner.2.1 with
        h | ⟨e, hmem, h⟩ <;> rw [h]
      · exact entry.stays_refl
      · exact hexits e hmem

theorem rewriteBranches_stays : ∀ (branches : List Branch) (l : Ledger) (entry : Context)
    (offset : Nat), ∀ e ∈ (rewriteBranches l entry offset branches).2.1, entry.Stays e.2
  | [], l, entry, offset => by
    rw [rewriteBranches]
    exact nofun
  | branch :: branches, l, entry, offset => by
    rw [rewriteBranches]
    exact List.forall_mem_cons.mpr
      ⟨rewriteBranch_stays branch l entry offset, rewriteBranches_stays branches _ entry offset⟩

theorem rewriteBranch_stays : ∀ (branch : Branch) (l : Ledger) (entry : Context) (offset : Nat),
    entry.Stays (rewriteBranch l entry offset branch).2.1
  | ⟨id, kind, nodes⟩, l, entry, offset => by
    rw [rewriteBranch]
    have h := feedNodes_loose nodes (.start l.countBranch entry true offset) none
      (Assembly.loose_start ..)
    have hentry : (feedNodes (.start l.countBranch entry true offset) none nodes).entry = entry :=
      (feedNodes_extends nodes (.start l.countBranch entry true offset) none).entry
    have hstays := h.stays
    rwa [hentry] at hstays

end

/-! ## 7. What is reported at the end -/

/-- A branch that does not close what it opened. -/
def Fault.isUnclosed : Fault → Bool
  | .unclosedInBranch _ => true
  | _ => false

/-- How often something was left open. -/
def Ledger.unclosed (l : Ledger) : Nat := l.diagnostics.countP fun d => d.fault.isUnclosed

namespace Assembly

/-- How often something was left open in what has been read. -/
abbrev unclosed (b : Assembly) : Nat := b.ledger.unclosed

section Counts

variable (b : Assembly)

@[simp] theorem unclosed_enter (next : Context) (offset : Nat) :
    (b.enter next offset).unclosed = b.unclosed := by
  unfold enter
  split <;> rfl

@[simp] theorem unclosed_report (location : Span) (fault : Fault) :
    (b.report location fault).unclosed = b.unclosed + if fault.isUnclosed then 1 else 0 :=
  List.countP_cons ..

theorem unclosed_setContent (nodes : List Node) : (b.setContent nodes).unclosed = b.unclosed := by
  unfold setContent
  split <;> rfl

@[simp] theorem unclosed_addText (text : Text) (location : Span) :
    (b.addText text location).unclosed = b.unclosed := by
  unfold addText
  split
  · exact b.unclosed_setContent _
  · exact unclosed_setContent { b with ledger := b.ledger.drawn } _

@[simp] theorem unclosed_addAmongAttrs (node : Node) :
    (b.addAmongAttrs node).unclosed = b.unclosed := by
  unfold addAmongAttrs
  split <;> rfl

@[simp] theorem unclosed_finishTagName : b.finishTagName.unclosed = b.unclosed := by
  unfold finishTagName
  split
  · rfl
  · split <;> rfl

@[simp] theorem unclosed_abortTag : b.abortTag.unclosed = b.unclosed := by
  unfold abortTag
  split
  · rfl
  · next tag _ =>
    have htext := unclosed_addText ({ b with tag := none }.enter tag.outside tag.start)
      ((if tag.close then ['<', '/'] else ['<']) ++ tag.nameText)
      (Span.upTo tag.start tag.nameLocation.stop)
    have hopen := unclosed_enter { b with tag := none } tag.outside tag.start
    dsimp only
    split
    · exact htext.trans hopen
    · exact htext.trans hopen

@[simp] theorem unclosed_finishAttrName : b.finishAttrName.unclosed = b.unclosed := by
  unfold finishAttrName
  split
  · rfl
  · split <;> rfl

@[simp] theorem unclosed_addAttr (attr : AttrDraft) (value : Option Node) (stop : Nat) :
    (b.addAttr attr value stop).unclosed = b.unclosed := by
  unfold addAttr
  split
  · rfl
  · split
    · rfl
    · exact unclosed_addAmongAttrs { b with ledger := b.ledger.drawnForHtml } _

theorem unclosed_closeAttr (stop : Nat) : (b.closeAttr stop).unclosed = b.unclosed := by
  rw [closeAttr, unclosed_enter]
  unfold endAttr
  dsimp only
  split
  · exact b.unclosed_finishAttrName
  · rw [unclosed_addAttr]
    exact b.unclosed_finishAttrName

theorem unclosed_closeAnyAttr (stop : Nat) : (b.closeAnyAttr stop).unclosed = b.unclosed := by
  unfold closeAnyAttr
  split
  · exact b.unclosed_closeAttr stop
  · rfl

theorem unclosed_giveValue (value : Node) (stop : Nat) :
    (b.giveValue value stop).unclosed = b.unclosed := by
  unfold giveValue
  split
  · exact unclosed_addAttr { b with attr := none } ..
  · rfl

theorem unclosed_closeValue (stop : Nat) : (b.closeValue stop).unclosed = b.unclosed := by
  unfold closeValue endValue
  split
  · rfl
  · rw [unclosed_enter]
    exact unclosed_giveValue { b with ledger := b.ledger.drawnForHtml, value := none } ..

/-- A tag that is closed may be reported, but not for being open. -/
theorem unclosed_closeTag (selfClosing : Bool) (stop : Nat) (bodyFollows : Bool) :
    (b.closeTag selfClosing stop bodyFollows).unclosed = b.unclosed := by
  unfold closeTag
  split
  · rfl
  · split
    · exact b.unclosed_abortTag
    · dsimp only
      split
      · unfold addCloseTag
        dsimp only
        rw [unclosed_enter]
        split <;> split <;> rfl
      · exact unclosed_enter ..

theorem unclosed_closeAnyComment (stop : Nat) :
    (b.closeAnyComment stop).unclosed = b.unclosed := by
  unfold closeAnyComment endComment
  split
  · rw [unclosed_enter]
    split <;> rfl
  · rfl

theorem unclosed_settleAtEnd : b.settleAtEnd.unclosed = b.unclosed := by
  unfold settleAtEnd
  split
  · exact b.unclosed_abortTag
  · rw [unclosed_enter, unclosed_finishTagName]
  · exact b.unclosed_closeAttr _
  · rfl

theorem unclosed_closeDrafts : b.closeDrafts.unclosed = b.unclosed := by
  rw [closeDrafts_eq, unclosed_closeAnyComment, unclosed_closeTag, unclosed_closeAnyAttr,
    unclosed_closeValue, unclosed_settleAtEnd]

/-- At the end of a branch one thing that is open is reported. -/
theorem unclosed_endBranch : b.endBranch.unclosed
    = b.unclosed + if b.settleAtEnd.openConstruct?.isSome then 1 else 0 := by
  unfold endBranch
  cases b.settleAtEnd.openConstruct? with
  | none => exact b.unclosed_closeDrafts
  | some found =>
    rw [unclosed_report, unclosed_closeDrafts]
    rfl

end Counts

/-! ## 8. What is open at the end -/

/-- A value with quotes is open. -/
def quotesOpen (b : Assembly) : Bool := b.value.any fun value => value.quotes != .bare

/-- Something is open that a branch has to close: a tag, whether its name has started or not, a
comment, a value with quotes, or an attribute of which the value is due. -/
def owes (b : Assembly) : Bool :=
  b.tag.isSome || b.comment.isSome || b.quotesOpen
    || (b.context = .beforeAttrValue && b.attr.isSome)

/-- What of it is noticed.  A tag whose name has not started is given up before anything is looked
for, and a value that is left from before is given to the attribute that waits. -/
def leavesOpen (b : Assembly) : Bool :=
  (b.tag.isSome && b.context ≠ .tagName .empty) || b.comment.isSome || b.quotesOpen
    || (b.context = .beforeAttrValue && b.attr.isSome && b.value.isNone)

/-- All of it is noticed, but for a tag without a name and an attribute beside a value that was
left. -/
theorem leavesOpen_eq_owes {b : Assembly} (h : b.context ≠ .tagName .empty)
    (h' : b.context = .beforeAttrValue → b.value = none) : b.leavesOpen = b.owes := by
  unfold leavesOpen owes
  by_cases hb : b.context = .beforeAttrValue
  · simp [hb, h' hb]
  · simp [h, hb]

theorem isSome_openConstruct? (b : Assembly) : b.openConstruct?.isSome
    = (b.tag.isSome || b.comment.isSome || b.quotesOpen || (b.attr.isSome && b.value.isNone)) := by
  obtain ⟨_, _, _, _, _, tag, attr, value, comment, _, _, _⟩ := b
  unfold openConstruct? quotesOpen
  rcases value with _ | ⟨_ | _ | _, _, _⟩ <;> cases attr <;> cases tag <;> cases comment <;> rfl

/-- **What is found at the end is what was noticed.**  In other contexts no attribute waits. -/
theorem Loose.isSome_openConstruct? {b : Assembly} (h : b.Loose) :
    b.settleAtEnd.openConstruct?.isSome = b.leavesOpen := by
  have waits (hn : b.context.isNaming = false) : (b.attr.isSome && b.value.isNone) = false := by
    cases ha : b.attr.isSome with
    | false => rfl
    | true => simp [h.served hn ha]
  rw [Assembly.isSome_openConstruct?]
  unfold Assembly.settleAtEnd Assembly.leavesOpen Assembly.quotesOpen
  split <;> rename_i hb
  · obtain ⟨ht, ha, hv, hm⟩ := b.abortTag_drafts
    have hw := waits (by rw [hb]; rfl)
    rw [ht, ha, hv, hm, hw, hb]
    simp
  · next part hpart =>
    have hs := b.sameDrafts_finishTagName
    have hw := waits (by rw [hb]; rfl)
    simp only [enter_tag, enter_attr, enter_value, enter_comment]
    rw [hs.tag, hs.attr, finishTagName_value, hs.comment, hw, hb]
    simp [show part ≠ .empty from hpart]
  · have hs := b.sameDrafts_closeAttr b.offset
    rw [hs.tag, hs.attr, closeAttr_value, hs.comment, hb]
    simp
  · next hname _ =>
    by_cases hc : b.context = .beforeAttrValue
    · simp [hc]
    · have hn : b.context.isNaming = false := by
        cases hx : b.context with
        | beforeAttrValue => exact absurd hx hc
        | attrName part sep drop => exact absurd hx (hb part sep drop)
        | _ => rfl
      rw [waits hn]
      simp [hc, show b.context ≠ .tagName .empty from hname]

end Assembly

/-! ## 9. Branches -/

/-- **What a branch reports of itself at its end.**  Once if it leaves something open, and never
otherwise; what it leaves open is all it has to close, unless it ends where the name of a tag is due
or where a value is due beside one that was left. -/
theorem rewriteBranch_reportsUnclosed (branch : Branch) (l : Ledger) (entry : Context)
    (offset : Nat) :
    let fed := feedNodes (.start l.countBranch entry true offset) none branch.nodes
    ∃ own, (rewriteBranch l entry offset branch).2.2.diagnostics = own ++ fed.ledger.diagnostics
      ∧ own.countP (fun d => d.fault.isUnclosed) = (if fed.leavesOpen then 1 else 0)
      ∧ (fed.context ≠ .tagName .empty → (fed.context = .beforeAttrValue → fed.value = none) →
        fed.leavesOpen = fed.owes) := by
  obtain ⟨id, kind, nodes⟩ := branch
  intro fed
  have hloose : fed.Loose := feedNodes_loose nodes _ none (Assembly.loose_start ..)
  have hcount : fed.endBranch.unclosed = fed.unclosed + if fed.leavesOpen then 1 else 0 := by
    rw [Assembly.unclosed_endBranch, hloose.isSome_openConstruct?]
  obtain ⟨own, hown⟩ := (Assembly.extends_endBranch fed).ledger.diagnostics
  refine ⟨own, ?_, ?_, Assembly.leavesOpen_eq_owes⟩
  · rw [rewriteBranch]
    exact hown.symm
  · unfold Assembly.unclosed Ledger.unclosed at hcount
    rw [← hown, List.countP_append, Nat.add_comm] at hcount
    exact Nat.add_left_cancel hcount

/-- The branch of `{if $c}<a b={/if}`. -/
def openedAttr : Branch :=
  ⟨default, .cond "$c".toList, [.raw default ⟨7, 12, by decide⟩ "<a b=".toList]⟩

/-- It leaves a tag open and an attribute in it, and says so once. -/
theorem rewriteBranch_reportsUnclosed_attr :
    ∃ own, (rewriteBranch (.start {} (.startingAt 0)) .pcdata 0 openedAttr).2.2.diagnostics = own
      ∧ own.countP (fun d => d.fault.isUnclosed) = 1 := by
  obtain ⟨own, hown, hcount, howes⟩ :=
    rewriteBranch_reportsUnclosed openedAttr (.start {} (.startingAt 0)) .pcdata 0
  have hvalue : (feedNodes (.start (Ledger.start {} (.startingAt 0)).countBranch .pcdata true 0)
      none openedAttr.nodes).value = none := by
    rw [← Option.isNone_iff_eq_none]
    decide +kernel
  have hfed : (feedNodes (.start (Ledger.start {} (.startingAt 0)).countBranch .pcdata true 0)
      none openedAttr.nodes).ledger.diagnostics = [] := by decide +kernel
  rw [hfed, List.append_nil] at hown
  rw [howes (by decide +kernel) fun _ => hvalue, if_pos (by decide +kernel)] at hcount
  exact ⟨own, hown, hcount⟩

/-- The control flow a node is. -/
def Node.flow? : Node → Option Flow
  | .flow f => some f
  | _ => none

theorem Node.eq_of_flow? {n : Node} {flow : Flow} (h : n.flow? = some flow) : n = .flow flow := by
  cases n <;> cases h
  rfl

/-- In `{if $c}<{/if}a>` the branch ends where the name of its tag is due, and nothing is
reported. -/
theorem rewriteBranch_namelessTag :
    ∃ t ids flow later, Template.read "\x7bif $c\x7d<\x7b/if\x7da>".toList .html (.startingAt 0)
        = .ok (t, ids)
      ∧ t.nodes = .flow flow :: later ∧ (t.rewrite {} ids).diagnostics = []
      ∧ ∃ branch ∈ flow.branches,
        (feedNodes (.start (Ledger.start {} ids).countBranch .pcdata true flow.location.start) none
          branch.nodes).owes = true
        ∧ (rewriteBranch (.start {} ids) .pcdata flow.location.start branch).2.2.diagnostics
          = [] := by
  have hcheck : (Template.read "\x7bif $c\x7d<\x7b/if\x7da>".toList .html
      (.startingAt 0)).toOption.any (fun r => (r.1.rewrite {} r.2).diagnostics.isEmpty
        && (r.1.nodes.head?.bind Node.flow?).any fun flow => flow.branches.any fun branch =>
          (feedNodes (.start (Ledger.start {} r.2).countBranch .pcdata true flow.location.start)
            none branch.nodes).owes
          && (rewriteBranch (.start {} r.2) .pcdata flow.location.start
            branch).2.2.diagnostics.isEmpty) = true := by decide +kernel
  cases hread : Template.read "\x7bif $c\x7d<\x7b/if\x7da>".toList .html (.startingAt 0) with
  | error r =>
    rw [hread] at hcheck
    cases hcheck
  | ok r =>
    rw [hread] at hcheck
    obtain ⟨hquiet, hbranches⟩ := Bool.and_eq_true_iff.mp hcheck
    obtain ⟨flow, hflow, hbranches⟩ := (Option.any_eq_true ..).mp hbranches
    obtain ⟨n, hn, hflow⟩ := Option.bind_eq_some_iff.mp hflow
    obtain ⟨later, hnodes⟩ := List.head?_eq_some_iff.mp hn
    obtain ⟨branch, hmem, hbranch⟩ := List.any_eq_true.mp hbranches
    obtain ⟨howes, hsilent⟩ := Bool.and_eq_true_iff.mp hbranch
    exact ⟨r.1, r.2, flow, later, rfl, Node.eq_of_flow? hflow ▸ hnodes, List.isEmpty_iff.mp hquiet,
      branch, hmem, howes, List.isEmpty_iff.mp hsilent⟩

end TemplateMarkup
