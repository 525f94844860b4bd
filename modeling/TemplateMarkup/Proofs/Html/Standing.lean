/-
# A branch that stands for a value

A branch that is entered where a value is due waits until it reads one, reads it, and then stands in
the tag; it never waits again (`Assembly.Standing`).  Blanks, and nodes that are no part of a value,
leave it waiting.
-/
import TemplateMarkup.Proofs.Html.Coherence
import TemplateMarkup.Proofs.Tree.Sequence

namespace TemplateMarkup

/-- Nothing but blanks: where a value is due, the text gives none. -/
def Text.Idle (t : Text) : Prop := ∀ c ∈ t, isAsciiBlank c = true

/-- What is taken while a property holds has it. -/
theorem Text.of_mem_take_run {p : Char → Bool} {c : Char} :
    ∀ {t : Text}, c ∈ t.take (Text.run p t) → p c = true
  | [], h => by cases h
  | d :: ds, h => by
    by_cases hd : p d = true
    · rw [Text.run_cons_of hd, List.take_succ_cons] at h
      rcases List.mem_cons.mp h with rfl | h
      · exact hd
      · exact Text.of_mem_take_run h
    · rw [Text.run, if_neg hd] at h
      cases h

/-- Where a value is due only blanks leave it due. -/
theorem Context.idle_of_next {c : Char} {cs : Text}
    (h : (Context.lexeme c cs .beforeAttrValue).next = .beforeAttrValue) :
    Text.Idle ((c :: cs).take (Context.lexeme c cs .beforeAttrValue).width) := by
  rw [Context.lexeme] at h ⊢
  unfold Lexeme.beforeValue at h ⊢
  split at h
  · next hb =>
    rw [if_pos hb]
    exact fun d hd => Text.of_mem_take_run hd
  · split at h
    · cases h
    · split at h <;> cases h

namespace Assembly

/-! ## 1. Waiting, reading, having -/

/-- A branch that stands for a value waits for it, reads it or has it. -/
structure Standing (b : Assembly) : Prop where
  entry : b.entry = .beforeAttrValue
  attr : b.attr = none
  place : b.context = .beforeAttrValue ∨ (∃ quotes, b.context = .attrValue quotes)
    ∨ b.context = .beforeAttrName ∧ b.slotFilled = true

theorem standing_start (l : Ledger) (inBranch : Bool) (offset : Nat) :
    (start l .beforeAttrValue inBranch offset).Standing := ⟨rfl, rfl, .inl rfl⟩

section Operations

variable {b : Assembly} {t : Text}

/-- The tag around it is not open in the branch. -/
theorem Standing.tag (h : b.Standing) (hcoh : b.Coherent t) : b.tag = none ∧ b.comment = none := by
  obtain ⟨ledger, entry, here, inBranch, out, tag, attr, value, comment, filled, raw, off⟩ := b
  obtain ⟨rfl, rfl, hb⟩ := h
  dsimp only [Coherent] at hcoh hb ⊢
  cases hcoh with
  | content he | comment he | tagName he => cases he
  | inComment he | inValue he => cases he
  | inTag ht | beforeValue ht | value _ ht =>
    cases tag with
    | none => exact ⟨rfl, rfl⟩
    | some tag => cases ht.1

/-- What reads a value has one open. -/
theorem Standing.value {quotes : Quotes} (h : b.Standing) (hcoh : b.Coherent t)
    (hb : b.context = .attrValue quotes) : ∃ value, b.value = some value := by
  obtain ⟨ledger, entry, here, inBranch, out, tag, attr, value, comment, filled, raw, off⟩ := b
  obtain ⟨rfl, rfl, -⟩ := h
  dsimp only at hb
  subst hb
  dsimp only [Coherent] at hcoh ⊢
  cases hcoh with
  | content he => cases he
  | value draft => exact ⟨draft, rfl⟩
  | inValue he => cases he

/-- Behind the value no attribute may follow. -/
theorem Standing.attrFault? (h : b.Standing) (hcoh : b.Coherent t)
    (hb : b.context = .beforeAttrName) : b.attrFault? = some .contentAfterValue := by
  obtain hb' | ⟨_, hb'⟩ | ⟨-, hfilled⟩ := h.place
  · cases hb.symm.trans hb'
  · cases hb.symm.trans hb'
  · unfold Assembly.attrFault?
    rw [(h.tag hcoh).1, h.entry, hfilled]
    rfl

theorem Standing.not_clean_openAttr (h : b.Standing) (hcoh : b.Coherent t)
    (hb : b.context = .beforeAttrName) (location : Span) (name : Option Node) (discard : Bool) :
    ¬ (b.openAttr location name discard).Clean := by
  intro hc
  have hc' : (b.reportAttr location).Clean := hc
  unfold reportAttr at hc'
  rw [h.attrFault? hcoh hb, (h.tag hcoh).1] at hc'
  exact not_clean_report _ _ _ hc'

/-- Once the value is read the branch has it. -/
theorem Standing.giveValue (h : b.Standing) (value : Node) (stop offset : Nat) :
    ((b.giveValue value stop).enter .beforeAttrName offset).Standing := by
  unfold Assembly.giveValue
  rw [h.attr]
  refine ⟨(enter_entry ..).trans h.entry, (enter_attr ..).trans h.attr,
    .inr (.inr ⟨enter_context .., enter_slotFilled ..⟩)⟩

theorem Standing.endValue {value : ValueDraft} (h : b.Standing) (hv : b.value = some value)
    (stop offset : Nat) : ((b.endValue stop).enter .beforeAttrName offset).Standing := by
  unfold Assembly.endValue
  rw [hv]
  exact Standing.giveValue (b := { b with ledger := b.ledger.drawnForHtml, value := none })
    ⟨h.entry, h.attr, h.place⟩ _ _ _

/-- A value is begun. -/
theorem Standing.openValue (h : b.Standing) (value : ValueDraft) (quotes : Quotes) (offset : Nat) :
    ({ b with value := some value }.enter (.attrValue quotes) offset).Standing :=
  ⟨(enter_entry ..).trans h.entry, (enter_attr ..).trans h.attr,
    .inr (.inl ⟨quotes, enter_context ..⟩)⟩

/-- What stands among the attributes leaves the branch where it stands. -/
theorem Standing.addAmongAttrs (h : b.Standing) (hcoh : b.Coherent t) (node : Node) :
    (b.addAmongAttrs node).Standing := by
  unfold Assembly.addAmongAttrs
  rw [(h.tag hcoh).1]
  exact ⟨h.entry, h.attr, h.place⟩

theorem Standing.ledger (h : b.Standing) (l : Ledger) : { b with ledger := l }.Standing :=
  ⟨h.entry, h.attr, h.place⟩

theorem Standing.reach (h : b.Standing) (offset : Nat) : (b.reach offset).Standing :=
  ⟨h.entry, h.attr, h.place⟩

/-! ## 2. Reading -/

/-- **A mark goes from waiting to reading, or from reading to having.** -/
theorem Standing.apply {c : Char} {text : Text} {l : Lexeme} {m : Mark} (location : Span)
    (h : b.Standing) (hcoh : b.Coherent t) (hl : Context.Move b.context c l) (hm : l.mark = some m)
    (hf : l.fault = none) (hc : (b.apply m l.next text location).Clean) :
    (b.apply m l.next text location).Standing
      ∧ ((b.apply m l.next text location).context = .beforeAttrValue →
        b.context = .beforeAttrValue ∧ l.next = .beforeAttrValue
          ∧ (b.apply m l.next text location).out = b.out) := by
  have hentry := h.entry
  have hattr := h.attr
  obtain ⟨htag, hcomment⟩ := h.tag hcoh
  obtain hb | ⟨quotes, hb⟩ | ⟨hb, hfilled⟩ := h.place
  · rw [hb] at hl
    cases hl <;> cases hm
    case inl.skipBeforeValue.refl =>
      simp only [Assembly.apply, Context.discards, Bool.false_and, Bool.false_eq_true, if_false]
      exact ⟨⟨(enter_entry ..).trans hentry, (enter_attr ..).trans hattr, .inl (enter_context ..)⟩,
        fun _ => ⟨hb, trivial, enter_out ..⟩⟩
    all_goals
      refine ⟨h.openValue _ _ _, fun hx => ?_⟩
      cases (enter_context ..).symm.trans hx
  · obtain ⟨value, hvalue⟩ := h.value hcoh hb
    rw [hb] at hl
    cases hl <;> cases hm
    all_goals
      simp only [Assembly.apply, hvalue] at hc ⊢
      refine ⟨h.endValue hvalue _ _, fun hx => ?_⟩
      cases (enter_context ..).symm.trans hx
  · have hopen := h.not_clean_openAttr hcoh hb
    rw [hb] at hl
    cases hl <;> cases hm
    case inr.inr.skipInTag.refl =>
      simp only [Assembly.apply, Context.discards, Bool.false_and, Bool.false_eq_true, if_false]
      refine ⟨⟨(enter_entry ..).trans hentry, (enter_attr ..).trans hattr,
        .inr (.inr ⟨enter_context .., (enter_slotFilled ..).trans hfilled⟩)⟩, fun hx => ?_⟩
      cases (enter_context ..).symm.trans hx
    case inr.inr.endTag.refl =>
      simp only [Assembly.apply, htag] at hc
      exact absurd hc (not_clean_report _ _ _)
    case inr.inr.attrStart.refl => exact absurd ((extends_enter ..).clean hc) (hopen _ _ _)
    case inr.inr.badAttr.refl => cases hf

/-- **Text that is not blank gives a value.** -/
theorem Standing.read {run : RawRun} (h : b.Standing) (hcoh : b.Coherent t)
    (hc : (b.read run 0 none t).Clean) :
    (b.read run 0 none t).Standing
      ∧ ((b.read run 0 none t).context = .beforeAttrValue →
        b.context = .beforeAttrValue ∧ Text.Idle t) := by
  suffices key : (b.read run 0 none t).Coherent [] ∧ (b.read run 0 none t).Standing
      ∧ ((b.read run 0 none t).context = .beforeAttrValue →
        b.context = .beforeAttrValue ∧ (Text.Idle [] → Text.Idle t)) by
    obtain ⟨-, hstand, hback⟩ := key
    exact ⟨hstand, fun hb => ⟨(hback hb).1, (hback hb).2 nofun⟩⟩
  refine read_rule (P := fun b' _ t' => b'.Clean → b'.Coherent t' ∧ b'.Standing
      ∧ (b'.context = .beforeAttrValue →
        b.context = .beforeAttrValue ∧ (Text.Idle t' → Text.Idle t)))
    ?_ ?_ ?_ (fun _ => ⟨hcoh, h, fun hb => ⟨hb, id⟩⟩) (fun _ hk => by cases hk) hc
  · intro b' held c cs location offset hP hm hc
    refine ⟨Coherent.content_of_clean location offset (fun hc => (hP hc).1) hm hc, ?_⟩
    have hfault := fault_eq_none_of_clean (extends_enter ..) hc
    rw [reportLexeme_of_fault_eq_none hfault] at hc ⊢
    obtain ⟨-, hstand, -⟩ := hP ((extends_enter ..).clean hc)
    -- only in a value is text content
    have hl := Context.lexeme_move b'.context c cs
    have hnext : ∃ quotes, (b'.context.lexeme c cs).next = .attrValue quotes := by
      generalize b'.context.lexeme c cs = l at hl hm
      obtain hb | ⟨quotes, hb⟩ | ⟨hb, -⟩ := hstand.place <;> rw [hb] at hl <;> cases hl <;>
        first | exact ⟨_, rfl⟩ | cases hm
    obtain ⟨quotes, hnext⟩ := hnext
    rw [hnext]
    refine ⟨⟨(enter_entry ..).trans hstand.entry, (enter_attr ..).trans hstand.attr,
      .inr (.inl ⟨_, enter_context ..⟩)⟩, fun hx => ?_⟩
    cases (enter_context ..).symm.trans hx
  · intro b' held t' location hP _ hb hc
    obtain ⟨hcoh, hstand, -⟩ := hP ((extends_addText ..).clean hc)
    refine ⟨hcoh.addText .., ?_⟩
    obtain hx | ⟨quotes, hx⟩ | ⟨hx, -⟩ := hstand.place
    · rw [hx] at hb
      cases hb
    · have hx' := (addText_context b' held location).trans hx
      refine ⟨⟨(extends_addText ..).entry.trans hstand.entry, (addText_attr ..).trans hstand.attr,
        .inr (.inl ⟨quotes, hx'⟩)⟩, fun hx'' => ?_⟩
      cases hx'.symm.trans hx''
    · rw [hx] at hb
      cases hb
  · intro b' c cs m location place hP hm hc
    refine ⟨Coherent.mark_of_clean location place (fun hc => (hP hc).1) hm hc, ?_⟩
    have hfault := fault_eq_none_of_clean (extends_apply ..) hc
    rw [reportLexeme_of_fault_eq_none hfault] at hc ⊢
    obtain ⟨hcoh, hstand, hidle⟩ := hP ((extends_apply ..).clean hc)
    obtain ⟨hstand', hback⟩ := hstand.apply place hcoh (Context.lexeme_move ..) hm hfault hc
    refine ⟨hstand', fun hx => ?_⟩
    obtain ⟨hb, hnext, -⟩ := hback hx
    obtain ⟨hb', hrest⟩ := hidle hb
    refine ⟨hb', fun hdrop => hrest fun d hd => ?_⟩
    rw [hb] at hnext hdrop
    rw [← List.take_append_drop (Context.lexeme c cs .beforeAttrValue).width (c :: cs)] at hd
    rcases List.mem_append.mp hd with hd | hd
    · exact Context.idle_of_next hnext d hd
    · exact hdrop d hd

theorem Standing.readRun {run : RawRun} (h : b.Standing) (hcoh : b.Coherent [])
    (hc : (b.readRun run).Clean) :
    (b.readRun run).Standing
      ∧ ((b.readRun run).context = .beforeAttrValue →
        b.context = .beforeAttrValue ∧ Text.Idle run.text) := by
  obtain ⟨hstand, hback⟩ := Standing.read (b := { b with ledger := b.ledger.countRun })
    ⟨h.entry, h.attr, h.place⟩ hcoh.restrict_nil hc
  exact ⟨⟨hstand.entry, hstand.attr, hstand.place⟩, hback⟩

theorem Standing.readCollected {run : Option RawRun} (h : b.Standing) (hcoh : b.Coherent [])
    (hc : (b.readCollected run).Clean) :
    (b.readCollected run).Standing
      ∧ ((b.readCollected run).context = .beforeAttrValue →
        b.context = .beforeAttrValue ∧ ∀ r, run = some r → Text.Idle r.text) := by
  cases run with
  | none => exact ⟨h, fun hb => ⟨hb, nofun⟩⟩
  | some run =>
    obtain ⟨hstand, hback⟩ := h.readRun hcoh hc
    refine ⟨hstand, fun hb => ⟨(hback hb).1, ?_⟩⟩
    rintro _ ⟨⟩
    exact (hback hb).2

theorem Standing.collect {run : Option RawRun} {text : Text} {location : Span} (h : b.Standing)
    (hcoh : b.Coherent []) (hc : (b.collect run text location).1.Clean) :
    (b.collect run text location).1.Standing
      ∧ ((b.collect run text location).1.context = .beforeAttrValue →
        Text.Idle (b.collect run text location).2.text → b.context = .beforeAttrValue
          ∧ (∀ r, run = some r → Text.Idle r.text) ∧ Text.Idle text) := by
  unfold Assembly.collect at hc ⊢
  cases run with
  | none =>
    refine ⟨h, fun hb ht => ⟨hb, nofun, ?_⟩⟩
    rwa [RawRun.text_single] at ht
  | some run =>
    dsimp only at hc ⊢
    split at hc
    · next hj =>
      rw [if_pos hj]
      refine ⟨h, fun hb ht => ⟨hb, ?_⟩⟩
      rw [RawRun.text_push] at ht
      refine ⟨?_, fun c hc => ht c (List.mem_append_right _ hc)⟩
      rintro _ ⟨⟩ c hc
      exact ht c (List.mem_append_left _ hc)
    · next hj =>
      rw [if_neg hj]
      obtain ⟨hstand, hback⟩ := h.readRun hcoh hc
      refine ⟨hstand, fun hb ht => ⟨(hback hb).1, ?_, ?_⟩⟩
      · rintro _ ⟨⟩
        exact (hback hb).2
      · rwa [RawRun.text_single] at ht

/-! ## 3. Placing -/

/-- A node is placed where the branch stands; if it is part of a value the branch has one. -/
theorem Standing.place_node {node : Node} (h : b.Standing) (hcoh : b.Coherent [])
    (hc : (b.place node).Clean) :
    (b.place node).Standing ∧ ((b.place node).context = .beforeAttrValue →
      b.context = .beforeAttrValue ∧ node.isValue = false) := by
  obtain hb | ⟨quotes, hb⟩ | ⟨hb, hfilled⟩ := h.place
  · have hplace : b.place node = b.placeBeforeValue node := by
      unfold Assembly.place
      rw [hb]
    rw [hplace]
    unfold Assembly.placeBeforeValue
    cases node with
    | print | call =>
      refine ⟨h.openValue _ _ _, fun hx => ?_⟩
      cases (enter_context ..).symm.trans hx
    | attrValue =>
      refine ⟨h.giveValue _ _ _, fun hx => ?_⟩
      cases (enter_context ..).symm.trans hx
    | _ =>
      exact ⟨h.addAmongAttrs hcoh _, fun _ => ⟨hb, rfl⟩⟩
  · have hplace : b.place node = b.addContent node := by
      unfold Assembly.place placeContent
      rw [hb]
      dsimp only
      rw [contextAfter?_eq_none (by simp) (by simp)]
    have hx' : (b.addContent node).context = .attrValue quotes := (addContent_context ..).trans hb
    rw [hplace]
    refine ⟨⟨(extends_addContent ..).entry.trans h.entry, (setContent_attr ..).trans h.attr,
      .inr (.inl ⟨quotes, hx'⟩)⟩, fun hx => ?_⟩
    cases hx'.symm.trans hx
  · have hplace : b.place node = b.placeInTag node := by
      unfold Assembly.place
      rw [hb]
    rw [hplace] at hc ⊢
    unfold placeInTag at hc ⊢
    split at hc
    · exact absurd ((extends_enter ..).clean hc) (h.not_clean_openAttr hcoh hb _ _ _)
    · next hp =>
      rw [if_neg hp]
      refine ⟨h.addAmongAttrs hcoh _, fun hx => ?_⟩
      rw [addAmongAttrs_context, hb] at hx
      cases hx

theorem Standing.settle (h : b.Standing) (location : Span) : b.settle location = b := by
  unfold Assembly.settle
  obtain hb | ⟨quotes, hb⟩ | ⟨hb, -⟩ := h.place <;> rw [hb]

theorem Standing.placeFlow (flow : Flow) {exit : Context} (h : b.Standing) (hcoh : b.Coherent [])
    (hl : Context.Leads b.context exit) :
    (b.placeFlow flow exit).Standing ∧ ((b.placeFlow flow exit).context = .beforeAttrValue →
      b.context = .beforeAttrValue ∧ exit = .beforeAttrValue) := by
  obtain hb | ⟨quotes, hb⟩ | ⟨hb, hfilled⟩ := h.place <;> rw [hb] at hl
  · unfold Assembly.placeFlow
    rw [hb]
    dsimp only
    split
    · refine ⟨h.giveValue _ _ _, fun hx => ?_⟩
      cases (enter_context ..).symm.trans hx
    · next hne =>
      obtain rfl := hl.resolve_right hne
      have hstand := h.addAmongAttrs hcoh (.flow flow)
      exact ⟨⟨(enter_entry ..).trans hstand.entry, (enter_attr ..).trans hstand.attr,
        .inl (enter_context ..)⟩, fun _ => ⟨rfl, rfl⟩⟩
  · obtain rfl : exit = .attrValue quotes := hl
    unfold Assembly.placeFlow
    rw [hb]
    dsimp only
    refine ⟨⟨(enter_entry ..).trans ((extends_addContent ..).entry.trans h.entry),
      (enter_attr ..).trans ((setContent_attr ..).trans h.attr),
      .inr (.inl ⟨quotes, enter_context ..⟩)⟩, fun hx => ?_⟩
    cases (enter_context ..).symm.trans hx
  · obtain rfl : exit = .beforeAttrName := hl
    have hstand := h.addAmongAttrs hcoh (.flow flow)
    unfold Assembly.placeFlow
    rw [hb]
    dsimp only
    have hfilled' : (b.addAmongAttrs (.flow flow)).slotFilled = true := by
      unfold Assembly.addAmongAttrs
      split <;> exact hfilled
    refine ⟨⟨(enter_entry ..).trans hstand.entry, (enter_attr ..).trans hstand.attr,
      .inr (.inr ⟨enter_context .., (enter_slotFilled ..).trans hfilled'⟩)⟩, fun hx => ?_⟩
    cases (enter_context ..).symm.trans hx

/-! ## 4. The end -/

/-- The value is all that is open at the end. -/
theorem Standing.closeValue (h : b.Standing) (hcoh : b.Coherent t) (stop : Nat) :
    (b.closeValue stop).attr = none ∧ (b.closeValue stop).tag = none
      ∧ (b.closeValue stop).comment = none := by
  obtain ⟨htag, hcomment⟩ := h.tag hcoh
  unfold Assembly.closeValue
  cases hv : b.value with
  | none => exact ⟨h.attr, htag, hcomment⟩
  | some value =>
    unfold Assembly.endValue Assembly.giveValue
    simp [hv, h.attr, htag, hcomment, addOut]

theorem Standing.closeDrafts (h : b.settleAtEnd.Standing) (hcoh : b.settleAtEnd.Coherent t) :
    b.closeDrafts = b.settleAtEnd.closeValue b.offset := by
  obtain ⟨hattr, htag, hcomment⟩ := h.closeValue hcoh b.offset
  rw [closeDrafts_eq, closeAnyAttr_of_eq_none hattr, closeTag_of_eq_none htag,
    closeAnyComment_of_eq_none hcomment]

/-- **A branch that goes on where it began has read no value.** -/
theorem Standing.endBranch (h : b.Standing) (hcoh : b.Coherent [])
    (hx : b.endBranch.context = .beforeAttrValue) : b.context = .beforeAttrValue := by
  have hsettle : b.settleAtEnd = b := by
    unfold Assembly.settleAtEnd
    obtain hb | ⟨quotes, hb⟩ | ⟨hb, -⟩ := h.place <;> rw [hb]
  have hclose : b.closeDrafts = b.closeValue b.offset := by
    rw [Standing.closeDrafts (by rwa [hsettle]) (by rwa [hsettle]), hsettle]
  have hend : b.endBranch.context = (b.closeValue b.offset).context := by
    unfold Assembly.endBranch
    split
    · rw [hclose]
    · exact (congrArg Assembly.context hclose :)
  rw [hend] at hx
  obtain hb | ⟨quotes, hb⟩ | ⟨hb, -⟩ := h.place
  · exact hb
  · obtain ⟨value, hv⟩ := h.value hcoh hb
    unfold Assembly.closeValue at hx
    rw [hv] at hx
    cases (enter_context ..).symm.trans hx
  · rw [closeValue_of_eq_none (hcoh.amongAttrs (.inl hb)).1] at hx
    exact hx

end Operations

end Assembly

end TemplateMarkup
