/-
# Attributes in a block of html

In a block of html, which begins between tags, every attribute ends up in a tag as long as no value
without quotes is ended in a branch that did not begin it (`Ledger.Quiet`).  `Assembly.Tidy` says
that no attribute is among the finished nodes and that none will get there with a tag.  It needs
`Assembly.Footed` to be kept: an attribute that ends has its tag, a value that ends its attribute.
-/
import TemplateMarkup.Proofs.Html.Footing

namespace TemplateMarkup

/-! ## 1. Tidy assemblies -/

/-- An attribute or the value of one. -/
def Node.isAttrPart : Node → Bool
  | .attr .. | .attrValue .. => true
  | _ => false

/-- In a block nothing stands for a tag or an attribute of the surroundings. -/
theorem Context.Surrounds.isSome {entry : Context} {tag : Option TagDraft} (h : entry.Surrounds tag)
    (he : entry.isContent = true) : tag.isSome = true := by
  cases tag with
  | some tag => rfl
  | none => cases entry <;> simp [Context.isContent] at he <;> cases h

theorem Context.Awaits.isSome {entry : Context} {attr : Option AttrDraft} (h : entry.Awaits attr)
    (he : entry.isContent = true) : attr.isSome = true := by
  cases attr with
  | some attr => rfl
  | none =>
    obtain rfl : entry = .beforeAttrValue := h
    cases he

/-- **No attribute and no value is among the finished nodes**, and none gets there with a tag: a
name is none, and in a close tag, whose children come after it, every attribute is dropped. -/
structure Assembly.Tidy (b : Assembly) : Prop where
  out : ∀ n ∈ b.out, n.isAttrPart = false
  name : ∀ t, b.tag = some t → ∀ n, t.name = some n → n.isAttrPart = false
  children : ∀ t, b.tag = some t → t.close = true → ∀ n ∈ t.children, n.isAttrPart = false
  drops : ∀ t, b.tag = some t → t.close = true → ∀ a, b.attr = some a → a.discard = true

namespace Assembly

variable {b : Assembly}

theorem tidy_start (l : Ledger) (entry : Context) (inBranch : Bool) (offset : Nat) :
    (start l entry inBranch offset).Tidy := ⟨nofun, nofun, nofun, nofun⟩

theorem Tidy.ledger (h : b.Tidy) (l : Ledger) : ({ b with ledger := l } : Assembly).Tidy :=
  ⟨h.out, h.name, h.children, h.drops⟩

theorem Tidy.enter (h : b.Tidy) (next : Context) (offset : Nat) : (b.enter next offset).Tidy := by
  unfold Assembly.enter
  split
  · exact h
  · exact ⟨h.out, h.name, h.children, h.drops⟩

theorem Tidy.report (h : b.Tidy) (location : Span) (fault : Fault) : (b.report location fault).Tidy :=
  h.ledger _

theorem Tidy.reportLexeme (h : b.Tidy) (location : Span) (l : Lexeme) :
    (b.reportLexeme location l).Tidy := by
  rw [reportLexeme_eq]
  exact h.ledger _

theorem Tidy.addOut (h : b.Tidy) {n : Node} (hn : n.isAttrPart = false) : (b.addOut n).Tidy where
  out := List.forall_mem_cons.mpr ⟨hn, h.out⟩
  name := h.name
  children := h.children
  drops := h.drops

/-- Content replaced by content with something else at its start. -/
theorem Tidy.setContent (h : b.Tidy) {nodes : List Node}
    (hn : ∀ n ∈ nodes, n.isAttrPart = false ∨ n ∈ b.content) : (b.setContent nodes).Tidy := by
  unfold Assembly.content at hn
  unfold Assembly.setContent
  split
  · exact ⟨h.out, h.name, h.children, h.drops⟩
  · exact ⟨h.out, h.name, h.children, h.drops⟩
  · next h1 h2 =>
    split at hn
    · next hb hv => exact (h1 _ _ hb hv).elim
    · next hb hc => exact (h2 _ hb hc).elim
    · exact ⟨fun n hm => (hn n hm).elim (fun hm => hm) (h.out n), h.name, h.children, h.drops⟩

theorem Tidy.addContent (h : b.Tidy) {n : Node} (hn : n.isAttrPart = false) :
    (b.addContent n).Tidy := by
  refine h.setContent fun m hm => ?_
  rcases List.mem_cons.mp hm with rfl | hm
  · exact Or.inl hn
  · exact Or.inr hm

theorem Tidy.addText (h : b.Tidy) (text : Text) (location : Span) :
    (b.addText text location).Tidy := by
  unfold Assembly.addText
  split
  · next hb =>
    refine h.setContent fun m hm => ?_
    rcases List.mem_cons.mp hm with rfl | hm
    · exact Or.inl rfl
    · exact Or.inr (hb ▸ List.mem_cons_of_mem _ hm)
  · exact (h.ledger _).addContent rfl

/-- A child of the open tag that is no attribute. -/
theorem Tidy.addAmongAttrs (h : b.Tidy) {n : Node} (hn : n.isAttrPart = false) :
    (b.addAmongAttrs n).Tidy := by
  unfold Assembly.addAmongAttrs
  split
  · next t ht =>
    refine ⟨h.out, fun _ ht' => ?_, fun _ ht' hc => ?_, fun _ ht' hc => ?_⟩
    · cases ht'
      exact h.name t ht
    · cases ht'
      exact List.forall_mem_cons.mpr ⟨hn, h.children t ht hc⟩
    · cases ht'
      exact h.drops t ht hc
  · exact h.addOut hn

/-! ## 2. Tags -/

theorem Tidy.openTag (h : b.Tidy) (close : Bool) (location : Span) (ha : b.attr = none) :
    (b.openTag close location).Tidy where
  out := h.out
  name := fun _ ht => by cases ht; exact nofun
  children := fun _ ht _ => by cases ht; exact nofun
  drops := fun _ _ _ a hb => by
    change b.attr = some a at hb
    rw [ha] at hb
    cases hb

/-- The open tag with other fields that do not matter here. -/
theorem Tidy.congrTag (h : b.Tidy) {t : TagDraft} (ht : b.tag = some t) (t' : TagDraft)
    (hc : t'.close = t.close) (hk : t'.children = t.children)
    (hn : ∀ n, t'.name = some n → n.isAttrPart = false) :
    ({ b with tag := some t' } : Assembly).Tidy := by
  refine ⟨h.out, fun _ ht' => ?_, fun _ ht' hclose => ?_, fun _ ht' hclose => ?_⟩
  · cases ht'
    exact hn
  · cases ht'
    rw [hk]
    exact h.children t ht (hc ▸ hclose)
  · cases ht'
    exact h.drops t ht (hc ▸ hclose)

theorem Tidy.addTagName (h : b.Tidy) (text : Text) (location : Span) :
    (b.addTagName text location).Tidy := by
  unfold Assembly.addTagName
  split
  · exact h
  · next t ht => exact h.congrTag ht _ rfl rfl (h.name t ht)

theorem Tidy.finishTagName (h : b.Tidy) : b.finishTagName.Tidy := by
  unfold Assembly.finishTagName
  split
  · exact h
  · next t ht =>
    split
    · exact (h.ledger b.ledger.drawn).congrTag ht _ rfl rfl fun n hn => by cases hn; rfl
    · exact h

/-- The assembly without its tag. -/
theorem Tidy.dropTag (h : b.Tidy) : ({ b with tag := none } : Assembly).Tidy :=
  ⟨h.out, nofun, nofun, nofun⟩

theorem Tidy.abortTag (h : b.Tidy) : b.abortTag.Tidy := by
  unfold Assembly.abortTag
  split
  · exact h
  · next t ht =>
    have htext := ((h.dropTag.enter t.outside t.start).addText
      ((if t.close then ['<', '/'] else ['<']) ++ t.nameText)
      (Span.upTo t.start t.nameLocation.stop))
    dsimp only
    split
    · next n hn => exact htext.addOut (h.name t ht n hn)
    · exact htext

theorem Tidy.closeTag (h : b.Tidy) (selfClosing : Bool) (stop : Nat) (bodyFollows : Bool) :
    (b.closeTag selfClosing stop bodyFollows).Tidy := by
  unfold Assembly.closeTag
  split
  · exact h
  · next t ht =>
    split
    · exact h.abortTag
    · next n hn =>
      dsimp only
      split
      · next hc =>
        have hout : ∀ m ∈ t.children
            ++ Node.closeTag b.ledger.ids.next (Span.upTo t.start stop) n :: b.out,
            m.isAttrPart = false :=
          List.forall_mem_append.mpr ⟨h.children t ht hc, List.forall_mem_cons.mpr ⟨rfl, h.out⟩⟩
        unfold Assembly.addCloseTag
        dsimp only
        refine Tidy.enter ?_ _ _
        split <;> split <;> exact ⟨hout, nofun, nofun, nofun⟩
      · exact (h.dropTag.ledger _).addOut (n := .openTag ..) rfl |>.enter _ _

/-! ## 3. Attributes, values and comments -/

theorem Tidy.openAttr (h : b.Tidy) (location : Span) (name : Option Node) (discard : Bool) :
    (b.openAttr location name discard).Tidy := by
  have hr : (b.reportAttr location).Tidy
      ∧ ∀ t, (b.reportAttr location).tag = some t → t.close = true → b.attrFault?.isSome = true := by
    unfold Assembly.reportAttr
    split
    · next hf =>
      refine ⟨h, fun t ht hc => ?_⟩
      simp [attrFault?, ht, hc] at hf
    · next hf _ => exact ⟨h.report _ _, fun _ _ _ => by rw [hf]; rfl⟩
    · next t hf ht =>
      split
      · exact ⟨h, fun _ _ _ => by rw [hf]; rfl⟩
      · exact ⟨(h.report _ _).congrTag ht _ rfl rfl (h.name t ht), fun _ _ _ => by rw [hf]; rfl⟩
  obtain ⟨hr, hfault⟩ := hr
  refine ⟨hr.out, hr.name, hr.children, fun t ht hc a ha => ?_⟩
  cases ha
  dsimp only
  rw [hfault t ht hc, Bool.or_true]

/-- The open attribute is another one, dropped if the first was. -/
theorem Tidy.congrAttr (h : b.Tidy) {attr : Option AttrDraft}
    (ha : ∀ a', attr = some a' → ∃ a, b.attr = some a ∧ (a.discard = true → a'.discard = true)) :
    ({ b with attr := attr } : Assembly).Tidy := by
  refine ⟨h.out, h.name, h.children, fun t ht hc a' ha' => ?_⟩
  obtain ⟨a, hb, hd⟩ := ha a' ha'
  exact hd (h.drops t ht hc a hb)

theorem Tidy.addAttrName (h : b.Tidy) (text : Text) (location : Span) :
    (b.addAttrName text location).Tidy := by
  unfold Assembly.addAttrName
  split
  · exact h
  · next a ha =>
    split
    · exact h
    · exact h.congrAttr fun _ ha' => by cases ha'; exact ⟨a, ha, fun hd => hd⟩

theorem Tidy.discardAttr (h : b.Tidy) : b.discardAttr.Tidy := by
  refine h.congrAttr fun a' ha' => ?_
  obtain ⟨a, hb, rfl⟩ := Option.map_eq_some_iff.mp ha'
  exact ⟨a, hb, fun _ => rfl⟩

theorem Tidy.finishAttrName (h : b.Tidy) : b.finishAttrName.Tidy := by
  unfold Assembly.finishAttrName
  split
  · exact h
  · next a ha =>
    split
    · exact (h.ledger _).congrAttr fun _ ha' => by cases ha'; exact ⟨a, ha, fun hd => hd⟩
    · exact h

theorem Tidy.dropAttr (h : b.Tidy) : ({ b with attr := none } : Assembly).Tidy :=
  h.congrAttr nofun

/-- The attribute goes into the tag that is open, and into no close tag. -/
theorem Tidy.addAttr (h : b.Tidy) {a : AttrDraft} (value : Option Node) (stop : Nat)
    (ht : b.tag.isSome = true) (ha : b.attr = none)
    (hd : ∀ t, b.tag = some t → t.close = true → a.discard = true) :
    (b.addAttr a value stop).Tidy := by
  obtain ⟨t, ht⟩ := Option.isSome_iff_exists.mp ht
  unfold Assembly.addAttr
  split
  · exact h
  · next hkeep =>
    split
    · exact h
    · simp only [Assembly.addAmongAttrs, ht]
      refine ⟨h.out, fun _ ht' => ?_, fun _ ht' hc => ?_, fun _ _ _ a' ha' => ?_⟩
      · cases ht'
        exact h.name t ht
      · cases ht'
        exact absurd (hd t ht hc) hkeep
      · rw [ha] at ha'
        cases ha'

theorem Tidy.endAttr (h : b.Tidy) (stop : Nat) (ht : b.tag.isSome = true) : (b.endAttr stop).Tidy := by
  have hf := h.finishAttrName
  have htag : b.finishAttrName.tag = b.tag := by
    unfold Assembly.finishAttrName
    split
    · rfl
    · split <;> rfl
  unfold Assembly.endAttr
  dsimp only
  split
  · exact hf
  · next a ha =>
    exact hf.dropAttr.addAttr none stop (htag ▸ ht) rfl fun t ht hc => hf.drops t ht hc a ha

theorem Tidy.giveValue (h : b.Tidy) (value : Node) (stop : Nat) (ht : b.tag.isSome = true)
    (ha : b.attr.isSome = true) : (b.giveValue value stop).Tidy := by
  obtain ⟨a, ha⟩ := Option.isSome_iff_exists.mp ha
  unfold Assembly.giveValue
  simp only [ha]
  exact h.dropAttr.addAttr _ _ ht rfl fun t ht hc => h.drops t ht hc a ha

theorem Tidy.setValue (h : b.Tidy) (value : Option ValueDraft) :
    ({ b with value := value } : Assembly).Tidy := ⟨h.out, h.name, h.children, h.drops⟩

theorem Tidy.setComment (h : b.Tidy) (comment : Option CommentDraft) :
    ({ b with comment := comment } : Assembly).Tidy := ⟨h.out, h.name, h.children, h.drops⟩

theorem Tidy.endValue (h : b.Tidy) (stop : Nat)
    (hb : b.value.isSome = true → b.tag.isSome = true ∧ b.attr.isSome = true) :
    (b.endValue stop).Tidy := by
  unfold Assembly.endValue
  split
  · exact h
  · next v hv =>
    obtain ⟨ht, ha⟩ := hb (by rw [hv]; rfl)
    exact ((h.setValue none).ledger _).giveValue _ _ ht ha

theorem Tidy.endComment (h : b.Tidy) (stop : Nat) : (b.endComment stop).Tidy := by
  unfold Assembly.endComment
  split
  · exact h
  · exact ((h.setComment none).ledger _).addOut (n := .comment ..) rfl

/-! ## 4. Reading -/

/-- A value that is open in a block has its attribute, and the attribute its tag. -/
theorem Footed.isSome_of_value (hf : b.Footed) (he : b.entry.isContent = true)
    (hv : b.value.isSome = true) : b.tag.isSome = true ∧ b.attr.isSome = true := by
  obtain ⟨v, hv⟩ := Option.isSome_iff_exists.mp hv
  obtain ⟨_, ht, ha, _⟩ := hf.of_value hv
  exact ⟨ht.isSome he, ha.isSome he⟩

theorem Footed.isSome_of_attrName {part : NamePart} {sep drop : Bool} (hf : b.Footed)
    (he : b.entry.isContent = true) (hb : b.context = .attrName part sep drop) :
    b.tag.isSome = true := (hf.of_attrName hb).1.isSome he

/-- **A mark leaves attributes where they belong.** -/
theorem Tidy.apply {c : Char} {l : Lexeme} {m : Mark} {text : Text} (location : Span) (h : b.Tidy)
    (hf : b.Footed) (he : b.entry.isContent = true) (hl : Context.Move b.context c l)
    (hm : l.mark = some m) : (b.apply m l.next text location).Tidy := by
  generalize hb : b.context = here at hl
  cases hl <;> cases hm <;> dsimp only [Assembly.apply]
  case openTag | closeRcdata =>
    exact (h.openTag _ _ (hf.closed (by rw [hb]; rfl)).2.2.1).enter _ _
  case openComment => exact (h.setComment _).enter _ _
  case closeComment =>
    split
    · exact (h.endComment _).enter _ _
    · exact (h.report _ _).addText _ _
  case nameChars => exact (h.addTagName _ _).enter _ _
  case abort =>
    split
    · exact h.abortTag
    · exact h.enter _ _
  case nameEnd | nameGlued => exact h.finishTagName.enter _ _
  case skipInTag | skipDropped | spoiled | skipBeforeValue =>
    refine Tidy.enter ?_ _ _
    split
    · exact h.discardAttr
    · exact h
  case endTag =>
    split
    · exact h.closeTag _ _ _
    · exact h.report _ _
  case attrStart | badAttr => exact (h.openAttr _ _ _).enter _ _
  case attrChar => exact (h.addAttrName _ _).enter _ _
  case equals => exact h.finishAttrName.enter _ _
  case attrEnd | attrGlued => exact (h.endAttr _ (hf.isSome_of_attrName he hb)).enter _ _
  case openQuoted | openBare => exact (h.setValue _).enter _ _
  case closeBare | closeQuoted =>
    split
    · exact (h.endValue _ (hf.isSome_of_value he)).enter _ _
    · split
      · exact (h.report _ _).enter _ _
      · exact (h.report _ _).addText _ _

/-- A block whose drafts are in their places, and whose attributes are where they belong. -/
structure InOrder (b : Assembly) : Prop where
  tidy : b.Tidy
  footed : b.Footed
  isBlock : b.entry.isContent = true

theorem InOrder.read {run : RawRun} {t : Text} (h : b.InOrder)
    (hq : (b.read run 0 none t).Quiet) : (b.read run 0 none t).InOrder := by
  refine ⟨?_, h.footed.read hq, by rw [(extends_read ..).entry]; exact h.isBlock⟩
  refine (read_rule (P := fun b' _ _ => b'.Quiet → b'.InOrder) ?_ ?_ ?_ (fun _ => h)
    (fun _ h => by cases h) hq).tidy
  · intro b' h c cs location offset hP hm hq
    have hq' := (extends_reportLexeme ..).quiet ((extends_enter ..).quiet hq)
    have hmove := Context.lexeme_move b'.context c cs
    rw [← reportLexeme_context b' location (b'.context.lexeme c cs)] at hmove
    have hfoot := Footed.enter_content offset
      ((hP hq').footed.reportLexeme location (b'.context.lexeme c cs)) hmove
      (by rw [reportLexeme_context]; exact hm)
    rw [reportLexeme_context] at hfoot
    refine ⟨((hP hq').tidy.reportLexeme _ _).enter _ _, hfoot, ?_⟩
    rw [enter_entry, (extends_reportLexeme ..).entry]
    exact (hP hq').isBlock
  · intro b' h t location hP _ _ hq
    have hP' := hP ((extends_addText ..).quiet hq)
    exact ⟨hP'.tidy.addText _ _, hP'.footed.addText _ _,
      by rw [(extends_addText ..).entry]; exact hP'.isBlock⟩
  · intro b' c cs m location place hP hm hq
    have hP' := hP ((extends_reportLexeme ..).quiet ((extends_apply ..).quiet hq))
    have hmove : Context.Move (b'.reportLexeme location (b'.context.lexeme c cs)).context c
        (b'.context.lexeme c cs) := by
      rw [reportLexeme_context]
      exact Context.lexeme_move ..
    have hentry : (b'.reportLexeme location (b'.context.lexeme c cs)).entry.isContent = true := by
      rw [(extends_reportLexeme ..).entry]
      exact hP'.isBlock
    have hfoot := hP'.footed.reportLexeme location (b'.context.lexeme c cs)
    refine ⟨(hP'.tidy.reportLexeme _ _).apply place hfoot hentry hmove hm,
      hfoot.apply place hmove hm hq, ?_⟩
    rw [(extends_apply ..).entry]
    exact hentry

theorem InOrder.readRun {run : RawRun} (h : b.InOrder) (hq : (b.readRun run).Quiet) :
    (b.readRun run).InOrder := by
  have := InOrder.read (b := { b with ledger := b.ledger.countRun }) (t := run.text)
    ⟨h.tidy.ledger _, h.footed, h.isBlock⟩ hq
  exact ⟨⟨this.tidy.out, this.tidy.name, this.tidy.children, this.tidy.drops⟩, this.footed,
    this.isBlock⟩

theorem InOrder.readCollected {run : Option RawRun} (h : b.InOrder)
    (hq : (b.readCollected run).Quiet) : (b.readCollected run).InOrder := by
  cases run with
  | none => exact h
  | some run => exact h.readRun hq

theorem InOrder.collect {run : Option RawRun} {text : Text} {location : Span} (h : b.InOrder)
    (hq : (b.collect run text location).1.Quiet) : (b.collect run text location).1.InOrder := by
  unfold Assembly.collect at hq ⊢
  split at hq
  · exact h
  · split at hq <;> rename_i hj
    · rw [if_pos hj]
      exact h
    · rw [if_neg hj]
      exact h.readRun hq

/-! ## 5. Placing and ends -/

theorem Tidy.placeContent (h : b.Tidy) {n : Node} (hn : n.isAttrPart = false) :
    (b.placeContent n).Tidy := by
  unfold Assembly.placeContent
  split
  · exact h.addContent hn
  · exact (h.addContent hn).enter _ _

theorem Tidy.placeInTag (h : b.Tidy) {n : Node} (hn : n.isAttrPart = false) :
    (b.placeInTag n).Tidy := by
  unfold Assembly.placeInTag
  split
  · exact (h.openAttr _ _ _).enter _ _
  · exact h.addAmongAttrs hn

theorem Tidy.placeTagName (h : b.Tidy) {n : Node} (hn : n.isAttrPart = false) :
    (b.placeTagName n).Tidy := by
  unfold Assembly.placeTagName
  split
  · refine Tidy.enter ?_ _ _
    split
    · next t ht => exact h.congrTag ht _ rfl rfl fun m hm => by cases hm; exact hn
    · exact h.addOut hn
  · exact (h.report _ _).abortTag.placeContent hn

theorem Tidy.placeBeforeValue (h : b.Tidy) {n : Node} (hn : n.isAttrPart = false) :
    (b.placeBeforeValue n).Tidy := by
  unfold Assembly.placeBeforeValue
  split
  · exact (h.setValue _).enter _ _
  · exact (h.setValue _).enter _ _
  · cases hn
  · exact h.addAmongAttrs hn

theorem Tidy.reportJoined (h : b.Tidy) (n : Node) : (b.reportJoined n).Tidy := by
  unfold Assembly.reportJoined
  split
  · exact h.report _ _
  · exact h

/-- **What is no attribute is placed, and attributes stay where they belong.** -/
theorem Tidy.place (h : b.Tidy) (hf : b.Footed) (he : b.entry.isContent = true) {n : Node}
    (hn : n.isAttrPart = false) : (b.place n).Tidy := by
  unfold Assembly.place
  split <;> rename_i hb
  case h_7 => exact h.placeTagName hn
  case h_8 => exact ((h.reportJoined n).finishTagName.enter _ _).placeInTag hn
  case h_9 => exact h.placeInTag hn
  case h_10 =>
    split
    · exact h
    · have ht := (hf.reportJoined n).isSome_of_attrName
        (by rw [(extends_reportJoined ..).entry]; exact he) ((reportJoined_context ..).trans hb)
      exact (((h.reportJoined n).endAttr _ ht).enter _ _).placeInTag hn
  case h_11 => exact h.placeBeforeValue hn
  all_goals exact h.placeContent hn

theorem Tidy.settle (h : b.Tidy) (hf : b.Footed) (he : b.entry.isContent = true)
    (location : Span) : (b.settle location).Tidy := by
  unfold Assembly.settle
  split <;> rename_i hb
  · exact (h.report _ _).abortTag
  · exact h.finishTagName.enter _ _
  · exact (h.endAttr _ (hf.isSome_of_attrName he hb)).enter _ _
  · exact h

theorem Tidy.placeFlow (h : b.Tidy) (hf : b.Footed) (he : b.entry.isContent = true) (flow : Flow)
    (exit : Context) : (b.placeFlow flow exit).Tidy := by
  unfold Assembly.placeFlow
  split <;> rename_i hb
  · obtain ⟨ht, ha, _, _⟩ := hf.of_beforeAttrValue hb
    split
    · exact (h.giveValue _ _ (ht.isSome he) (ha.isSome he)).enter _ _
    · exact (h.addAmongAttrs rfl).enter _ _
  · exact (h.addAmongAttrs rfl).enter _ _
  · exact (h.addContent rfl).enter _ _

/-- **When a block ends no attribute is among its nodes.** -/
theorem InOrder.closeDrafts (h : b.InOrder) : b.closeDrafts.Tidy := by
  have hsettle : b.settleAtEnd.Tidy := by
    unfold Assembly.settleAtEnd
    split <;> rename_i hb
    · exact h.tidy.abortTag
    · exact h.tidy.finishTagName.enter _ _
    · exact (h.tidy.endAttr _ (h.footed.isSome_of_attrName h.isBlock hb)).enter _ _
    · exact h.tidy
  obtain ⟨hfoot, hset⟩ := h.footed.settleAtEnd
  have he : b.settleAtEnd.entry.isContent = true := by
    rw [b.extends_settleAtEnd.entry]
    exact h.isBlock
  have hvalue : (b.settleAtEnd.closeValue b.offset).Tidy := by
    unfold Assembly.closeValue
    split
    · exact hsettle
    · exact (hsettle.endValue _ (hfoot.isSome_of_value he)).enter _ _
  have hfoot' := hfoot.closeValue b.offset
  have hset' := Assembly.isSettled_closeValue hset b.offset
  have hattr : ((b.settleAtEnd.closeValue b.offset).closeAnyAttr b.offset).Tidy := by
    unfold Assembly.closeAnyAttr
    split
    · next ha =>
      -- an attribute that is open here waits for its value
      have hb : (b.settleAtEnd.closeValue b.offset).tag.isSome = true := by
        have he' : (b.settleAtEnd.closeValue b.offset).entry.isContent = true := by
          rw [(extends_closeValue ..).entry]
          exact he
        obtain ⟨hv, _⟩ := b.settleAtEnd.closeValue_drafts b.offset
        generalize b.settleAtEnd.closeValue b.offset = b' at *
        obtain ⟨l, entry, here, inBranch, out, tag, attr, value, comment, filled, raw, off⟩ := b'
        dsimp only at ha hv hset' he' ⊢
        subst hv
        dsimp only [Footed] at hfoot'
        cases hfoot' with
        | attrName => simp [Context.isSettled] at hset'
        | beforeValue ht _ => exact ht.isSome he'
        | _ => cases ha
      exact (hvalue.endAttr _ hb).enter _ _
    · exact hvalue
  rw [closeDrafts_eq]
  unfold closeAnyComment
  split
  · exact ((hattr.closeTag _ _ _).endComment _).enter _ _
  · exact hattr.closeTag _ _ _

theorem InOrder.endBlock (h : b.InOrder) (block : BlockKind) : (b.endBlock block).Tidy := by
  unfold Assembly.endBlock Assembly.checkContext
  split
  · exact InOrder.closeDrafts ⟨h.tidy.report _ _, h.footed, h.isBlock⟩
  · exact h.closeDrafts

end Assembly

/-! ## 6. The pass -/

theorem feedNode_inOrder (n : Node) {b : Assembly} (h : b.InOrder) (hn : n.isAttrPart = false)
    (hq : (feedNode b n).Quiet) : (feedNode b n).InOrder := by
  refine ⟨?_, feedNode_footed n b h.footed hq, by rw [(feedNode_extends n b).entry]; exact h.isBlock⟩
  have reach {b' : Assembly} (h' : b'.Tidy) (offset : Nat) : (b'.reach offset).Tidy :=
    ⟨h'.out, h'.name, h'.children, h'.drops⟩
  cases n with
  | call id location callee params =>
    rw [feedNode]
    exact reach ((h.tidy.ledger (rewriteParams b.ledger params).2).place (h.footed.ledger _)
      h.isBlock (n := .call _ _ _ _) rfl) _
  | binding id location var value =>
    rw [feedNode]
    exact reach ((h.tidy.ledger (rewriteValue b.ledger .letContent location value).2).place
      (h.footed.ledger _) h.isBlock (n := .binding _ _ _ _) rfl) _
  | flow flow =>
    rw [feedNode]
    refine reach (Assembly.Tidy.placeFlow ?_ ?_ ?_ _ _) _
    · exact (h.tidy.settle h.footed h.isBlock _).ledger _
    · exact (h.footed.settle _).1.ledger _
    · change (b.settle flow.location).entry.isContent = true
      rw [(Assembly.extends_settle ..).entry]
      exact h.isBlock
  | attr | attrValue => cases hn
  | _ =>
    rw [feedNode]
    exact reach (h.tidy.place h.footed h.isBlock rfl) _
    all_goals simp

/-- **Along a quiet run attributes stay where they belong.** -/
theorem feedNodes_inOrder (nodes : List Node) : ∀ {b : Assembly} {run : Option RawRun}, b.InOrder →
    (∀ n ∈ nodes, n.isAttrPart = false) → (feedNodes b run nodes).Quiet →
    (feedNodes b run nodes).InOrder := by
  induction nodes with
  | nil =>
    intro b run h _ hq
    rw [feedNodes] at hq ⊢
    exact h.readCollected hq
  | cons n nodes ih =>
    intro b run h hn hq
    rw [feedNodes] at hq ⊢
    obtain ⟨hn, hnodes⟩ := List.forall_mem_cons.mp hn
    cases ht : n.rawText? with
    | some text =>
      simp only [ht] at hq ⊢
      exact ih (h.collect ((feedNodes_extends nodes _ _).quiet hq)) hnodes hq
    | none =>
      simp only [ht] at hq ⊢
      have hq' := (feedNodes_extends nodes _ _).quiet hq
      have hread := h.readCollected ((feedNode_extends n _).quiet hq')
      exact ih (feedNode_inOrder n hread hn hq') hnodes hq

end TemplateMarkup
