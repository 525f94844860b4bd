/-
# What branches in a tag give

A branch that stands for a value gives one, or none if it goes on where it began
(`Assembly.Giving`); a branch among attributes gives none (`Assembly.Barren`).  So control flow in
whose place a value is due either goes on in the tag, and then every branch gives one value, or goes
on where it stands, and then nothing in it gives any (`rewriteFlow_supplies`).

Behind its value a branch stands in the tag, where no attribute may begin.  But control flow may
stand there, and its branches do not know of the value: among them an attribute may.
-/
import TemplateMarkup.Proofs.Html.Again
import TemplateMarkup.Proofs.Html.Sequenced
import TemplateMarkup.Proofs.Template.Written
import TemplateMarkup.Proofs.Tree.Supply

namespace TemplateMarkup

/-! ## 1. Contexts -/

/-- What control flow gives that leads from one context to another. -/
def Context.Supplies : Context → Context → Node → Prop
  | .beforeAttrName, _, n => n.givesValue = false
  | .beforeAttrValue, .beforeAttrValue, n => n.Idle
  | .beforeAttrValue, _, n => n.Gives
  | _, _, _ => True

/-- What the nodes of a branch give, the latest first, that leads from one context to another. -/
def Context.SuppliesAll : Context → Context → List Node → Prop
  | .beforeAttrName, _, out => ∀ n ∈ out, n.givesValue = false
  | .beforeAttrValue, .beforeAttrValue, out => ∀ n ∈ out, n.Idle
  | .beforeAttrValue, _, out => Given out
  | _, _, _ => True

theorem Context.supplies_of_isInTag {entry exit : Context} {n : Node}
    (h : entry.isInTag = false) : entry.Supplies exit n := by
  cases entry <;> trivial

/-- **Control flow gives what its branches give**, if there is one where the context changes. -/
theorem Context.supplies_flow {entry exit : Context} {branches : List Branch} (id : NodeId)
    (location : Span) (head : FlowHead) (hne : exit ≠ entry → branches ≠ [])
    (h : ∀ branch ∈ branches, entry.SuppliesAll exit branch.nodes.reverse) :
    entry.Supplies exit (.flow ⟨id, location, head, branches⟩) := by
  cases entry with
  | beforeAttrName =>
    exact givesValue_flow id location head fun branch hb n hn =>
      h branch hb n (List.mem_reverse.mpr hn)
  | beforeAttrValue =>
    cases exit with
    | beforeAttrValue =>
      exact idle_flow id location head fun branch hb n hn => h branch hb n (List.mem_reverse.mpr hn)
    | _ => exact gives_flow id location head (hne nofun) h
  | _ => trivial

/-- A node of the source that is not control flow is idle. -/
theorem Node.idle_of_isWritten {n : Node} (h : n.isWritten = true) (hf : n.isFlow = false) :
    n.Idle := by
  cases n <;> first | exact ⟨rfl, rfl⟩ | (cases h; done) | cases hf

namespace Assembly

/-! ## 2. A branch that stands for a value -/

/-- **A branch that stands for a value** has idle nodes until it has given one. -/
structure Giving (b : Assembly) : Prop extends b.Standing where
  idle : b.context ≠ .beforeAttrName → ∀ n ∈ b.out, n.Idle
  given : b.context = .beforeAttrName → Given b.out

theorem giving_start (l : Ledger) (inBranch : Bool) (offset : Nat) :
    (start l .beforeAttrValue inBranch offset).Giving :=
  ⟨standing_start .., fun _ => nofun, nofun⟩

theorem addAmongAttrs_out {b : Assembly} (h : b.tag = none) (n : Node) :
    (b.addAmongAttrs n).out = n :: b.out := by
  unfold addAmongAttrs
  rw [h]
  rfl

/-- What goes into a value is not among the finished nodes. -/
theorem setContent_out {b : Assembly} {quotes : Quotes} {value : ValueDraft}
    (hb : b.context = .attrValue quotes) (hv : b.value = some value) (nodes : List Node) :
    (b.setContent nodes).out = b.out := by
  unfold setContent
  rw [hb, hv]

theorem addText_out {b : Assembly} {quotes : Quotes} {value : ValueDraft}
    (hb : b.context = .attrValue quotes) (hv : b.value = some value) (text : Text)
    (location : Span) : (b.addText text location).out = b.out := by
  unfold addText
  split
  · exact setContent_out hb hv _
  · exact setContent_out (b := { b with ledger := b.ledger.drawn }) hb hv _

section Giving

variable {b b' : Assembly} {t : Text} {n : Node}

/-- The finished nodes stay as they are. -/
theorem Giving.keep (h : b.Giving) (hs : b'.Standing) (hout : b'.out = b.out)
    (hb : b'.context = .beforeAttrName ↔ b.context = .beforeAttrName) : b'.Giving where
  toStanding := hs
  idle hx := hout ▸ h.idle fun hb' => hx (hb.mpr hb')
  given hx := hout ▸ h.given (hb.mp hx)

/-- A node is added that gives no value. -/
theorem Giving.add (h : b.Giving) (hs : b'.Standing) (hout : b'.out = n :: b.out)
    (hidle : b.context ≠ .beforeAttrName → n.Idle) (htrails : n.Trails)
    (hb : b'.context = .beforeAttrName ↔ b.context = .beforeAttrName) : b'.Giving where
  toStanding := hs
  idle hx := by
    have hx' := fun hb' => hx (hb.mpr hb')
    rw [hout]
    exact List.forall_mem_cons.mpr ⟨hidle hx', h.idle hx'⟩
  given hx := by
    rw [hout]
    exact (h.given (hb.mp hx)).cons htrails

/-- The value is given. -/
theorem Giving.give (h : b.Giving) (hs : b'.Standing) (hout : b'.out = n :: b.out) (hn : n.Gives)
    (hb : b.context ≠ .beforeAttrName) (hb' : b'.context = .beforeAttrName) : b'.Giving where
  toStanding := hs
  idle hx := absurd hb' hx
  given _ := by
    rw [hout]
    exact given_cons hn (h.idle hb)

theorem Giving.ledger (h : b.Giving) (l : Ledger) : ({ b with ledger := l } : Assembly).Giving :=
  h.keep (h.toStanding.ledger l) rfl Iff.rfl

theorem Giving.reach (h : b.Giving) (offset : Nat) : (b.reach offset).Giving :=
  h.keep (h.toStanding.reach offset) rfl Iff.rfl

/-- The branch gives the value it has read. -/
theorem Giving.endValue {value : ValueDraft} (h : b.Giving) (hv : b.value = some value)
    (hb : b.context ≠ .beforeAttrName) (stop offset : Nat) :
    ((b.endValue stop).enter .beforeAttrName offset).Giving := by
  refine h.give (n := .attrValue b.ledger.ids.next (Span.upTo value.start stop) value.quotes
    value.children.reverse) (h.toStanding.endValue hv stop offset) ?_ ⟨rfl, fun _ => rfl⟩ hb
    (enter_context ..)
  rw [enter_out]
  unfold Assembly.endValue Assembly.giveValue
  simp only [hv, h.attr]
  rfl

/-- A value is begun. -/
theorem Giving.openValue (h : b.Giving) (hb : b.context ≠ .beforeAttrName) (value : ValueDraft)
    (quotes : Quotes) (offset : Nat) :
    ({ b with value := some value }.enter (.attrValue quotes) offset).Giving := by
  refine h.keep (h.toStanding.openValue value quotes offset) (enter_out ..) ?_
  rw [enter_context]
  exact ⟨fun hx => (by cases hx), fun hx => absurd hx hb⟩

/-- **A mark goes from waiting to reading, or from reading to having.** -/
theorem Giving.apply {c : Char} {text : Text} {l : Lexeme} {m : Mark} (location : Span)
    (h : b.Giving) (hcoh : b.Coherent t) (hl : Context.Move b.context c l) (hm : l.mark = some m)
    (hf : l.fault = none) (hc : (b.apply m l.next text location).Clean) :
    (b.apply m l.next text location).Giving := by
  have hstand := (h.toStanding.apply location hcoh hl hm hf hc).1
  obtain hb | ⟨quotes, hb⟩ | ⟨hb, -⟩ := h.place
  · have hne : b.context ≠ .beforeAttrName := by simp [hb]
    rw [hb] at hl
    cases hl <;> cases hm
    case inl.skipBeforeValue.refl =>
      refine h.keep hstand ?_ ?_ <;>
        simp only [Assembly.apply, Context.discards, Bool.false_and, Bool.false_eq_true, if_false]
      · exact enter_out ..
      · rw [enter_context, hb]
    all_goals exact h.openValue hne _ _ _
  · obtain ⟨value, hvalue⟩ := h.toStanding.value hcoh hb
    rw [hb] at hl
    cases hl <;> cases hm
    all_goals
      simp only [Assembly.apply, hvalue]
      exact h.endValue hvalue (by simp [hb]) _ _
  · have hopen := h.toStanding.not_clean_openAttr hcoh hb
    rw [hb] at hl
    cases hl <;> cases hm
    case inr.inr.skipInTag.refl =>
      refine h.keep hstand ?_ ?_ <;>
        simp only [Assembly.apply, Context.discards, Bool.false_and, Bool.false_eq_true, if_false]
      · exact enter_out ..
      · rw [enter_context, hb]
    case inr.inr.endTag.refl =>
      simp only [Assembly.apply, (h.tag hcoh).1] at hc
      exact absurd hc (not_clean_report _ _ _)
    case inr.inr.attrStart.refl => exact absurd ((extends_enter ..).clean hc) (hopen _ _ _)
    case inr.inr.badAttr.refl => cases hf

/-- A node that is no control flow is placed where the branch stands. -/
theorem Giving.place_node (h : b.Giving) (hcoh : b.Coherent []) (hn : n.Idle)
    (hc : (b.place n).Clean) : (b.place n).Giving := by
  have hstand := (h.toStanding.place_node hcoh hc).1
  have hadd := addAmongAttrs_out (h.tag hcoh).1 n
  obtain hb | ⟨quotes, hb⟩ | ⟨hb, -⟩ := h.place
  · have hne : b.context ≠ .beforeAttrName := by simp [hb]
    have hplace : b.place n = b.placeBeforeValue n := by
      unfold Assembly.place
      rw [hb]
    rw [hplace] at hstand ⊢
    unfold Assembly.placeBeforeValue at hstand ⊢
    cases n with
    | print | call => exact h.openValue hne _ _ _
    | attrValue => cases hn.1
    | _ =>
      refine h.add hstand hadd (fun _ => hn) hn.trails ?_
      rw [addAmongAttrs_context]
  · obtain ⟨value, hvalue⟩ := h.toStanding.value hcoh hb
    have hplace : b.place n = b.addContent n := by
      unfold Assembly.place placeContent
      rw [hb]
      dsimp only
      rw [contextAfter?_eq_none (by simp) (by simp)]
    rw [hplace] at hstand ⊢
    refine h.keep hstand (setContent_out hb hvalue _) ?_
    rw [addContent_context]
  · have hplace : b.place n = b.placeInTag n := by
      unfold Assembly.place
      rw [hb]
    rw [hplace] at hc hstand ⊢
    unfold placeInTag at hc hstand ⊢
    split at hc
    · exact absurd ((extends_enter ..).clean hc) (h.toStanding.not_clean_openAttr hcoh hb _ _ _)
    · next hp =>
      rw [if_neg hp] at hstand ⊢
      refine h.add hstand hadd (fun _ => hn) hn.trails ?_
      rw [addAmongAttrs_context]

/-- **Control flow gives the value, or stands where the branch stands.** -/
theorem Giving.placeFlow {flow : Flow} {exit : Context} (h : b.Giving) (hcoh : b.Coherent [])
    (hl : Context.Leads b.context exit) (hflow : b.context.Supplies exit (.flow flow)) :
    (b.placeFlow flow exit).Giving := by
  have hstand := (h.toStanding.placeFlow flow hcoh hl).1
  have hadd := addAmongAttrs_out (h.tag hcoh).1 (.flow flow)
  have hsame : ((b.addAmongAttrs (.flow flow)).enter exit flow.location.start).out
      = .flow flow :: b.out := (enter_out ..).trans hadd
  obtain hb | ⟨quotes, hb⟩ | ⟨hb, -⟩ := h.place <;> rw [hb] at hl hflow
  · have hne : b.context ≠ .beforeAttrName := by simp [hb]
    unfold Assembly.placeFlow at hstand ⊢
    rw [hb] at hstand ⊢
    dsimp only at hstand ⊢
    rcases hl with rfl | rfl
    · have hidle : (Node.flow flow).Idle := hflow
      refine h.add hstand hsame (fun _ => hidle) hidle.trails ?_
      rw [if_neg nofun, enter_context, hb]
    · refine h.give hstand (n := .flow flow) ?_ hflow hne ?_ <;> rw [if_pos rfl]
      · unfold Assembly.fillSlot Assembly.giveValue
        rw [enter_out, h.attr]
        rfl
      · exact enter_context ..
  · obtain ⟨value, hvalue⟩ := h.toStanding.value hcoh hb
    obtain rfl : exit = .attrValue quotes := hl
    unfold Assembly.placeFlow at hstand ⊢
    rw [hb] at hstand ⊢
    refine h.keep hstand ((enter_out ..).trans (setContent_out hb hvalue _)) ?_
    dsimp only
    rw [enter_context, hb]
  · obtain rfl : exit = .beforeAttrName := hl
    unfold Assembly.placeFlow at hstand ⊢
    rw [hb] at hstand ⊢
    refine h.add hstand hsame (fun hne => absurd hb hne) ⟨hflow, rfl⟩ ?_
    dsimp only
    rw [enter_context, hb]

/-- **The branch gives a value if it goes on in the tag**, and else nothing in it gives one. -/
theorem Giving.endBranch (h : b.Giving) (hcoh : b.Coherent []) (hc : b.endBranch.Clean) :
    Context.SuppliesAll .beforeAttrValue b.endBranch.context b.endBranch.out := by
  have hsettle : b.settleAtEnd = b := by
    unfold Assembly.settleAtEnd
    obtain hb | ⟨quotes, hb⟩ | ⟨hb, -⟩ := h.place <;> rw [hb]
  have hclose : b.endBranch = b.closeValue b.offset := by
    rw [(endBranch_of_clean hc).1, Standing.closeDrafts (by rw [hsettle]; exact h.toStanding)
      (by rwa [hsettle]), hsettle]
  rw [hclose]
  obtain hb | ⟨quotes, hb⟩ | ⟨hb, -⟩ := h.place
  · rw [closeValue_of_eq_none (hcoh.amongAttrs (.inr (.inl hb))).1, hb]
    exact h.idle (by simp [hb])
  · obtain ⟨value, hv⟩ := h.toStanding.value hcoh hb
    have hend := h.endValue hv (by simp [hb]) b.offset b.offset
    unfold Assembly.closeValue
    rw [hv]
    have hx : ((b.endValue b.offset).enter .beforeAttrName b.offset).context = .beforeAttrName :=
      enter_context ..
    rw [hx]
    exact hend.given hx
  · rw [closeValue_of_eq_none (hcoh.amongAttrs (.inl hb)).1, hb]
    exact h.given hb

end Giving

/-! ## 3. A branch among attributes -/

/-- **A branch among attributes** gives no value. -/
structure Barren (b : Assembly) : Prop where
  entry : b.entry = .beforeAttrName
  out : ∀ n ∈ b.out, n.givesValue = false

theorem barren_start (l : Ledger) (inBranch : Bool) (offset : Nat) :
    (start l .beforeAttrName inBranch offset).Barren := ⟨rfl, nofun⟩

section Barren

variable {b b' : Assembly} {t : Text} {n : Node}

/-- It stands among attributes, and opens no tag and no comment. -/
theorem Barren.among (h : b.Barren) (hcoh : b.Coherent t) :
    b.context.isAmongAttrs = true ∧ b.tag = none ∧ b.comment = none :=
  hcoh.of_isInTag (by rw [h.entry]; rfl)

/-- A value that is read belongs to an attribute. -/
theorem Barren.value {quotes : Quotes} (h : b.Barren) (hcoh : b.Coherent t)
    (hb : b.context = .attrValue quotes) : b.attr.isSome = true ∧ ∃ v, b.value = some v := by
  obtain hentry | ⟨hvalue, hattr⟩ := hcoh.of_value hb
  · cases h.entry.symm.trans hentry
  · exact ⟨hattr (by rw [h.entry]; nofun), Option.isSome_iff_exists.mp hvalue⟩

/-- The value that is due belongs to an attribute. -/
theorem Barren.slot (h : b.Barren) (hcoh : b.Coherent t) (hb : b.context = .beforeAttrValue) :
    b.attr.isSome = true := by
  have hentry := h.entry
  obtain ⟨ledger, entry, here, inBranch, out, tag, attr, value, comment, filled, raw, off⟩ := b
  dsimp only at hb hentry
  subst hb hentry
  dsimp only [Coherent] at hcoh ⊢
  cases hcoh with
  | content he => cases he
  | @beforeValue _ attr _ _ ha =>
    cases attr with
    | none => cases ha
    | some attr => rfl

/-- The finished nodes stay as they are. -/
theorem Barren.keep (h : b.Barren) (he : b'.entry = b.entry) (hout : b'.out = b.out) : b'.Barren :=
  ⟨he.trans h.entry, hout ▸ h.out⟩

theorem Barren.ledger (h : b.Barren) (l : Ledger) : ({ b with ledger := l } : Assembly).Barren :=
  h.keep rfl rfl

theorem Barren.reach (h : b.Barren) (offset : Nat) : (b.reach offset).Barren := h.keep rfl rfl

theorem Barren.enter (h : b.Barren) (next : Context) (offset : Nat) :
    (b.enter next offset).Barren := h.keep (enter_entry ..) (enter_out ..)

theorem Barren.addAmongAttrs (h : b.Barren) (hn : n.givesValue = false) :
    (b.addAmongAttrs n).Barren := by
  unfold Assembly.addAmongAttrs
  split
  · exact h.keep rfl rfl
  · exact ⟨h.entry, List.forall_mem_cons.mpr ⟨hn, h.out⟩⟩

/-- The assembly without its attribute. -/
theorem Barren.dropAttr (h : b.Barren) : ({ b with attr := none } : Assembly).Barren :=
  h.keep rfl rfl

/-- A value is begun or ended. -/
theorem Barren.setValue (h : b.Barren) (value : Option ValueDraft) :
    ({ b with value := value } : Assembly).Barren := h.keep rfl rfl

theorem Barren.addAttr (h : b.Barren) (attr : AttrDraft) (value : Option Node) (stop : Nat) :
    (b.addAttr attr value stop).Barren := by
  unfold Assembly.addAttr
  split
  · exact h
  · split
    · exact h
    · exact (h.ledger _).addAmongAttrs rfl

theorem Barren.openAttr (h : b.Barren) (location : Span) (name : Option Node) (discard : Bool) :
    (b.openAttr location name discard).Barren := by
  unfold Assembly.openAttr reportAttr
  split
  · exact h.keep rfl rfl
  · exact h.keep rfl rfl
  · split <;> exact h.keep rfl rfl

theorem Barren.addAttrName (h : b.Barren) (text : Text) (location : Span) :
    (b.addAttrName text location).Barren := by
  unfold Assembly.addAttrName
  split
  · exact h
  · split
    · exact h
    · exact h.keep rfl rfl

theorem Barren.finishAttrName (h : b.Barren) : b.finishAttrName.Barren := by
  unfold Assembly.finishAttrName
  split
  · exact h
  · split
    · exact h.keep rfl rfl
    · exact h

theorem Barren.endAttr (h : b.Barren) (stop : Nat) : (b.endAttr stop).Barren := by
  unfold Assembly.endAttr
  dsimp only
  split
  · exact h.finishAttrName
  · exact h.finishAttrName.dropAttr.addAttr ..

theorem Barren.closeAttr (h : b.Barren) (stop : Nat) : (b.closeAttr stop).Barren :=
  (h.endAttr stop).enter _ _

/-- A value goes to its attribute. -/
theorem Barren.giveValue (h : b.Barren) (ha : b.attr.isSome = true) (value : Node) (stop : Nat) :
    (b.giveValue value stop).Barren := by
  obtain ⟨attr, hattr⟩ := Option.isSome_iff_exists.mp ha
  unfold Assembly.giveValue
  rw [hattr]
  exact h.dropAttr.addAttr ..

theorem Barren.endValue (h : b.Barren) (ha : b.attr.isSome = true) (stop : Nat) :
    (b.endValue stop).Barren := by
  unfold Assembly.endValue
  split
  · exact h
  · exact Barren.giveValue ((h.ledger _).setValue none) ha _ _

/-- **No mark gives a value** beside the attributes. -/
theorem Barren.apply {c : Char} {text : Text} {l : Lexeme} {m : Mark} (location : Span)
    (h : b.Barren) (hcoh : b.Coherent t) (hl : Context.Move b.context c l)
    (hm : l.mark = some m) : (b.apply m l.next text location).Barren := by
  obtain ⟨hamong, htag, -⟩ := h.among hcoh
  have hvalue : ∀ quotes, b.context = .attrValue quotes →
      b.attr.isSome = true ∧ ∃ v, b.value = some v := fun _ => h.value hcoh
  generalize b.context = here at hl hamong hvalue
  cases hl <;> cases hm <;> first | (cases hamong; done) | skip
  all_goals dsimp only [Assembly.apply]
  case skipInTag | skipDropped | spoiled | skipBeforeValue =>
    refine Barren.enter ?_ _ _
    split <;> exact h.keep rfl rfl
  case endTag =>
    rw [htag]
    exact h.keep rfl rfl
  case attrStart | badAttr => exact (h.openAttr ..).enter _ _
  case attrChar => exact (h.addAttrName ..).enter _ _
  case equals => exact h.finishAttrName.enter _ _
  case attrEnd | attrGlued => exact (h.endAttr _).enter _ _
  case openQuoted | openBare => exact (h.setValue _).enter _ _
  case closeBare | closeQuoted =>
    obtain ⟨hattr, v, hv⟩ := hvalue _ rfl
    rw [hv]
    exact (h.endValue hattr _).enter _ _

theorem Barren.placeInTag (h : b.Barren) (hn : n.Idle) : (b.placeInTag n).Barren := by
  unfold Assembly.placeInTag
  split
  · exact (h.openAttr ..).enter _ _
  · exact h.addAmongAttrs hn.1

theorem Barren.placeBeforeValue (h : b.Barren) (hn : n.Idle) : (b.placeBeforeValue n).Barren := by
  unfold Assembly.placeBeforeValue
  split
  · exact (h.setValue _).enter _ _
  · exact (h.setValue _).enter _ _
  · cases hn.1
  · exact h.addAmongAttrs hn.1

theorem Barren.place (h : b.Barren) (hcoh : b.Coherent []) (hn : n.Idle) : (b.place n).Barren := by
  obtain ⟨hamong, -⟩ := h.among hcoh
  unfold Assembly.place
  cases hb : b.context with
  | beforeAttrName => exact h.placeInTag hn
  | beforeAttrValue => exact h.placeBeforeValue hn
  | attrName part sep drop =>
    have hjoined : (b.reportJoined n).Barren := by
      unfold reportJoined
      split
      · exact h.keep rfl rfl
      · exact h
    dsimp only
    split
    · exact h
    · exact (hjoined.closeAttr _).placeInTag hn
  | attrValue quotes =>
    obtain ⟨-, v, hv⟩ := h.value hcoh hb
    dsimp only
    unfold Assembly.placeContent
    rw [hb, contextAfter?_eq_none (by simp) (by simp)]
    exact h.keep (setContent_entry ..) (setContent_out hb hv _)
  | _ =>
    rw [hb] at hamong
    cases hamong

theorem Barren.placeFlow {flow : Flow} {exit : Context} (h : b.Barren) (hcoh : b.Coherent [])
    (hl : Context.Leads b.context exit) (hflow : b.context.Supplies exit (.flow flow)) :
    (b.placeFlow flow exit).Barren := by
  obtain ⟨hamong, -⟩ := h.among hcoh
  unfold Assembly.placeFlow
  cases hb : b.context with
  | beforeAttrName =>
    rw [hb] at hflow
    exact (h.addAmongAttrs hflow).enter _ _
  | beforeAttrValue =>
    rw [hb] at hl hflow
    dsimp only
    split
    · exact (h.giveValue (h.slot hcoh hb) _ _).enter _ _
    · next hx =>
      obtain rfl := hl.resolve_right hx
      exact (h.addAmongAttrs hflow.1).enter _ _
  | attrValue quotes =>
    obtain ⟨-, v, hv⟩ := h.value hcoh hb
    exact Barren.enter (h.keep (setContent_entry ..) (setContent_out hb hv _)) _ _
  | attrName part sep drop =>
    rw [hb] at hl
    exact hl.elim
  | _ =>
    rw [hb] at hamong
    cases hamong

/-- The name of an attribute ends. -/
theorem Barren.settle (h : b.Barren) (hcoh : b.Coherent t) (location : Span) :
    (b.settle location).Barren := by
  obtain ⟨hamong, -⟩ := h.among hcoh
  unfold Assembly.settle
  cases hb : b.context with
  | tagName =>
    rw [hb] at hamong
    cases hamong
  | attrName => exact h.closeAttr _
  | _ => exact h

theorem Barren.settleAtEnd (h : b.Barren) (hcoh : b.Coherent t) : b.settleAtEnd.Barren := by
  obtain ⟨hamong, -⟩ := h.among hcoh
  unfold Assembly.settleAtEnd
  cases hb : b.context with
  | tagName =>
    rw [hb] at hamong
    cases hamong
  | attrName => exact h.closeAttr _
  | _ => exact h

theorem Barren.closeValue (h : b.Barren) (hcoh : b.Coherent t) (stop : Nat) :
    (b.closeValue stop).Barren := by
  unfold Assembly.closeValue
  cases hv : b.value with
  | none => exact h
  | some value => exact (h.endValue (h.value hcoh (hcoh.of_value_eq_some hv)).1 stop).enter _ _

theorem Barren.closeAnyAttr (h : b.Barren) (stop : Nat) : (b.closeAnyAttr stop).Barren := by
  unfold Assembly.closeAnyAttr
  split
  · exact h.closeAttr _
  · exact h

/-- **At the end the branch has given nothing.** -/
theorem Barren.endBranch (h : b.Barren) (hcoh : b.Coherent []) (hc : b.endBranch.Clean) :
    ∀ n ∈ b.endBranch.out, n.givesValue = false := by
  obtain ⟨hcoh', hset⟩ := hcoh.settleAtEnd
  have hvalue := (h.settleAtEnd hcoh).closeValue hcoh' b.offset
  have hattr := hvalue.closeAnyAttr b.offset
  obtain ⟨-, htag, hcomment⟩ := hattr.among ((hcoh'.closeValue b.offset).closeAnyAttr
    (isSettled_closeValue hset b.offset) (closeValue_drafts _ b.offset).1 b.offset)
  rw [(endBranch_of_clean hc).1, closeDrafts_eq, closeTag_of_eq_none htag,
    closeAnyComment_of_eq_none hcomment]
  exact hattr.out

end Barren

/-! ## 4. A branch in a tag -/

/-- A branch in a tag stands for a value, or among attributes. -/
def Supplying (b : Assembly) : Prop := b.Giving ∨ b.Barren

theorem supplying_start (l : Ledger) {entry : Context} (he : entry.isInTag = true)
    (inBranch : Bool) (offset : Nat) : (start l entry inBranch offset).Supplying := by
  cases entry with
  | beforeAttrName => exact .inr (barren_start ..)
  | beforeAttrValue => exact .inl (giving_start ..)
  | _ => cases he

section Supplying

variable {b : Assembly} {t : Text}

theorem Supplying.ledger (h : b.Supplying) (l : Ledger) :
    ({ b with ledger := l } : Assembly).Supplying := h.imp (·.ledger l) (·.ledger l)

theorem Supplying.reach (h : b.Supplying) (offset : Nat) : (b.reach offset).Supplying :=
  h.imp (·.reach offset) (·.reach offset)

theorem Supplying.among (h : b.Supplying) (hcoh : b.Coherent t) :
    b.context.isAmongAttrs = true := by
  rcases h with h | h
  · obtain hx | ⟨quotes, hx⟩ | ⟨hx, -⟩ := h.place <;> rw [hx] <;> rfl
  · exact (h.among hcoh).1

/-- Only in a value is text content. -/
theorem Supplying.value (h : b.Supplying) (hcoh : b.Coherent t)
    (hb : b.context.holdsText = true) :
    ∃ quotes value, b.context = .attrValue quotes ∧ b.value = some value := by
  obtain ⟨quotes, hx⟩ : ∃ quotes, b.context = .attrValue quotes := by
    have hamong := h.among hcoh
    cases hx : b.context with
    | attrValue quotes => exact ⟨quotes, rfl⟩
    | _ =>
      rw [hx] at hb hamong
      first | (cases hb; done) | cases hamong
  refine ⟨quotes, ?_⟩
  rcases h with h | h
  · obtain ⟨value, hv⟩ := h.toStanding.value hcoh hx
    exact ⟨value, hx, hv⟩
  · obtain ⟨-, value, hv⟩ := h.value hcoh hx
    exact ⟨value, hx, hv⟩

/-- Text in a value gives nothing. -/
theorem Supplying.addText (h : b.Supplying) (hcoh : b.Coherent t)
    (hb : b.context.holdsText = true) (text : Text) (location : Span) :
    (b.addText text location).Supplying := by
  obtain ⟨quotes, value, hx, hv⟩ := h.value hcoh hb
  have hentry := (extends_addText b text location).entry
  have hcontext := addText_context b text location
  have hout := addText_out hx hv text location
  refine h.imp (fun h => h.keep ⟨hentry.trans h.entry, (addText_attr ..).trans h.attr,
    .inr (.inl ⟨quotes, hcontext.trans hx⟩)⟩ hout (by rw [hcontext])) fun h => h.keep hentry hout

/-- **Text gives a value to the attribute, or to the branch that stands for one.** -/
theorem Supplying.read {run : RawRun} (h : b.Supplying) (hcoh : b.Coherent t)
    (hc : (b.read run 0 none t).Clean) : (b.read run 0 none t).Supplying := by
  suffices key : (b.read run 0 none t).Coherent [] ∧ (b.read run 0 none t).Supplying from key.2
  refine read_rule (P := fun b' _ t' => b'.Clean → b'.Coherent t' ∧ b'.Supplying) ?_ ?_ ?_
    (fun _ => ⟨hcoh, h⟩) nofun hc
  · intro b' held c cs location offset hP hm hc
    refine ⟨Coherent.content_of_clean location offset (fun hc => (hP hc).1) hm hc, ?_⟩
    have hfault := fault_eq_none_of_clean (extends_enter ..) hc
    rw [reportLexeme_of_fault_eq_none hfault] at hc ⊢
    obtain ⟨hcoh, hsupply⟩ := hP ((extends_enter ..).clean hc)
    have hnext : (b'.context.lexeme c cs).next = b'.context := by
      have hl := Context.lexeme_move b'.context c cs
      have hamong := hsupply.among hcoh
      generalize b'.context.lexeme c cs = l at hl hm ⊢
      generalize b'.context = here at hl hamong ⊢
      cases hl <;> first | rfl | (cases hm; done) | cases hamong
    rw [hnext]
    unfold enter
    rwa [if_pos rfl]
  · intro b' held t' location hP _ hb hc
    obtain ⟨hcoh, hsupply⟩ := hP ((extends_addText ..).clean hc)
    exact ⟨hcoh.addText .., hsupply.addText hcoh hb held location⟩
  · intro b' c cs m location place hP hm hc
    refine ⟨Coherent.mark_of_clean location place (fun hc => (hP hc).1) hm hc, ?_⟩
    have hfault := fault_eq_none_of_clean (extends_apply ..) hc
    rw [reportLexeme_of_fault_eq_none hfault] at hc ⊢
    obtain ⟨hcoh, hsupply⟩ := hP ((extends_apply ..).clean hc)
    exact hsupply.imp (fun h => h.apply place hcoh (Context.lexeme_move ..) hm hfault hc)
      fun h => h.apply place hcoh (Context.lexeme_move ..) hm

theorem Supplying.readRun {run : RawRun} (h : b.Supplying) (hcoh : b.Coherent [])
    (hc : (b.readRun run).Clean) : (b.readRun run).Supplying := by
  have hread := Supplying.read (h.ledger b.ledger.countRun) hcoh.restrict_nil hc
  exact hread.imp (fun h => h.keep ⟨h.entry, h.attr, h.place⟩ rfl Iff.rfl) fun h => h.keep rfl rfl

theorem Supplying.readCollected {run : Option RawRun} (h : b.Supplying) (hcoh : b.Coherent [])
    (hc : (b.readCollected run).Clean) : (b.readCollected run).Supplying := by
  cases run with
  | none => exact h
  | some run => exact h.readRun hcoh hc

theorem Supplying.collect {run : Option RawRun} {text : Text} {location : Span} (h : b.Supplying)
    (hcoh : b.Coherent []) (hc : (b.collect run text location).1.Clean) :
    (b.collect run text location).1.Supplying := by
  unfold Assembly.collect at hc ⊢
  split at hc
  · exact h
  · split at hc <;> rename_i hj
    · rw [if_pos hj]
      exact h
    · rw [if_neg hj]
      exact h.readRun hcoh hc

theorem Supplying.place {n : Node} (h : b.Supplying) (hcoh : b.Coherent []) (hn : n.Idle)
    (hc : (b.place n).Clean) : (b.place n).Supplying :=
  h.imp (fun h => h.place_node hcoh hn hc) fun h => h.place hcoh hn

theorem Supplying.settle (h : b.Supplying) (hcoh : b.Coherent t) (location : Span) :
    (b.settle location).Supplying := by
  rcases h with h | h
  · rw [h.toStanding.settle]
    exact .inl h
  · exact .inr (h.settle hcoh location)

theorem Supplying.placeFlow {flow : Flow} {exit : Context} (h : b.Supplying)
    (hcoh : b.Coherent []) (hl : Context.Leads b.context exit)
    (hflow : b.context.Supplies exit (.flow flow)) : (b.placeFlow flow exit).Supplying :=
  h.imp (fun h => h.placeFlow hcoh hl hflow) fun h => h.placeFlow hcoh hl hflow

/-- **What a branch in a tag has given at its end.** -/
theorem Supplying.endBranch (h : b.Supplying) (hcoh : b.Coherent []) (hc : b.endBranch.Clean) :
    b.entry.SuppliesAll b.endBranch.context b.endBranch.out := by
  rcases h with h | h
  · rw [h.entry]
    exact h.endBranch hcoh hc
  · rw [h.entry]
    exact h.endBranch hcoh hc

end Supplying

end Assembly

/-! ## 5. The pass -/

/-- Where branches in a tag agree they end in one context. -/
theorem exits_eq_of_clean {l : Ledger} {location : Span} {head : FlowHead} {entry : Context}
    {exits : Exits} (hentry : entry.isSettled = true) (hexits : ∀ e ∈ exits, e.2.isSettled = true)
    (hc : (reconcile l location head entry exits).2.Clean) :
    ∀ e ∈ exits, e.2 = (reconcile l location head entry exits).1 := by
  have hkind := kind_of_agreed? (agreed?_of_clean hc)
  refine fun e he => Context.eq_of_kind (hexits e he) ?_ (hkind e he)
  obtain hx | ⟨e', he', hx⟩ := reconcile_fst l location head entry exits <;> rw [hx]
  · exact hentry
  · exact hexits e' he'

mutual

/-- **Nodes that are fed to a branch in a tag** give its value, or those of its attributes. -/
theorem feedNodes_supplying : ∀ (nodes : List Node) (b : Assembly) (run : Option RawRun),
    AllWritten nodes → b.Supplying → b.Coherent [] → (feedNodes b run nodes).Clean →
    (feedNodes b run nodes).Supplying
  | [], b, run, _, h, hcoh, hc => by
    rw [feedNodes] at hc ⊢
    exact h.readCollected hcoh hc
  | n :: nodes, b, run, hw, h, hcoh, hc => by
    obtain ⟨hn, hnodes⟩ := written_cons.mp hw
    rw [feedNodes] at hc ⊢
    cases ht : n.rawText? with
    | some text =>
      simp only [ht] at hc ⊢
      have hc' := (feedNodes_extends nodes _ _).clean hc
      exact feedNodes_supplying nodes _ _ hnodes (h.collect hcoh hc') (hcoh.collect hc') hc
    | none =>
      simp only [ht] at hc ⊢
      have hc' := (feedNodes_extends nodes _ _).clean hc
      have hc'' := (feedNode_extends n _).clean hc'
      have hread := hcoh.readCollected hc''
      exact feedNodes_supplying nodes _ none hnodes
        (feedNode_supplying n _ hn (h.readCollected hcoh hc'') hread hc')
        (feedNode_coherent n _ hread hc') hc

theorem feedNode_supplying : ∀ (n : Node) (b : Assembly), (∀ m ∈ n.walk, m.isWritten = true) →
    b.Supplying → b.Coherent [] → (feedNode b n).Clean → (feedNode b n).Supplying
  | .call id location callee params, b, _, h, hcoh, hc => by
    rw [feedNode] at hc ⊢
    exact ((h.ledger _).place (hcoh.ledger _) ⟨rfl, rfl⟩ hc).reach _
  | .binding id location var value, b, _, h, hcoh, hc => by
    rw [feedNode] at hc ⊢
    exact ((h.ledger _).place (hcoh.ledger _) ⟨rfl, rfl⟩ hc).reach _
  | .flow flow, b, hw, h, hcoh, hc => by
    rw [feedNode] at hc ⊢
    have hc' := (Assembly.extends_placeFlow ..).clean ((Assembly.extends_reach ..).clean hc)
    obtain ⟨hcoh', hset⟩ := hcoh.settle flow.location ((rewriteFlow_extends flow _ _).clean hc')
    have hleads := rewriteFlow_leads flow _ _ hset (Ledger.Clean.quiet hc')
    have hsupply := rewriteFlow_supplies flow (b.settle flow.location).ledger
      (b.settle flow.location).context
      (fun m hm => hw m (by rw [Node.walk]; exact List.mem_cons_of_mem _ hm)) hc'
    have hsettle := h.settle hcoh flow.location
    generalize b.settle flow.location = b' at *
    generalize rewriteFlow b'.ledger b'.context flow = r at *
    exact ((hsettle.ledger r.2.2).placeFlow (hcoh'.ledger _) hleads hsupply).reach _
  | .raw .., b, hw, h, hcoh, hc | .print .., b, hw, h, hcoh, hc
  | .openTag .., b, hw, h, hcoh, hc | .closeTag .., b, hw, h, hcoh, hc
  | .attr .., b, hw, h, hcoh, hc | .attrValue .., b, hw, h, hcoh, hc
  | .comment .., b, hw, h, hcoh, hc => by
    rw [feedNode] at hc ⊢
    · exact (h.place hcoh (Node.idle_of_isWritten (hw _ (Node.mem_walk _)) rfl) hc).reach _
    all_goals simp

/-- **Control flow in a tag gives a value if the context changes**, and else nothing in it does. -/
theorem rewriteFlow_supplies : ∀ (flow : Flow) (l : Ledger) (entry : Context),
    (∀ m ∈ flow.walk, m.isWritten = true) → (rewriteFlow l entry flow).2.2.Clean →
    entry.Supplies (rewriteFlow l entry flow).2.1 (.flow (rewriteFlow l entry flow).1)
  | ⟨id, location, head, branches⟩, l, entry, hw, hc => by
    rw [Flow.walk] at hw
    rw [rewriteFlow] at hc ⊢
    dsimp only at hc ⊢
    split at hc
    · exact absurd hc (Ledger.not_clean_report _ _ _)
    · next hd =>
      rw [if_neg hd]
      cases he : entry.isInTag with
      | false => exact Context.supplies_of_isInTag he
      | true =>
        have hc' := (reconcile_extends _ location head entry _).clean hc
        have hset : entry.isSettled = true := Context.isSettled_of_isInTag he
        have hleads := rewriteBranches_lead branches { l with depth := l.depth + 1 } entry
          location.start hset (Ledger.Clean.quiet hc')
        have heq := exits_eq_of_clean hset (fun e he => Context.isSettled_of_leads (hleads e he)) hc
        refine Context.supplies_flow id location head ?_
          (rewriteBranches_supply branches _ entry _ location.start he hw hc' heq)
        -- without branches the context stays
        cases branches with
        | nil =>
          rw [rewriteBranches]
          dsimp only
          rw [reconcile_exit, List.head?_nil, Option.map_none, Option.getD_none, ite_self]
          exact fun hne => absurd rfl hne
        | cons branch branches =>
          rw [rewriteBranches]
          exact fun _ => List.cons_ne_nil _ _

/-- What the branches give, if they end in one context. -/
theorem rewriteBranches_supply : ∀ (branches : List Branch) (l : Ledger) (entry exit : Context)
    (offset : Nat), entry.isInTag = true → WrittenBranches branches →
    (rewriteBranches l entry offset branches).2.2.Clean →
    (∀ e ∈ (rewriteBranches l entry offset branches).2.1, e.2 = exit) →
    ∀ branch ∈ (rewriteBranches l entry offset branches).1,
      entry.SuppliesAll exit branch.nodes.reverse
  | [], l, entry, exit, offset, _, _, _, _ => by
    rw [rewriteBranches]
    exact nofun
  | branch :: branches, l, entry, exit, offset, he, hw, hc, hexits => by
    rw [WrittenBranches, walkBranches, List.forall_mem_append] at hw
    rw [rewriteBranches] at hc hexits ⊢
    dsimp only at hc hexits ⊢
    obtain ⟨hexit, hexits⟩ := List.forall_mem_cons.mp hexits
    have hc' := (rewriteBranches_extends branches _ entry offset).clean hc
    refine List.forall_mem_cons.mpr ⟨?_, rewriteBranches_supply branches _ entry exit offset he hw.2
      hc hexits⟩
    dsimp only at hexit
    rw [← hexit]
    exact rewriteBranch_supplies branch l entry offset he hw.1 hc'

theorem rewriteBranch_supplies : ∀ (branch : Branch) (l : Ledger) (entry : Context)
    (offset : Nat), entry.isInTag = true → (∀ m ∈ branch.walk, m.isWritten = true) →
    (rewriteBranch l entry offset branch).2.2.Clean →
    entry.SuppliesAll (rewriteBranch l entry offset branch).2.1
      (rewriteBranch l entry offset branch).1.nodes.reverse
  | ⟨id, kind, nodes⟩, l, entry, offset, he, hw, hc => by
    rw [Branch.walk] at hw
    rw [rewriteBranch] at hc ⊢
    dsimp only at hc ⊢
    have hcoh : (Assembly.start l.countBranch entry true offset).Coherent [] :=
      Assembly.coherent_start _ true offset (by cases entry <;> first | rfl | cases he)
    have hc' := (Assembly.extends_endBranch _).clean hc
    have hsupply := feedNodes_supplying nodes _ none hw
      (Assembly.supplying_start l.countBranch he true offset) hcoh hc'
    have hend := hsupply.endBranch (feedNodes_coherent nodes _ none hcoh hc') hc
    rw [(feedNodes_extends nodes _ none).entry] at hend
    rw [Assembly.nodes, List.reverse_reverse]
    exact hend

end

end TemplateMarkup
