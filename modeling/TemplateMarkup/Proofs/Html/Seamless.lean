/-
# Text in normal form

Whatever is reported, no text that a run puts together is empty, and no two texts stand side by
side (`Seamless`): not in a block, not in a branch, not in a value or a comment, at any depth.  Text
comes to a list by `Assembly.addText`, which joins it to the text before it, and never without a
character.

There is one other way.  A tag that is given up leaves its name behind, after the text of its `<`.
But a tag is given up only while its name is being read, and then the name, if it is a node already,
is a computed one (`Assembly.NameOpen`).

What is asked of the control flow that is left as it is, is open here: it comes to the result as it
is (`rewriteValue_sound`).
-/
import Mathlib.Data.List.Chain
import TemplateMarkup.Proofs.Html.Likeness
import TemplateMarkup.Proofs.Html.Portions
import TemplateMarkup.Proofs.Html.Safe

namespace TemplateMarkup

/-! ## 1. Seamless lists -/

/-- **Text in normal form**: none is empty, and no two texts stand side by side. -/
structure Seamless (nodes : List Node) : Prop where
  noEmpty : ∀ n ∈ nodes, n.rawText? ≠ some []
  apart : nodes.IsChain fun n m => n.rawText? = none ∨ m.rawText? = none

namespace Seamless

variable {n : Node} {nodes : List Node}

theorem nil : Seamless [] := ⟨nofun, .nil⟩

theorem cons (h : Seamless nodes) (hn : n.rawText? = none) : Seamless (n :: nodes) where
  noEmpty := List.forall_mem_cons.mpr
    ⟨by rw [hn]; exact (Option.some_ne_none _).symm, h.noEmpty⟩
  apart := List.isChain_cons.mpr ⟨fun _ _ => .inl hn, h.apart⟩

/-- Text may stand before what is no text. -/
theorem consText (h : Seamless nodes) (hnodes : ∀ n ∈ nodes.head?, n.rawText? = none) {t : Text}
    (ht : t ≠ []) (id : NodeId) (s : Span) : Seamless (.raw id s t :: nodes) where
  noEmpty := List.forall_mem_cons.mpr ⟨fun h => ht (Option.some.inj h), h.noEmpty⟩
  apart := List.isChain_cons.mpr ⟨fun n hn => .inr (hnodes n hn), h.apart⟩

/-- More text may join the text at the front. -/
theorem addText {id : NodeId} {s s' : Span} {t : Text} (h : Seamless (.raw id s t :: nodes))
    (u : Text) : Seamless (.raw id s' (t ++ u) :: nodes) where
  noEmpty := by
    obtain ⟨ht, hnodes⟩ := List.forall_mem_cons.mp h.noEmpty
    refine List.forall_mem_cons.mpr ⟨fun hempty => ht ?_, hnodes⟩
    obtain ⟨rfl, _⟩ := List.append_eq_nil_iff.mp (Option.some.inj hempty)
    rfl
  apart := by
    obtain ⟨hfirst, hnodes⟩ := List.isChain_cons.mp h.apart
    have hnext (n : Node) (hn : n ∈ nodes.head?) : n.rawText? = none :=
      (hfirst n hn).resolve_left (Option.some_ne_none t)
    exact List.isChain_cons.mpr ⟨fun n hn => .inr (hnext n hn), hnodes⟩

/-- What is no text may stand anywhere. -/
theorem append (h : Seamless nodes) {others : List Node} (ho : ∀ n ∈ others, n.rawText? = none) :
    Seamless (others ++ nodes) := by
  induction others with
  | nil => exact h
  | cons n others ih =>
    obtain ⟨hn, ho⟩ := List.forall_mem_cons.mp ho
    exact (ih ho).cons hn

theorem reverse (h : Seamless nodes) : Seamless nodes.reverse where
  noEmpty := fun n hn => h.noEmpty n (List.mem_reverse.mp hn)
  apart := by
    rw [List.isChain_reverse]
    exact h.apart.imp fun _ _ => Or.symm

end Seamless

/-! ## 2. Sound nodes -/

/-- Which portions are good: what is put together in normal form, and any control flow that is
left. -/
structure Standard where
  good : Portion → Prop
  built {nodes : List Node} : Seamless nodes → good (.built nodes)

/-- All portions of the node are good. -/
def Node.Sound (S : Standard) (room : Nat) (n : Node) : Prop :=
  ∀ p ∈ n.portions room true, S.good p

/-- Nodes that have been put together. -/
structure Row (S : Standard) (room : Nat) (nodes : List Node) : Prop where
  seamless : Seamless nodes
  sound : ∀ n ∈ nodes, n.Sound S room

section Nodes

variable {S : Standard} {room : Nat} {n : Node} {nodes : List Node}

theorem sound_raw (id : NodeId) (s : Span) (t : Text) : (Node.raw id s t).Sound S room := by
  rw [Node.Sound, Node.portions]
  · exact nofun
  all_goals simp

theorem Row.nil : Row S room [] := ⟨.nil, nofun⟩

theorem Row.cons (h : Row S room nodes) (hn : n.Sound S room) (hr : n.rawText? = none) :
    Row S room (n :: nodes) := ⟨h.seamless.cons hr, List.forall_mem_cons.mpr ⟨hn, h.sound⟩⟩

theorem Row.append (h : Row S room nodes) {others : List Node}
    (ho : ∀ n ∈ others, n.Sound S room ∧ n.rawText? = none) :
    Row S room (others ++ nodes) where
  seamless := h.seamless.append fun n hn => (ho n hn).2
  sound := List.forall_mem_append.mpr ⟨fun n hn => (ho n hn).1, h.sound⟩

theorem Row.reverse (h : Row S room nodes) : Row S room nodes.reverse :=
  ⟨h.seamless.reverse, fun n hn => h.sound n (List.mem_reverse.mp hn)⟩

/-- What has been put together is a good portion, and so is all that is in it. -/
theorem Row.built (h : Row S room nodes) :
    ∀ p ∈ Portion.built nodes :: portions room true nodes, S.good p := by
  refine List.forall_mem_cons.mpr ⟨S.built h.seamless, fun p hp => ?_⟩
  obtain ⟨n, hn, hp⟩ := mem_portions.mp hp
  exact h.sound n hn p hp

theorem sound_closeTag (hn : n.Sound S room) (id : NodeId) (s : Span) :
    (Node.closeTag id s n).Sound S room := by
  rw [Node.Sound, Node.portions]
  exact hn

theorem sound_openTag (hn : n.Sound S room) (hnodes : Row S room nodes) (id : NodeId) (s : Span)
    (selfClosing : Bool) : (Node.openTag id s n nodes selfClosing).Sound S room := by
  rw [Node.Sound, Node.portions]
  exact List.forall_mem_append.mpr ⟨hn, hnodes.built⟩

theorem sound_attr (hn : n.Sound S room) {value : Option Node}
    (hv : ∀ v, value = some v → v.Sound S room) (id : NodeId) (s : Span) :
    (Node.attr id s n value).Sound S room := by
  cases value with
  | none =>
    rw [Node.Sound, Node.portions]
    exact hn
  | some v =>
    rw [Node.Sound, Node.portions]
    exact List.forall_mem_append.mpr ⟨hn, hv v rfl⟩

theorem sound_attrValue (hnodes : Row S room nodes) (id : NodeId) (s : Span) (quotes : Quotes) :
    (Node.attrValue id s quotes nodes).Sound S room := by
  rw [Node.Sound, Node.portions]
  exact hnodes.built

theorem sound_comment (hnodes : Row S room nodes) (id : NodeId) (s : Span) :
    (Node.comment id s nodes).Sound S room := by
  rw [Node.Sound, Node.portions]
  exact hnodes.built

end Nodes

/-! ## 3. Assemblies -/

/-- The portions of a tag are good, and no text is among its attributes. -/
structure TagDraft.Sound (S : Standard) (room : Nat) (t : TagDraft) : Prop where
  name : ∀ n, t.name = some n → n.Sound S room
  children : ∀ n ∈ t.children, n.Sound S room ∧ n.rawText? = none

namespace Assembly

/-- **All lists of an assembly are in normal form**, and all portions of its nodes are good. -/
structure Sound (S : Standard) (room : Nat) (b : Assembly) : Prop where
  out : Row S room b.out
  tag : ∀ t, b.tag = some t → t.Sound S room
  attr : ∀ a, b.attr = some a → ∀ n, a.name = some n → n.Sound S room
  value : ∀ v, b.value = some v → Row S room v.children
  comment : ∀ c, b.comment = some c → Row S room c.children

/-- The name of the open tag is no text, or there is none yet. -/
def ComputedName (b : Assembly) : Prop :=
  ∀ t, b.tag = some t → ∀ n, t.name = some n → n.rawText? = none

/-- While the name of a tag is read, it is no text yet. -/
def NameOpen (b : Assembly) : Prop := b.context.isTagName = true → b.ComputedName

variable {S : Standard} {room : Nat} {b : Assembly} {n : Node}

theorem sound_start (l : Ledger) (entry : Context) (inBranch : Bool) (offset : Nat) :
    (start l entry inBranch offset).Sound S room := ⟨.nil, nofun, nofun, nofun, nofun⟩

theorem Sound.ledger (h : b.Sound S room) (l : Ledger) :
    ({ b with ledger := l } : Assembly).Sound S room :=
  ⟨h.out, h.tag, h.attr, h.value, h.comment⟩

theorem Sound.reach (h : b.Sound S room) (offset : Nat) : (b.reach offset).Sound S room :=
  ⟨h.out, h.tag, h.attr, h.value, h.comment⟩

theorem Sound.enter (h : b.Sound S room) (next : Context) (offset : Nat) :
    (b.enter next offset).Sound S room := by
  unfold Assembly.enter
  split
  · exact h
  · exact ⟨h.out, h.tag, h.attr, h.value, h.comment⟩

theorem Sound.report (h : b.Sound S room) (location : Span) (fault : Fault) :
    (b.report location fault).Sound S room := h.ledger _

theorem Sound.addOut (h : b.Sound S room) (hn : n.Sound S room) (hr : n.rawText? = none) :
    (b.addOut n).Sound S room :=
  ⟨h.out.cons hn hr, h.tag, h.attr, h.value, h.comment⟩

theorem Sound.content (h : b.Sound S room) : Row S room b.content := by
  unfold Assembly.content
  split
  · next _ hv => exact h.value _ hv
  · next _ hc => exact h.comment _ hc
  · exact h.out

theorem Sound.setContent (h : b.Sound S room) {nodes : List Node}
    (hnodes : Row S room nodes) : (b.setContent nodes).Sound S room := by
  unfold Assembly.setContent
  split
  · exact ⟨h.out, h.tag, h.attr, fun _ hv => by cases hv; exact hnodes, h.comment⟩
  · exact ⟨h.out, h.tag, h.attr, h.value, fun _ hc => by cases hc; exact hnodes⟩
  · exact ⟨hnodes, h.tag, h.attr, h.value, h.comment⟩

theorem Sound.addContent (h : b.Sound S room) (hn : n.Sound S room)
    (hr : n.rawText? = none) : (b.addContent n).Sound S room :=
  h.setContent (h.content.cons hn hr)

/-- **Text joins the text before it.** -/
theorem Sound.addText (h : b.Sound S room) {text : Text} (ht : text ≠ []) (location : Span) :
    (b.addText text location).Sound S room := by
  have hc := h.content
  unfold Assembly.addText
  split
  · next hb =>
    rw [hb] at hc
    obtain ⟨_, hsound⟩ := List.forall_mem_cons.mp hc.sound
    exact h.setContent ⟨hc.seamless.addText text,
      List.forall_mem_cons.mpr ⟨sound_raw _ _ _, hsound⟩⟩
  · next hb =>
    refine (h.ledger _).setContent ⟨hc.seamless.consText (fun n hn => ?_) ht _ _,
      List.forall_mem_cons.mpr ⟨sound_raw _ _ _, hc.sound⟩⟩
    obtain ⟨nodes, hnodes⟩ := List.head?_eq_some_iff.mp hn
    cases n <;> first | rfl | exact absurd hnodes (hb _ _ _ _)

theorem Sound.addAmongAttrs (h : b.Sound S room) (hn : n.Sound S room)
    (hr : n.rawText? = none) : (b.addAmongAttrs n).Sound S room := by
  unfold Assembly.addAmongAttrs
  split
  · next t ht =>
    have hf := h.tag t ht
    refine ⟨h.out, fun _ ht' => ?_, h.attr, h.value, h.comment⟩
    cases ht'
    exact ⟨hf.name, List.forall_mem_cons.mpr ⟨⟨hn, hr⟩, hf.children⟩⟩
  · exact h.addOut hn hr

/-! ### Tags -/

/-- A tag of which a part is replaced, or none. -/
theorem Sound.setTag (h : b.Sound S room) {tag : Option TagDraft}
    (ht : ∀ t, tag = some t → t.Sound S room) :
    ({ b with tag := tag } : Assembly).Sound S room :=
  ⟨h.out, ht, h.attr, h.value, h.comment⟩

theorem Sound.dropTag (h : b.Sound S room) :
    ({ b with tag := none } : Assembly).Sound S room := h.setTag nofun

theorem Sound.openTag (h : b.Sound S room) (close : Bool) (location : Span) :
    (b.openTag close location).Sound S room :=
  h.setTag fun _ ht => by cases ht; exact ⟨nofun, nofun⟩

theorem Sound.addTagName (h : b.Sound S room) (text : Text) (location : Span) :
    (b.addTagName text location).Sound S room := by
  unfold Assembly.addTagName
  split
  · exact h
  · next t ht =>
    have hf := h.tag t ht
    exact h.setTag fun _ ht' => by cases ht'; exact ⟨hf.name, hf.children⟩

theorem Sound.finishTagName (h : b.Sound S room) : b.finishTagName.Sound S room := by
  unfold Assembly.finishTagName
  split
  · exact h
  · next t ht =>
    have hf := h.tag t ht
    split
    · refine (h.ledger _).setTag fun _ ht' => ?_
      cases ht'
      exact ⟨fun _ hn => by cases hn; exact sound_raw _ _ _, hf.children⟩
    · exact h

/-- A tag is given up: its name comes after text, so it must not be text. -/
theorem Sound.abortTag (h : b.Sound S room) (hname : b.ComputedName) :
    b.abortTag.Sound S room := by
  unfold Assembly.abortTag
  split
  · exact h
  · next t ht =>
    have hf := h.tag t ht
    have hliteral : (if t.close then ['<', '/'] else ['<']) ++ t.nameText ≠ [] := by
      split <;> exact List.cons_ne_nil _ _
    have htext := (h.dropTag.enter t.outside t.start).addText hliteral
      (Span.upTo t.start t.nameLocation.stop)
    dsimp only
    split
    · next n hn => exact htext.addOut (hf.name n hn) (hname t ht n hn)
    · exact htext

theorem Sound.addCloseTag (h : b.Sound S room) {t : TagDraft} (hf : t.Sound S room)
    (hn : n.Sound S room) (location : Span) : (b.addCloseTag t n location).Sound S room := by
  have hout : Row S room (t.children ++ Node.closeTag b.ledger.ids.next location n :: b.out) :=
    (h.out.cons (sound_closeTag hn _ _) rfl).append hf.children
  unfold Assembly.addCloseTag
  dsimp only
  refine Sound.enter ?_ _ _
  split <;> split <;> exact ⟨hout, h.tag, h.attr, h.value, h.comment⟩

theorem Sound.addOpenTag (h : b.Sound S room) {t : TagDraft} (hf : t.Sound S room)
    (hn : n.Sound S room) (location : Span) (selfClosing bodyFollows : Bool) :
    (b.addOpenTag t n location selfClosing bodyFollows).Sound S room := by
  have hchildren : Row S room t.children := by
    have := Row.nil.append hf.children
    rwa [List.append_nil] at this
  unfold Assembly.addOpenTag
  refine Sound.enter ?_ _ _
  exact ⟨h.out.cons (sound_openTag hn hchildren.reverse _ _ _) rfl, h.tag, h.attr, h.value,
    h.comment⟩

theorem Sound.closeTag (h : b.Sound S room) (selfClosing : Bool) (stop : Nat)
    (bodyFollows : Bool) : (b.closeTag selfClosing stop bodyFollows).Sound S room := by
  unfold Assembly.closeTag
  split
  · exact h
  · next t ht =>
    have hf := h.tag t ht
    split
    · next hnone =>
      refine h.abortTag fun t' ht' n hn => ?_
      obtain rfl : t = t' := Option.some.inj (ht.symm.trans ht')
      rw [hnone] at hn
      cases hn
    · next n hn =>
      dsimp only
      split
      · exact h.dropTag.addCloseTag hf (hf.name n hn) _
      · exact h.dropTag.addOpenTag hf (hf.name n hn) _ _ _

/-! ### Attributes -/

/-- An attribute of which a part is replaced, or none. -/
theorem Sound.setAttr (h : b.Sound S room) {attr : Option AttrDraft}
    (ha : ∀ a, attr = some a → ∀ n, a.name = some n → n.Sound S room) :
    ({ b with attr := attr } : Assembly).Sound S room :=
  ⟨h.out, h.tag, ha, h.value, h.comment⟩

theorem Sound.dropAttr (h : b.Sound S room) :
    ({ b with attr := none } : Assembly).Sound S room := h.setAttr nofun

theorem Sound.reportAttr (h : b.Sound S room) (location : Span) :
    (b.reportAttr location).Sound S room := by
  unfold Assembly.reportAttr
  split
  · exact h
  · exact h.report _ _
  · next t _ ht =>
    have hf := h.tag t ht
    split
    · exact h
    · exact (h.report _ _).setTag fun _ ht' => by cases ht'; exact ⟨hf.name, hf.children⟩

theorem Sound.openAttr (h : b.Sound S room) (location : Span) {name : Option Node}
    (discard : Bool) (hn : ∀ n, name = some n → n.Sound S room) :
    (b.openAttr location name discard).Sound S room :=
  (h.reportAttr location).setAttr fun _ ha => by cases ha; exact hn

theorem Sound.addAttrName (h : b.Sound S room) (text : Text) (location : Span) :
    (b.addAttrName text location).Sound S room := by
  unfold Assembly.addAttrName
  split
  · exact h
  · next a ha =>
    split
    · exact h
    · exact h.setAttr fun _ ha' => by cases ha'; exact h.attr a ha

theorem Sound.discardAttr (h : b.Sound S room) : b.discardAttr.Sound S room := by
  refine h.setAttr fun _ ha => ?_
  obtain ⟨a, hb, rfl⟩ := Option.map_eq_some_iff.mp ha
  exact h.attr a hb

theorem Sound.finishAttrName (h : b.Sound S room) : b.finishAttrName.Sound S room := by
  unfold Assembly.finishAttrName
  split
  · exact h
  · split
    · refine (h.ledger _).setAttr fun _ ha n hn => ?_
      cases ha
      cases hn
      exact sound_raw _ _ _
    · exact h

theorem Sound.addAttr (h : b.Sound S room) {a : AttrDraft}
    (ha : ∀ n, a.name = some n → n.Sound S room) {value : Option Node}
    (hv : ∀ v, value = some v → v.Sound S room) (stop : Nat) :
    (b.addAttr a value stop).Sound S room := by
  unfold Assembly.addAttr
  split
  · exact h
  · split
    · exact h
    · next n hn => exact (h.ledger _).addAmongAttrs (sound_attr (ha n hn) hv _ _) rfl

theorem Sound.endAttr (h : b.Sound S room) (stop : Nat) : (b.endAttr stop).Sound S room := by
  have hf := h.finishAttrName
  unfold Assembly.endAttr
  dsimp only
  split
  · exact hf
  · next a ha => exact hf.dropAttr.addAttr (hf.attr a ha) (fun _ hv => by cases hv) stop

theorem Sound.closeAttr (h : b.Sound S room) (stop : Nat) :
    (b.closeAttr stop).Sound S room := (h.endAttr stop).enter _ _

theorem Sound.giveValue (h : b.Sound S room) (hn : n.Sound S room) (hr : n.rawText? = none)
    (stop : Nat) : (b.giveValue n stop).Sound S room := by
  unfold Assembly.giveValue
  split
  · next a ha =>
    exact h.dropAttr.addAttr (h.attr a ha) (fun _ hv => by cases hv; exact hn) stop
  · have := h.addOut hn hr
    exact ⟨this.out, this.tag, this.attr, this.value, this.comment⟩

theorem Sound.fillSlot (h : b.Sound S room) (hn : n.Sound S room) (hr : n.rawText? = none)
    (stop : Nat) : (b.fillSlot n stop).Sound S room := (h.giveValue hn hr stop).enter _ _

/-! ### Values and comments -/

/-- A value that is begun or ended. -/
theorem Sound.setValue (h : b.Sound S room) {value : Option ValueDraft}
    (hv : ∀ v, value = some v → Row S room v.children) :
    ({ b with value := value } : Assembly).Sound S room :=
  ⟨h.out, h.tag, h.attr, hv, h.comment⟩

/-- A comment that is begun or ended. -/
theorem Sound.setComment (h : b.Sound S room) {comment : Option CommentDraft}
    (hc : ∀ c, comment = some c → Row S room c.children) :
    ({ b with comment := comment } : Assembly).Sound S room :=
  ⟨h.out, h.tag, h.attr, h.value, hc⟩

theorem Sound.endValue (h : b.Sound S room) (stop : Nat) :
    (b.endValue stop).Sound S room := by
  unfold Assembly.endValue
  split
  · exact h
  · next v hv =>
    have hnone : ({ b with ledger := b.ledger.drawnForHtml, value := none } : Assembly).Sound
        S room := (h.ledger _).setValue nofun
    exact hnone.giveValue (sound_attrValue (h.value v hv).reverse _ _ _) rfl stop

theorem Sound.closeValue (h : b.Sound S room) (stop : Nat) :
    (b.closeValue stop).Sound S room := by
  unfold Assembly.closeValue
  split
  · exact h
  · exact (h.endValue stop).enter _ _

theorem Sound.endComment (h : b.Sound S room) (stop : Nat) :
    (b.endComment stop).Sound S room := by
  unfold Assembly.endComment
  split
  · exact h
  · next c hc =>
    exact ((h.ledger _).setComment fun _ hc' => by cases hc').addOut
      (sound_comment (h.comment c hc).reverse _ _) rfl

/-! ## 4. Names of tags -/

theorem nameOpen_of_context (h : b.context.isTagName = false) : b.NameOpen := by
  intro hb
  rw [h] at hb
  cases hb

/-- Neither the context nor the tag changes. -/
theorem NameOpen.congr (h : b.NameOpen) {b' : Assembly} (hc : b'.context = b.context)
    (ht : b'.tag = b.tag) : b'.NameOpen := by
  unfold NameOpen ComputedName
  rw [hc, ht]
  exact h

theorem nameOpen_enter {next : Context} (h : next.isTagName = false) (offset : Nat) :
    (b.enter next offset).NameOpen := nameOpen_of_context (by rw [enter_context]; exact h)

theorem nameOpen_abortTag (h : b.NameOpen) : b.abortTag.NameOpen := by
  cases ht : b.tag with
  | none =>
    unfold Assembly.abortTag
    rwa [ht]
  | some t =>
    exact nameOpen_of_context
      (Context.isTagName_of_isContent (isContent_abortTag (by rw [ht]; rfl)))

theorem computedName_addTagName (h : b.ComputedName) (text : Text) (location : Span) :
    (b.addTagName text location).ComputedName := by
  unfold Assembly.addTagName
  split
  · exact h
  · next t ht =>
    intro _ ht' n hn
    cases ht'
    exact h t ht n hn

/-- **A mark that leads to a tag name leaves the name open.** -/
theorem nameOpen_apply {c : Char} {l : Lexeme} {m : Mark} (text : Text) (location : Span)
    (h : b.NameOpen) (hl : Context.Move b.context c l) (hm : l.mark = some m) :
    (b.apply m l.next text location).NameOpen := by
  generalize hb : b.context = here at hl
  cases hl <;> cases hm <;> simp only [apply]
  case openTag | closeRcdata =>
    intro _ t ht n hn
    rw [enter_tag] at ht
    cases ht
    cases hn
  case nameChars =>
    intro _ t ht
    rw [enter_tag] at ht
    exact computedName_addTagName (h (by rw [hb]; rfl)) text location t ht
  case abort =>
    split
    · exact nameOpen_abortTag h
    · exact nameOpen_enter rfl _
  case endTag =>
    split
    · next ht =>
      exact nameOpen_of_context
        (Context.isTagName_of_isContent (isContent_closeTag (by rw [ht]; rfl) ..))
    · exact nameOpen_of_context (by rw [report, hb]; rfl)
  case closeComment =>
    split
    · exact nameOpen_enter rfl _
    · exact nameOpen_of_context (by rw [addText_context, report, hb]; rfl)
  case closeBare | closeQuoted =>
    split
    · exact nameOpen_enter rfl _
    · split
      · exact nameOpen_enter rfl _
      · exact nameOpen_of_context (by rw [addText_context, report, hb]; rfl)
  all_goals exact nameOpen_enter rfl _

/-! ## 5. Reading -/

theorem Sound.reportLexeme (h : b.Sound S room) (location : Span) (l : Lexeme) :
    (b.reportLexeme location l).Sound S room := by
  rw [reportLexeme_eq]
  exact h.ledger _

theorem NameOpen.reportLexeme (h : b.NameOpen) (location : Span) (l : Lexeme) :
    (b.reportLexeme location l).NameOpen :=
  h.congr (reportLexeme_context ..) (reportLexeme_tag ..)

/-- **What a mark makes is in normal form.** -/
theorem Sound.apply (h : b.Sound S room) (hname : b.NameOpen) {c : Char} {l : Lexeme} {m : Mark}
    (hl : Context.Move b.context c l) (hm : l.mark = some m) {text : Text}
    (htext : l.width ≠ 0 → text ≠ []) (location : Span) :
    (b.apply m l.next text location).Sound S room := by
  generalize hb : b.context = here at hl
  cases hl <;> cases hm <;> simp only [Assembly.apply]
  case openComment => exact (h.setComment fun _ hc => by cases hc; exact .nil).enter _ _
  case openTag | closeRcdata => exact (h.openTag _ _).enter _ _
  case closeComment =>
    split
    · exact (h.endComment _).enter _ _
    · exact (h.report _ _).addText (htext (by decide)) _
  case nameChars => exact (h.addTagName _ _).enter _ _
  case abort =>
    split
    · exact h.abortTag (hname (by rw [hb]; rfl))
    · exact h.enter _ _
  case nameEnd | nameGlued => exact h.finishTagName.enter _ _
  case endTag =>
    split
    · exact h.closeTag _ _ _
    · exact h.report _ _
  case attrStart | badAttr => exact (h.openAttr _ _ fun _ hn => by cases hn).enter _ _
  case attrChar => exact (h.addAttrName _ _).enter _ _
  case equals => exact h.finishAttrName.enter _ _
  case attrEnd | attrGlued => exact (h.endAttr _).enter _ _
  case openQuoted | openBare => exact (h.setValue fun _ hv => by cases hv; exact .nil).enter _ _
  case closeBare | closeQuoted =>
    split
    · exact (h.endValue _).enter _ _
    · split
      · exact (h.report _ _).enter _ _
      · next hempty =>
        refine (h.report _ _).addText (fun ht => hempty ?_) _
        rw [ht]
        rfl
  all_goals
    refine Sound.enter ?_ _ _
    split
    · exact h.discardAttr
    · exact h

/-- **A run of text is cut up, and what it is cut into is in normal form.** -/
theorem Sound.read (h : b.Sound S room) (hname : b.NameOpen) (run : RawRun) (t : Text) :
    (b.read run 0 none t).Sound S room ∧ (b.read run 0 none t).NameOpen := by
  refine read_rule (P := fun b _ _ => b.Sound S room ∧ b.NameOpen) ?_ ?_ ?_ ⟨h, hname⟩ nofun
  · intro b held c cs location offset ⟨h, _⟩ hm
    exact ⟨(h.reportLexeme location _).enter _ offset,
      nameOpen_enter (isTagName_of_content (Context.lexeme_move ..) hm) _⟩
  · intro b held t location ⟨h, hname⟩ ht _
    exact ⟨h.addText ht location, hname.congr (addText_context ..) (addText_tag ..)⟩
  · intro b c cs m location place ⟨h, hname⟩ hm
    have hmove : Context.Move (b.reportLexeme location (b.context.lexeme c cs)).context c
        (b.context.lexeme c cs) := by
      rw [reportLexeme_context]
      exact Context.lexeme_move ..
    have htext : (b.context.lexeme c cs).width ≠ 0 →
        (c :: cs).take (b.context.lexeme c cs).width ≠ [] := fun hw ht =>
      (List.take_eq_nil_iff.mp ht).elim hw nofun
    exact ⟨(h.reportLexeme location _).apply (hname.reportLexeme _ _) hmove hm htext place,
      nameOpen_apply _ place (hname.reportLexeme _ _) hmove hm⟩

/-- The lists are in normal form, and in the name of a tag there is a tag, and its name is open. -/
structure Steady (S : Standard) (room : Nat) (b : Assembly) : Prop where
  sound : b.Sound S room
  tagged : b.hasTag = true
  nameOpen : b.NameOpen

theorem steady_start (l : Ledger) {entry : Context} (h : entry.isSettled = true) (inBranch : Bool)
    (offset : Nat) : (start l entry inBranch offset).Steady S room :=
  ⟨sound_start .., hasTag_start l h inBranch offset, fun _ => nofun⟩

/-- Outside of the names of tags only the lists matter. -/
theorem steady_of_context (h : b.Sound S room) (hb : b.context.isTagName = false) :
    b.Steady S room := ⟨h, hasTag_of_context hb, nameOpen_of_context hb⟩

theorem Steady.ledger (h : b.Steady S room) (l : Ledger) :
    ({ b with ledger := l } : Assembly).Steady S room :=
  ⟨h.sound.ledger l, h.tagged, h.nameOpen⟩

theorem Steady.reach (h : b.Steady S room) (offset : Nat) :
    (b.reach offset).Steady S room := ⟨h.sound.reach offset, h.tagged, h.nameOpen⟩

theorem Steady.readRun (h : b.Steady S room) (run : RawRun) :
    (b.readRun run).Steady S room := by
  obtain ⟨hsound, hname⟩ := Sound.read (h.ledger b.ledger.countRun).sound
    (h.ledger b.ledger.countRun).nameOpen run run.text
  exact ⟨⟨hsound.out, hsound.tag, hsound.attr, hsound.value, hsound.comment⟩,
    hasTag_readRun h.tagged run, hname⟩

theorem Steady.readCollected (h : b.Steady S room) (run : Option RawRun) :
    (b.readCollected run).Steady S room := by
  cases run with
  | none => exact h
  | some run => exact h.readRun run

theorem Steady.collect (h : b.Steady S room) (run : Option RawRun) (text : Text)
    (location : Span) : (b.collect run text location).1.Steady S room := by
  unfold Assembly.collect
  split
  · exact h
  · split
    · exact h
    · exact h.readRun _

/-! ## 6. Placing -/

theorem Sound.placeContent (h : b.Sound S room) (hn : n.Sound S room)
    (hr : n.rawText? = none) : (b.placeContent n).Sound S room := by
  unfold Assembly.placeContent
  split
  · exact h.addContent hn hr
  · exact (h.addContent hn hr).enter _ _

theorem Sound.placeInTag (h : b.Sound S room) (hn : n.Sound S room)
    (hr : n.rawText? = none) : (b.placeInTag n).Sound S room := by
  unfold Assembly.placeInTag
  split
  · exact (h.openAttr _ _ fun _ hn' => by cases hn'; exact hn).enter _ _
  · exact h.addAmongAttrs hn hr

theorem Sound.placeTagName (h : b.Sound S room) (hname : b.ComputedName)
    (hn : n.Sound S room) (hr : n.rawText? = none) : (b.placeTagName n).Sound S room := by
  unfold Assembly.placeTagName
  split
  · refine Sound.enter ?_ _ _
    split
    · next t ht =>
      have hf := h.tag t ht
      refine h.setTag fun _ ht' => ?_
      cases ht'
      exact ⟨fun _ hn' => by cases hn'; exact hn, hf.children⟩
    · exact h.addOut hn hr
  · exact ((h.report _ _).abortTag hname).placeContent hn hr

theorem Sound.placeBeforeValue (h : b.Sound S room) (hn : n.Sound S room)
    (hr : n.rawText? = none) : (b.placeBeforeValue n).Sound S room := by
  rw [placeBeforeValue_eq]
  split
  · exact (h.setValue fun _ hv => by cases hv; exact Row.nil.cons hn hr).enter _ _
  · split
    · exact h.fillSlot hn hr _
    · exact h.addAmongAttrs hn hr

theorem Sound.reportJoined (h : b.Sound S room) (n : Node) :
    (b.reportJoined n).Sound S room := by
  unfold Assembly.reportJoined
  split
  · exact h.report _ _
  · exact h

/-- **A node that is no text is placed.** -/
theorem Steady.place (h : b.Steady S room) (hn : n.Sound S room) (hr : n.rawText? = none) :
    (b.place n).Steady S room := by
  unfold Assembly.place
  split <;> rename_i hb
  case h_7 =>
    have hname : b.ComputedName := h.nameOpen (by rw [hb]; rfl)
    refine ⟨h.sound.placeTagName hname hn hr, ?_, ?_⟩
    · have := hasTag_place h.tagged n
      unfold Assembly.place at this
      rwa [hb] at this
    · unfold Assembly.placeTagName
      split
      · intro _ t ht m hm
        rw [enter_tag] at ht
        split at ht
        · cases ht
          cases hm
          exact hr
        · next hnone => cases hnone.symm.trans ht
      · have htag := isSome_of_hasTag h.tagged (by rw [hb]; rfl)
        exact nameOpen_of_context (isTagName_placeContent (Context.isTagName_of_isContent
          (isContent_abortTag (b := b.report n.location .expectedTagName) htag)) n)
  case h_8 =>
    exact steady_of_context (((h.sound.reportJoined n).finishTagName.enter _ _).placeInTag hn hr)
      (isTagName_placeInTag (by rw [enter_context]; rfl) n)
  case h_9 =>
    exact steady_of_context (h.sound.placeInTag hn hr) (isTagName_placeInTag (by rw [hb]; rfl) n)
  case h_10 =>
    split
    · exact h
    · exact steady_of_context (((h.sound.reportJoined n).closeAttr _).placeInTag hn hr)
        (isTagName_placeInTag (by rw [closeAttr, enter_context]; rfl) n)
  case h_11 =>
    exact steady_of_context (h.sound.placeBeforeValue hn hr)
      (isTagName_placeBeforeValue (by rw [hb]; rfl) n)
  all_goals
    exact steady_of_context (h.sound.placeContent hn hr)
      (isTagName_placeContent (by rw [hb]; rfl) n)

theorem Steady.settle (h : b.Steady S room) (location : Span) :
    (b.settle location).Steady S room := by
  refine steady_of_context ?_ (Context.isTagName_of_isSettled (isSettled_settle h.tagged location))
  unfold Assembly.settle
  split <;> rename_i hb
  · exact (h.sound.report _ _).abortTag (h.nameOpen (by rw [hb]; rfl))
  · exact h.sound.finishTagName.enter _ _
  · exact h.sound.closeAttr _
  · exact h.sound

theorem Steady.placeFlow (h : b.Steady S room) {f : Flow} (hf : (Node.flow f).Sound S room)
    {exit : Context} (hexit : exit.isSettled = true) : (b.placeFlow f exit).Steady S room := by
  refine steady_of_context ?_ (isTagName_placeFlow hexit f)
  unfold Assembly.placeFlow
  split
  · split
    · exact h.sound.fillSlot hf rfl _
    · exact (h.sound.addAmongAttrs hf rfl).enter _ _
  · exact (h.sound.addAmongAttrs hf rfl).enter _ _
  · exact (h.sound.addContent hf rfl).enter _ _

/-! ## 7. The end -/

theorem Steady.settleAtEnd (h : b.Steady S room) : b.settleAtEnd.Sound S room := by
  unfold Assembly.settleAtEnd
  split <;> rename_i hb
  · exact h.sound.abortTag (h.nameOpen (by rw [hb]; rfl))
  · exact h.sound.finishTagName.enter _ _
  · exact h.sound.closeAttr _
  · exact h.sound

theorem Sound.closeAnyAttr (h : b.Sound S room) (stop : Nat) :
    (b.closeAnyAttr stop).Sound S room := by
  unfold Assembly.closeAnyAttr
  split
  · exact h.closeAttr _
  · exact h

theorem Sound.closeAnyComment (h : b.Sound S room) (stop : Nat) :
    (b.closeAnyComment stop).Sound S room := by
  unfold Assembly.closeAnyComment
  split
  · exact (h.endComment _).enter _ _
  · exact h

theorem Steady.closeDrafts (h : b.Steady S room) : b.closeDrafts.Sound S room := by
  rw [closeDrafts_eq]
  have hvalue := h.settleAtEnd.closeValue b.offset
  exact ((hvalue.closeAnyAttr b.offset).closeTag _ _ _).closeAnyComment _

theorem Steady.endBranch (h : b.Steady S room) : b.endBranch.Sound S room := by
  unfold Assembly.endBranch
  split
  · exact h.closeDrafts
  · exact (h.closeDrafts).report _ _

theorem Steady.endBlock (h : b.Steady S room) (block : BlockKind) :
    (b.endBlock block).Sound S room := by
  unfold Assembly.endBlock Assembly.checkContext
  split
  · exact Steady.closeDrafts (h.ledger _)
  · exact h.closeDrafts

end Assembly

/-! ## 8. The pass -/

section Pass

variable {S : Standard}

/-- What is left of the portions as it is, is good. -/
def GoodLeft (S : Standard) (ps : List Portion) : Prop := ∀ f, .left f ∈ ps → S.good (.left f)

theorem GoodLeft.append {ps qs : List Portion} :
    GoodLeft S (ps ++ qs) ↔ GoodLeft S ps ∧ GoodLeft S qs := by
  simp only [GoodLeft, List.mem_append, or_imp, forall_and]

theorem GoodLeft.cons {nodes : List Node} {ps : List Portion} :
    GoodLeft S (.built nodes :: ps) ↔ GoodLeft S ps := by
  simp only [GoodLeft, List.mem_cons, reduceCtorEq, false_or]

mutual

theorem feedNodes_steady : ∀ (nodes : List Node) (b : Assembly) (run : Option RawRun),
    AllWritten nodes → GoodLeft S (portions b.ledger.room true nodes) →
    b.Steady S b.ledger.room → (feedNodes b run nodes).Steady S b.ledger.room
  | [], b, run, _, _, h => by
    rw [feedNodes]
    exact h.readCollected run
  | n :: nodes, b, run, hw, hl, h => by
    obtain ⟨hn, hnodes⟩ := written_cons.mp hw
    rw [portions, GoodLeft.append] at hl
    rw [feedNodes]
    cases ht : n.rawText? with
    | some text =>
      have hroom := (b.extends_collect run text n.location).ledger.room
      have := feedNodes_steady nodes (b.collect run text n.location).1
        (some (b.collect run text n.location).2) hnodes
      rw [hroom] at this
      exact this hl.2 (h.collect run text n.location)
    | none =>
      have hroom := (b.extends_readCollected run).ledger.room
      have hnode := feedNode_steady n (b.readCollected run) hn ht
      have hrest := feedNodes_steady nodes (feedNode (b.readCollected run) n) none hnodes
      rw [(feedNode_extends n _).ledger.room, hroom] at hrest
      rw [hroom] at hnode
      exact hrest hl.2 (hnode hl.1 (h.readCollected run))

theorem feedNode_steady : ∀ (n : Node) (b : Assembly), (∀ m ∈ n.walk, m.isWritten = true) →
    n.rawText? = none → GoodLeft S (n.portions b.ledger.room true) →
    b.Steady S b.ledger.room → (feedNode b n).Steady S b.ledger.room
  | .call id location callee params, b, hw, _, hl, h => by
    rw [Node.portions] at hl
    have hparams := rewriteParams_sound params b.ledger
      (fun m hm => hw m (by rw [Node.walk]; exact List.mem_cons_of_mem _ hm)) hl
    rw [feedNode]
    refine ((h.ledger (rewriteParams b.ledger params).2).place ?_ rfl).reach _
    rw [Node.Sound, Node.portions]
    exact hparams
  | .binding id location var value, b, hw, _, hl, h => by
    rw [Node.portions] at hl
    have hvalue := rewriteValue_sound value b.ledger .letContent location
      (fun m hm => hw m (by rw [Node.walk]; exact List.mem_cons_of_mem _ hm)) hl
    rw [feedNode]
    refine ((h.ledger (rewriteValue b.ledger .letContent location value).2).place ?_ rfl).reach _
    rw [Node.Sound, Node.portions]
    exact hvalue
  | .flow flow, b, hw, _, hl, h => by
    have hroom := (b.extends_settle flow.location).ledger.room
    have hflow := rewriteFlow_sound flow (b.settle flow.location).ledger
      (b.settle flow.location).context
      (fun m hm => hw m (by rw [Node.walk]; exact List.mem_cons_of_mem _ hm))
    rw [Node.portions] at hl
    rw [hroom] at hflow
    have hexit := (rewriteFlowGuarded_eq flow (b.settle flow.location).ledger
      (b.settle flow.location).context (Assembly.isSettled_settle h.tagged _)).2
    rw [feedNode]
    refine (((h.settle flow.location).ledger _).placeFlow ?_ hexit).reach _
    rw [Node.Sound, Node.portions]
    exact hflow hl (Assembly.isSettled_settle h.tagged _)
  | .print id location expr, b, _, _, _, h => by
    rw [feedNode]
    · refine (h.place ?_ rfl).reach _
      rw [Node.Sound, Node.portions]
      · exact nofun
      all_goals simp
    all_goals simp
  | .raw .., _, _, ht, _, _ => nomatch ht
  | .openTag id s name children selfClosing, _, hw, _, _, _ => nomatch hw _ (Node.mem_walk _)
  | .closeTag id s name, _, hw, _, _, _ => nomatch hw _ (Node.mem_walk _)
  | .attr id s name value, _, hw, _, _, _ => nomatch hw _ (Node.mem_walk _)
  | .attrValue id s quotes children, _, hw, _, _, _ => nomatch hw _ (Node.mem_walk _)
  | .comment id s children, _, hw, _, _, _ => nomatch hw _ (Node.mem_walk _)

theorem rewriteFlow_sound : ∀ (flow : Flow) (l : Ledger) (entry : Context),
    (∀ m ∈ flow.walk, m.isWritten = true) → GoodLeft S (flow.portions l.room true) →
    entry.isSettled = true → ∀ p ∈ (rewriteFlow l entry flow).1.portions l.room true, S.good p
  | ⟨id, location, head, branches⟩, l, entry, hw, hl, he => by
    rw [Flow.walk] at hw
    rw [rewriteFlow]
    dsimp only
    split
    · next hd =>
      rw [Flow.portions_of_deep hd] at hl ⊢
      rw [List.forall_mem_singleton]
      exact hl _ (List.mem_singleton_self _)
    · next hd =>
      rw [Flow.portions_of_room hd] at hl ⊢
      exact rewriteBranches_sound branches _ entry location.start hw hl he

theorem rewriteBranches_sound : ∀ (branches : List Branch) (l : Ledger) (entry : Context)
    (offset : Nat), WrittenBranches branches → GoodLeft S (branchesPortions l.room true branches) →
    entry.isSettled = true →
    ∀ p ∈ branchesPortions l.room true (rewriteBranches l entry offset branches).1, S.good p
  | [], l, entry, offset, _, _, _ => by
    rw [rewriteBranches, branchesPortions]
    exact nofun
  | branch :: branches, l, entry, offset, hw, hl, he => by
    rw [WrittenBranches, walkBranches, List.forall_mem_append] at hw
    rw [branchesPortions, GoodLeft.append] at hl
    have hbranch := rewriteBranch_sound branch l entry offset hw.1 hl.1 he
    have hbranches := rewriteBranches_sound branches (rewriteBranch l entry offset branch).2.2 entry
      offset hw.2
    rw [(rewriteBranch_extends branch l entry offset).room] at hbranches
    rw [rewriteBranches, branchesPortions]
    exact List.forall_mem_append.mpr ⟨hbranch, hbranches hl.2 he⟩

theorem rewriteBranch_sound : ∀ (branch : Branch) (l : Ledger) (entry : Context) (offset : Nat),
    (∀ m ∈ branch.walk, m.isWritten = true) → GoodLeft S (branch.portions l.room true) →
    entry.isSettled = true →
    ∀ p ∈ (rewriteBranch l entry offset branch).1.portions l.room true, S.good p
  | ⟨id, kind, nodes⟩, l, entry, offset, hw, hl, he => by
    rw [Branch.walk] at hw
    rw [Branch.portions, if_pos rfl, List.singleton_append, GoodLeft.cons] at hl
    have hfed := feedNodes_steady nodes (.start l.countBranch entry true offset) none hw hl
      (Assembly.steady_start _ he _ _)
    rw [rewriteBranch, Branch.portions, if_pos rfl, List.singleton_append]
    exact (hfed.endBranch).out.reverse.built

theorem rewriteParams_sound : ∀ (params : List Param) (l : Ledger), WrittenParams params →
    GoodLeft S (paramsPortions l.room params) →
    ∀ p ∈ paramsPortions l.room (rewriteParams l params).1, S.good p
  | [], l, _, _ => by
    rw [rewriteParams, paramsPortions]
    exact nofun
  | p :: params, l, hw, hl => by
    rw [WrittenParams, walkParams, List.forall_mem_append] at hw
    rw [paramsPortions, GoodLeft.append] at hl
    have hp := rewriteParam_sound p l hw.1 hl.1
    have hparams := rewriteParams_sound params (rewriteParam l p).2 hw.2
    rw [(rewriteParam_extends p l).room] at hparams
    rw [rewriteParams, paramsPortions]
    exact List.forall_mem_append.mpr ⟨hp, hparams hl.2⟩

theorem rewriteParam_sound : ∀ (p : Param) (l : Ledger), (∀ m ∈ p.walk, m.isWritten = true) →
    GoodLeft S (p.portions l.room) → ∀ q ∈ (rewriteParam l p).1.portions l.room, S.good q
  | ⟨id, location, name, value⟩, l, hw, hl => by
    rw [Param.walk] at hw
    rw [Param.portions] at hl
    rw [rewriteParam, Param.portions]
    exact rewriteValue_sound value l .paramContent location hw hl

/-- **What a content block is put together of is good**, if what it leaves as it is is good. -/
theorem rewriteValue_sound : ∀ (value : Value) (l : Ledger) (block : BlockKind) (location : Span),
    (∀ m ∈ value.walk, m.isWritten = true) → GoodLeft S (value.portions l.room) →
    ∀ p ∈ (rewriteValue l block location value).1.portions l.room, S.good p
  | .expr expr, l, block, location, _, _ => by
    rw [rewriteValue, Value.portions]
    exact nofun
  | .content kind nodes, l, block, location, hw, hl => by
    rw [Value.walk] at hw
    rw [Value.portions] at hl
    rw [rewriteValue]
    cases hentry : Context.entry? (declaredOrHtml kind) with
    | some entry =>
      rw [hentry] at hl
      dsimp only at hl ⊢
      have hfed := feedNodes_steady nodes (.start l.countBlock entry false location.start) none hw
        (GoodLeft.cons.mp hl) (Assembly.steady_start _ (Context.isSettled_of_entry? hentry) _ _)
      rw [Value.portions, hentry]
      exact (hfed.endBlock block).out.reverse.built
    | none =>
      rw [hentry] at hl
      dsimp only at hl ⊢
      rw [Value.portions, hentry]
      exact enterNodes_sound nodes l.countBlock hw hl

theorem enterNodes_sound : ∀ (nodes : List Node) (l : Ledger), AllWritten nodes →
    GoodLeft S (portions l.room false nodes) →
    ∀ p ∈ portions l.room false (enterNodes l nodes).1, S.good p
  | [], l, _, _ => by
    rw [enterNodes, portions]
    exact nofun
  | n :: nodes, l, hw, hl => by
    obtain ⟨hn, hnodes⟩ := written_cons.mp hw
    rw [portions, GoodLeft.append] at hl
    have hfirst := enterNode_sound n l hn hl.1
    have hlater := enterNodes_sound nodes (enterNode l n).2 hnodes
    rw [(enterNode_extends n l).room] at hlater
    rw [enterNodes, portions]
    exact List.forall_mem_append.mpr ⟨hfirst, hlater hl.2⟩

theorem enterNode_sound : ∀ (n : Node) (l : Ledger), (∀ m ∈ n.walk, m.isWritten = true) →
    GoodLeft S (n.portions l.room false) → ∀ p ∈ (enterNode l n).1.portions l.room false, S.good p
  | .call id location callee params, l, hw, hl => by
    rw [Node.portions] at hl
    rw [enterNode, Node.portions]
    exact rewriteParams_sound params l
      (fun m hm => hw m (by rw [Node.walk]; exact List.mem_cons_of_mem _ hm)) hl
  | .binding id location var value, l, hw, hl => by
    rw [Node.portions] at hl
    rw [enterNode, Node.portions]
    exact rewriteValue_sound value l .letContent location
      (fun m hm => hw m (by rw [Node.walk]; exact List.mem_cons_of_mem _ hm)) hl
  | .flow flow, l, hw, hl => by
    rw [Node.portions] at hl
    rw [enterNode, Node.portions]
    exact enterFlow_sound flow l
      (fun m hm => hw m (by rw [Node.walk]; exact List.mem_cons_of_mem _ hm)) hl
  | .raw .., l, hw, _ | .print .., l, hw, _ => by
    rw [enterNode, Node.portions]
    · exact nofun
    all_goals simp
  | .openTag id s name children selfClosing, _, hw, _ => nomatch hw _ (Node.mem_walk _)
  | .closeTag id s name, _, hw, _ => nomatch hw _ (Node.mem_walk _)
  | .attr id s name value, _, hw, _ => nomatch hw _ (Node.mem_walk _)
  | .attrValue id s quotes children, _, hw, _ => nomatch hw _ (Node.mem_walk _)
  | .comment id s children, _, hw, _ => nomatch hw _ (Node.mem_walk _)

theorem enterFlow_sound : ∀ (flow : Flow) (l : Ledger), (∀ m ∈ flow.walk, m.isWritten = true) →
    GoodLeft S (flow.portions l.room false) →
    ∀ p ∈ (enterFlow l flow).1.portions l.room false, S.good p
  | ⟨id, location, head, branches⟩, l, hw, hl => by
    rw [Flow.walk] at hw
    rw [Flow.portions] at hl
    rw [enterFlow, Flow.portions]
    exact enterBranches_sound branches l hw hl

theorem enterBranches_sound : ∀ (branches : List Branch) (l : Ledger), WrittenBranches branches →
    GoodLeft S (branchesPortions l.room false branches) →
    ∀ p ∈ branchesPortions l.room false (enterBranches l branches).1, S.good p
  | [], l, _, _ => by
    rw [enterBranches, branchesPortions]
    exact nofun
  | branch :: branches, l, hw, hl => by
    rw [WrittenBranches, walkBranches, List.forall_mem_append] at hw
    rw [branchesPortions, GoodLeft.append] at hl
    have hfirst := enterBranch_sound branch l hw.1 hl.1
    have hlater := enterBranches_sound branches (enterBranch l branch).2 hw.2
    rw [(enterBranch_extends branch l).room] at hlater
    rw [enterBranches, branchesPortions]
    exact List.forall_mem_append.mpr ⟨hfirst, hlater hl.2⟩

theorem enterBranch_sound : ∀ (branch : Branch) (l : Ledger),
    (∀ m ∈ branch.walk, m.isWritten = true) → GoodLeft S (branch.portions l.room false) →
    ∀ p ∈ (enterBranch l branch).1.portions l.room false, S.good p
  | ⟨id, kind, nodes⟩, l, hw, hl => by
    rw [Branch.walk] at hw
    rw [Branch.portions, if_neg Bool.false_ne_true, List.nil_append] at hl
    rw [enterBranch, Branch.portions, if_neg Bool.false_ne_true, List.nil_append]
    exact enterNodes_sound nodes l hw hl

end

end Pass

/-! ## 9. Templates -/

/-- What is put together is in normal form, and nothing is asked of the rest. -/
def seamlessStandard : Standard where
  good p := ∀ nodes, p = .built nodes → Seamless nodes
  built h nodes hp := by
    cases hp
    exact h

/-- **All text is in normal form after a run**, whatever is reported: in every list of nodes that a
run puts together, a block or a branch of html or attributes, a value or a comment, no text is empty
and no two texts stand side by side. -/
theorem Template.rewrite_seamless {src : Text} {kind : ContentKind} {ids ids' : IdSource}
    {t : Template} (hread : Template.read src kind ids = .ok (t, ids')) (config : Config)
    (fresh : IdSource) {nodes : List Node}
    (hnodes : .built nodes ∈ (t.rewrite config fresh).result.portions config.maxDepth) :
    Seamless nodes := by
  have hw := Template.written_of_read hread
  have hsound := rewriteValue_sound (S := seamlessStandard) (.content (some t.kind) t.nodes)
    (.start config fresh) .template t.location (by rw [Value.walk]; exact hw) (fun _ _ _ => nofun)
  obtain ⟨rebuilt, hvalue⟩ := exists_rewriteValue_eq (.start config fresh) .template t.location
    (some t.kind) t.nodes
  unfold Template.rewrite rewriteBlock Template.portions at hnodes
  dsimp only [Ledger.outcome] at hnodes
  rw [hvalue] at hsound hnodes
  exact hsound _ hnodes nodes rfl

/-- In `<b c='x{sp}y'>{if $c}<{sp}<{else}<!--{sp}{/if}`, read piece by piece, the first branch gives
up a tag between two pieces of text, and it holds one text. -/
theorem Template.rewrite_seamless_abortedTag :
    ∃ t ids, Template.read ("<b c='x\x7bsp\x7dy'>\x7bif $c\x7d<\x7bsp\x7d<" ++
        "\x7belse\x7d<!--\x7bsp\x7d\x7b/if\x7d").toList .html (.startingAt 0) = .ok (t, ids)
      ∧ (t.rewrite { joinText := false } ids).diagnostics ≠ []
      ∧ ∃ nodes, .built nodes ∈ (t.rewrite { joinText := false } ids).result.portions 256
        ∧ nodes.map Node.rawText? = [some "< <".toList] ∧ Seamless nodes := by
  have hcheck : (Template.read ("<b c='x\x7bsp\x7dy'>\x7bif $c\x7d<\x7bsp\x7d<" ++
      "\x7belse\x7d<!--\x7bsp\x7d\x7b/if\x7d").toList .html (.startingAt 0)).toOption.any
      (fun r => !(r.1.rewrite { joinText := false } r.2).diagnostics.isEmpty
        && ((r.1.rewrite { joinText := false } r.2).result.portions 256).any fun
          | .built nodes => nodes.map Node.rawText? == [some "< <".toList]
          | .left _ => false) = true := by decide +kernel
  cases hread : Template.read ("<b c='x\x7bsp\x7dy'>\x7bif $c\x7d<\x7bsp\x7d<" ++
      "\x7belse\x7d<!--\x7bsp\x7d\x7b/if\x7d").toList .html (.startingAt 0) with
  | error r =>
    rw [hread] at hcheck
    cases hcheck
  | ok r =>
    rw [hread] at hcheck
    obtain ⟨hsome, hportions⟩ := Bool.and_eq_true_iff.mp hcheck
    obtain ⟨p, hp, htext⟩ := List.any_eq_true.mp hportions
    cases p with
    | left f => cases htext
    | built nodes =>
      refine ⟨r.1, r.2, rfl, fun hnil => ?_, nodes, hp, beq_iff_eq.mp htext,
        Template.rewrite_seamless hread { joinText := false } r.2 hp⟩
      rw [hnil] at hsome
      cases hsome

end TemplateMarkup
