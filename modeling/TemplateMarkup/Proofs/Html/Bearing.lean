/-
# What holds of every part

A property that holds of what is put together of nodes that have it (`Node.Builds`) holds of every
part of an assembly if it holds of the nodes that are placed: of the finished nodes, of the name and
the children of a tag, of the name of an attribute, of what is in a value or a comment
(`Assembly.Bears`).  With it all nodes in the parts may have it too (`Node.Builds.deep`).

Two more things may be asked for: `among`, of what stands among the attributes of a tag, and
`gives`, of what is given as the value of an attribute.
-/
import TemplateMarkup.Proofs.Html.Drafts
import TemplateMarkup.Proofs.Template.Written

namespace TemplateMarkup

/-! ## 1. Properties of nodes -/

/-- The property holds of what the pass makes of nodes that have it. -/
structure Node.Builds (P among gives : Node → Prop) : Prop where
  raw (id : NodeId) (s : Span) (t : Text) : P (.raw id s t)
  openTag (id : NodeId) (s : Span) {name : Node} {children : List Node} (selfClosing : Bool) :
    P name → (∀ n ∈ children, P n) → (∀ n ∈ children, among n) →
      P (.openTag id s name children selfClosing)
  closeTag (id : NodeId) (s : Span) {name : Node} : P name → P (.closeTag id s name)
  attr (id : NodeId) (s : Span) {name : Node} {value : Option Node} : P name →
    (∀ v, value = some v → P v ∧ gives v) → P (.attr id s name value)
  attr_among (id : NodeId) (s : Span) (name : Node) (value : Option Node) :
    among (.attr id s name value)
  attrValue (id : NodeId) (s : Span) (quotes : Quotes) {children : List Node} :
    (∀ n ∈ children, P n) → P (.attrValue id s quotes children)
  attrValue_gives (id : NodeId) (s : Span) (quotes : Quotes) (children : List Node) :
    gives (.attrValue id s quotes children)
  comment (id : NodeId) (s : Span) {children : List Node} : (∀ n ∈ children, P n) →
    P (.comment id s children)

/-- The property holds of the node and of all nodes in it. -/
def Node.Deep (P : Node → Prop) (n : Node) : Prop := ∀ m ∈ n.walk, P m

theorem forall_mem_walk {P : Node → Prop} {nodes : List Node} :
    (∀ m ∈ walk nodes, P m) ↔ ∀ n ∈ nodes, n.Deep P := by
  induction nodes with
  | nil => simp [walk]
  | cons n nodes ih =>
    rw [walk, List.forall_mem_append, List.forall_mem_cons, ih]
    exact Iff.rfl

theorem Node.Deep.self {P : Node → Prop} {n : Node} (h : n.Deep P) : P n := h n n.mem_walk

/-- **What holds of all that is put together holds at every depth.** -/
theorem Node.Builds.deep {P among gives : Node → Prop} (hP : Node.Builds P among gives) :
    Node.Builds (Node.Deep P) among gives where
  raw id s t := by
    intro m hm
    rw [Node.walk, List.mem_singleton] at hm
    rw [hm]
    exact hP.raw ..
  openTag id s name children selfClosing hn hc hs := by
    intro m hm
    rw [Node.walk, List.mem_cons, List.mem_append] at hm
    rcases hm with rfl | hm | hm
    · exact hP.openTag _ _ _ hn.self (fun n h => (hc n h).self) hs
    · exact hn m hm
    · exact forall_mem_walk.mpr hc m hm
  closeTag id s name hn := by
    intro m hm
    rw [Node.walk, List.mem_cons] at hm
    rcases hm with rfl | hm
    · exact hP.closeTag _ _ hn.self
    · exact hn m hm
  attr id s name value hn hv := by
    have hself := hP.attr id s hn.self fun v h => ⟨(hv v h).1.self, (hv v h).2⟩
    intro m hm
    cases value with
    | none =>
      rw [Node.walk, List.mem_cons] at hm
      rcases hm with rfl | hm
      · exact hself
      · exact hn m hm
    | some v =>
      rw [Node.walk, List.mem_cons, List.mem_append] at hm
      rcases hm with rfl | hm | hm
      · exact hself
      · exact hn m hm
      · exact (hv v rfl).1 m hm
  attr_among := hP.attr_among
  attrValue id s quotes children hc := by
    intro m hm
    rw [Node.walk, List.mem_cons] at hm
    rcases hm with rfl | hm
    · exact hP.attrValue _ _ _ fun n h => (hc n h).self
    · exact forall_mem_walk.mpr hc m hm
  attrValue_gives := hP.attrValue_gives
  comment id s children hc := by
    intro m hm
    rw [Node.walk, List.mem_cons] at hm
    rcases hm with rfl | hm
    · exact hP.comment _ _ fun n h => (hc n h).self
    · exact forall_mem_walk.mpr hc m hm

/-! ## 2. Parts -/

/-- The property holds of the parts of a tag. -/
structure TagDraft.Bears (P among : Node → Prop) (t : TagDraft) : Prop where
  name : ∀ n, t.name = some n → P n
  children : ∀ n ∈ t.children, P n
  among : ∀ n ∈ t.children, among n

/-- **The property holds of all parts.** -/
structure Assembly.Bears (P among : Node → Prop) (b : Assembly) : Prop where
  out : ∀ n ∈ b.out, P n
  tag : ∀ t, b.tag = some t → t.Bears P among
  attr : ∀ a, b.attr = some a → ∀ n, a.name = some n → P n
  value : ∀ v, b.value = some v → ∀ n ∈ v.children, P n
  comment : ∀ c, b.comment = some c → ∀ n ∈ c.children, P n

namespace Assembly

variable {P among gives : Node → Prop} {b : Assembly} {n : Node}

theorem bears_start (l : Ledger) (entry : Context) (inBranch : Bool) (offset : Nat) :
    (start l entry inBranch offset).Bears P among :=
  ⟨nofun, nofun, nofun, nofun, nofun⟩

theorem Bears.ledger (h : b.Bears P among) (l : Ledger) :
    ({ b with ledger := l } : Assembly).Bears P among :=
  ⟨h.out, h.tag, h.attr, h.value, h.comment⟩

theorem Bears.reach (h : b.Bears P among) (offset : Nat) : (b.reach offset).Bears P among :=
  ⟨h.out, h.tag, h.attr, h.value, h.comment⟩

theorem Bears.enter (h : b.Bears P among) (next : Context) (offset : Nat) :
    (b.enter next offset).Bears P among := by
  unfold Assembly.enter
  split
  · exact h
  · exact ⟨h.out, h.tag, h.attr, h.value, h.comment⟩

theorem Bears.report (h : b.Bears P among) (location : Span) (fault : Fault) :
    (b.report location fault).Bears P among := h.ledger _

theorem Bears.addOut (h : b.Bears P among) (hn : P n) : (b.addOut n).Bears P among where
  out := List.forall_mem_cons.mpr ⟨hn, h.out⟩
  tag := h.tag
  attr := h.attr
  value := h.value
  comment := h.comment

theorem Bears.content (h : b.Bears P among) : ∀ n ∈ b.content, P n := by
  unfold Assembly.content
  split
  · next _ hv => exact h.value _ hv
  · next _ hc => exact h.comment _ hc
  · exact h.out

theorem Bears.setContent (h : b.Bears P among) {nodes : List Node} (hn : ∀ n ∈ nodes, P n) :
    (b.setContent nodes).Bears P among := by
  unfold Assembly.setContent
  split
  · exact ⟨h.out, h.tag, h.attr, fun _ hv => by cases hv; exact hn, h.comment⟩
  · exact ⟨h.out, h.tag, h.attr, h.value, fun _ hc => by cases hc; exact hn⟩
  · exact ⟨hn, h.tag, h.attr, h.value, h.comment⟩

theorem Bears.addContent (h : b.Bears P among) (hn : P n) : (b.addContent n).Bears P among :=
  h.setContent (List.forall_mem_cons.mpr ⟨hn, h.content⟩)

theorem Bears.addText (h : b.Bears P among) (hP : Node.Builds P among gives) (text : Text)
    (location : Span) : (b.addText text location).Bears P among := by
  have hc := h.content
  unfold Assembly.addText
  split
  · next hb =>
    rw [hb] at hc
    exact h.setContent (List.forall_mem_cons.mpr
      ⟨hP.raw _ _ _, fun n hn => hc n (List.mem_cons_of_mem _ hn)⟩)
  · exact (h.ledger _).setContent (List.forall_mem_cons.mpr ⟨hP.raw _ _ _, hc⟩)

theorem Bears.addAmongAttrs (h : b.Bears P among) (hn : P n) (hs : among n) :
    (b.addAmongAttrs n).Bears P among := by
  unfold Assembly.addAmongAttrs
  split
  · next t ht =>
    have hf := h.tag t ht
    refine ⟨h.out, fun _ ht' => ?_, h.attr, h.value, h.comment⟩
    cases ht'
    exact ⟨hf.name, List.forall_mem_cons.mpr ⟨hn, hf.children⟩,
      List.forall_mem_cons.mpr ⟨hs, hf.among⟩⟩
  · exact h.addOut hn

/-! ### Tags -/

theorem Bears.openTag (h : b.Bears P among) (close : Bool) (location : Span) :
    (b.openTag close location).Bears P among where
  out := h.out
  tag := fun _ ht => by cases ht; exact ⟨nofun, nofun, nofun⟩
  attr := h.attr
  value := h.value
  comment := h.comment

/-- A tag of which a part is replaced, or none. -/
theorem Bears.setTag (h : b.Bears P among) {tag : Option TagDraft}
    (ht : ∀ t, tag = some t → t.Bears P among) :
    ({ b with tag := tag } : Assembly).Bears P among :=
  ⟨h.out, ht, h.attr, h.value, h.comment⟩

theorem Bears.dropTag (h : b.Bears P among) : ({ b with tag := none } : Assembly).Bears P among :=
  h.setTag fun _ ht => by cases ht

theorem Bears.addTagName (h : b.Bears P among) (text : Text) (location : Span) :
    (b.addTagName text location).Bears P among := by
  unfold Assembly.addTagName
  split
  · exact h
  · next t ht =>
    have hf := h.tag t ht
    exact h.setTag fun _ ht' => by cases ht'; exact ⟨hf.name, hf.children, hf.among⟩

theorem Bears.finishTagName (h : b.Bears P among) (hP : Node.Builds P among gives) :
    b.finishTagName.Bears P among := by
  unfold Assembly.finishTagName
  split
  · exact h
  · next t ht =>
    have hf := h.tag t ht
    split
    · refine (h.ledger _).setTag fun _ ht' => ?_
      cases ht'
      exact ⟨fun _ hn => by cases hn; exact hP.raw _ _ _, hf.children, hf.among⟩
    · exact h

theorem Bears.abortTag (h : b.Bears P among) (hP : Node.Builds P among gives) :
    b.abortTag.Bears P among := by
  unfold Assembly.abortTag
  split
  · exact h
  · next t ht =>
    have hf := h.tag t ht
    have htext := (h.dropTag.enter t.outside t.start).addText hP
      ((if t.close then ['<', '/'] else ['<']) ++ t.nameText)
      (Span.upTo t.start t.nameLocation.stop)
    dsimp only
    split
    · next n hn => exact htext.addOut (hf.name n hn)
    · exact htext

theorem Bears.addCloseTag (h : b.Bears P among) (hP : Node.Builds P among gives) {t : TagDraft}
    (hf : t.Bears P among) (hn : P n) (location : Span) :
    (b.addCloseTag t n location).Bears P among := by
  have hout : ∀ m ∈ t.children ++ Node.closeTag b.ledger.ids.next location n :: b.out, P m :=
    List.forall_mem_append.mpr ⟨hf.children, List.forall_mem_cons.mpr
      ⟨hP.closeTag _ _ hn, h.out⟩⟩
  unfold Assembly.addCloseTag
  dsimp only
  refine Bears.enter ?_ _ _
  split <;> split <;> exact ⟨hout, h.tag, h.attr, h.value, h.comment⟩

theorem Bears.addOpenTag (h : b.Bears P among) (hP : Node.Builds P among gives) {t : TagDraft}
    (hf : t.Bears P among) (hn : P n) (location : Span) (selfClosing bodyFollows : Bool) :
    (b.addOpenTag t n location selfClosing bodyFollows).Bears P among := by
  have hnode : P (.openTag b.ledger.ids.next location n t.children.reverse selfClosing) :=
    hP.openTag _ _ _ hn (fun m hm => hf.children m (List.mem_reverse.mp hm))
      fun m hm => hf.among m (List.mem_reverse.mp hm)
  unfold Assembly.addOpenTag
  refine Bears.enter ?_ _ _
  exact ⟨List.forall_mem_cons.mpr ⟨hnode, h.out⟩, h.tag, h.attr, h.value, h.comment⟩

theorem Bears.closeTag (h : b.Bears P among) (hP : Node.Builds P among gives)
    (selfClosing : Bool) (stop : Nat) (bodyFollows : Bool) :
    (b.closeTag selfClosing stop bodyFollows).Bears P among := by
  unfold Assembly.closeTag
  split
  · exact h
  · next t ht =>
    have hf := h.tag t ht
    split
    · exact h.abortTag hP
    · next n hn =>
      dsimp only
      split
      · exact h.dropTag.addCloseTag hP hf (hf.name n hn) _
      · exact h.dropTag.addOpenTag hP hf (hf.name n hn) _ _ _

/-! ### Attributes, values and comments -/

theorem Bears.reportAttr (h : b.Bears P among) (location : Span) :
    (b.reportAttr location).Bears P among := by
  unfold Assembly.reportAttr
  split
  · exact h
  · exact h.report _ _
  · next t _ ht =>
    have hf := h.tag t ht
    split
    · exact h
    · exact (h.report _ _).setTag fun _ ht' => by
        cases ht'
        exact ⟨hf.name, hf.children, hf.among⟩

/-- An attribute of which a part is replaced, or none. -/
theorem Bears.setAttr (h : b.Bears P among) {attr : Option AttrDraft}
    (ha : ∀ a, attr = some a → ∀ n, a.name = some n → P n) :
    ({ b with attr := attr } : Assembly).Bears P among :=
  ⟨h.out, h.tag, ha, h.value, h.comment⟩

theorem Bears.dropAttr (h : b.Bears P among) : ({ b with attr := none } : Assembly).Bears P among :=
  h.setAttr fun _ ha => by cases ha

theorem Bears.openAttr (h : b.Bears P among) (location : Span) {name : Option Node}
    (discard : Bool) (hn : ∀ n, name = some n → P n) :
    (b.openAttr location name discard).Bears P among :=
  (h.reportAttr location).setAttr fun _ ha => by cases ha; exact hn

theorem Bears.addAttrName (h : b.Bears P among) (text : Text) (location : Span) :
    (b.addAttrName text location).Bears P among := by
  unfold Assembly.addAttrName
  split
  · exact h
  · next a ha =>
    split
    · exact h
    · exact h.setAttr fun _ ha' => by cases ha'; exact h.attr a ha

theorem Bears.discardAttr (h : b.Bears P among) : b.discardAttr.Bears P among := by
  refine h.setAttr fun _ ha => ?_
  obtain ⟨a, hb, rfl⟩ := Option.map_eq_some_iff.mp ha
  exact h.attr a hb

theorem Bears.finishAttrName (h : b.Bears P among) (hP : Node.Builds P among gives) :
    b.finishAttrName.Bears P among := by
  unfold Assembly.finishAttrName
  split
  · exact h
  · split
    · refine (h.ledger _).setAttr fun _ ha n hn => ?_
      cases ha
      cases hn
      exact hP.raw _ _ _
    · exact h

theorem Bears.addAttr (h : b.Bears P among) (hP : Node.Builds P among gives) {a : AttrDraft}
    (ha : ∀ n, a.name = some n → P n) {value : Option Node}
    (hv : ∀ v, value = some v → P v ∧ gives v) (stop : Nat) :
    (b.addAttr a value stop).Bears P among := by
  unfold Assembly.addAttr
  split
  · exact h
  · split
    · exact h
    · next n hn => exact (h.ledger _).addAmongAttrs (hP.attr _ _ (ha n hn) hv) (hP.attr_among ..)

theorem Bears.endAttr (h : b.Bears P among) (hP : Node.Builds P among gives) (stop : Nat) :
    (b.endAttr stop).Bears P among := by
  have hf := h.finishAttrName hP
  unfold Assembly.endAttr
  dsimp only
  split
  · exact hf
  · next a ha => exact hf.dropAttr.addAttr hP (hf.attr a ha) (fun _ hv => by cases hv) stop

theorem Bears.closeAttr (h : b.Bears P among) (hP : Node.Builds P among gives) (stop : Nat) :
    (b.closeAttr stop).Bears P among := (h.endAttr hP stop).enter _ _

theorem Bears.giveValue (h : b.Bears P among) (hP : Node.Builds P among gives) (hn : P n)
    (hg : gives n) (stop : Nat) : (b.giveValue n stop).Bears P among := by
  unfold Assembly.giveValue
  split
  · next a ha =>
    exact h.dropAttr.addAttr hP (h.attr a ha) (fun _ hv => by cases hv; exact ⟨hn, hg⟩) stop
  · have := h.addOut hn
    exact ⟨this.out, this.tag, this.attr, this.value, this.comment⟩

theorem Bears.fillSlot (h : b.Bears P among) (hP : Node.Builds P among gives) (hn : P n)
    (hg : gives n) (stop : Nat) : (b.fillSlot n stop).Bears P among :=
  (h.giveValue hP hn hg stop).enter _ _

/-- A value that is begun or ended. -/
theorem Bears.setValue (h : b.Bears P among) {value : Option ValueDraft}
    (hv : ∀ v, value = some v → ∀ n ∈ v.children, P n) :
    ({ b with value := value } : Assembly).Bears P among :=
  ⟨h.out, h.tag, h.attr, hv, h.comment⟩

theorem Bears.endValue (h : b.Bears P among) (hP : Node.Builds P among gives) (stop : Nat) :
    (b.endValue stop).Bears P among := by
  unfold Assembly.endValue
  split
  · exact h
  · next v hv =>
    have hnode : P (.attrValue b.ledger.ids.next (Span.upTo v.start stop) v.quotes
        v.children.reverse) :=
      hP.attrValue _ _ _ fun m hm => h.value v hv m (List.mem_reverse.mp hm)
    have hnone : ({ b with ledger := b.ledger.drawnForHtml, value := none } : Assembly).Bears
        P among :=
      (h.ledger _).setValue fun _ hv => by cases hv
    exact hnone.giveValue hP hnode (hP.attrValue_gives ..) stop

theorem Bears.closeValue (h : b.Bears P among) (hP : Node.Builds P among gives) (stop : Nat) :
    (b.closeValue stop).Bears P among := by
  unfold Assembly.closeValue
  split
  · exact h
  · exact (h.endValue hP stop).enter _ _

/-- A comment that is begun or ended. -/
theorem Bears.setComment (h : b.Bears P among) {comment : Option CommentDraft}
    (hc : ∀ c, comment = some c → ∀ n ∈ c.children, P n) :
    ({ b with comment := comment } : Assembly).Bears P among :=
  ⟨h.out, h.tag, h.attr, h.value, hc⟩

theorem Bears.endComment (h : b.Bears P among) (hP : Node.Builds P among gives) (stop : Nat) :
    (b.endComment stop).Bears P among := by
  unfold Assembly.endComment
  split
  · exact h
  · next c hc =>
    have hnode : P (.comment b.ledger.ids.next (Span.upTo c.start stop) c.children.reverse) :=
      hP.comment _ _ fun m hm => h.comment c hc m (List.mem_reverse.mp hm)
    exact ((h.ledger _).setComment fun _ hc => by cases hc).addOut hnode

/-! ## 3. Reading -/

theorem Bears.reportLexeme (h : b.Bears P among) (location : Span) (l : Lexeme) :
    (b.reportLexeme location l).Bears P among := by
  rw [reportLexeme_eq]
  exact h.ledger _

/-- **What a mark makes has the property.** -/
theorem Bears.apply (h : b.Bears P among) (hP : Node.Builds P among gives) (mark : Mark)
    (next : Context) (text : Text) (location : Span) :
    (b.apply mark next text location).Bears P among := by
  cases mark <;> dsimp only [Assembly.apply]
  case skip =>
    refine Bears.enter ?_ _ _
    split
    · exact h.discardAttr
    · exact h
  case tagStart close => exact (h.openTag _ _).enter _ _
  case tagNameChars => exact (h.addTagName _ _).enter _ _
  case tagNameEnd => exact (h.finishTagName hP).enter _ _
  case tagAbort =>
    split
    · exact h.abortTag hP
    · exact h.enter _ _
  case tagEnd selfClosing =>
    split
    · exact h.closeTag hP _ _ _
    · exact h.report _ _
  case attrNameStart => exact (h.openAttr _ _ fun _ hn => by cases hn).enter _ _
  case attrNameChar => exact (h.addAttrName _ _).enter _ _
  case attrNameEnd => exact (h.endAttr hP _).enter _ _
  case attrEquals => exact (h.finishAttrName hP).enter _ _
  case valueStart quotes => exact (h.setValue fun _ hv _ hm => by cases hv; cases hm).enter _ _
  case valueEnd =>
    split
    · exact (h.endValue hP _).enter _ _
    · split
      · exact (h.report _ _).enter _ _
      · exact (h.report _ _).addText hP _ _
  case commentStart => exact (h.setComment fun _ hc _ hm => by cases hc; cases hm).enter _ _
  case commentEnd =>
    split
    · exact (h.endComment hP _).enter _ _
    · exact (h.report _ _).addText hP _ _

theorem Bears.readRun (h : b.Bears P among) (hP : Node.Builds P among gives) (run : RawRun) :
    (b.readRun run).Bears P among := by
  have hread : (({ b with ledger := b.ledger.countRun } : Assembly).read run 0 none
      run.text).Bears P among := by
    refine read_rule (P := fun b _ _ => b.Bears P among) ?_ ?_ ?_ (h.ledger _)
      fun _ hk => by cases hk
    · exact fun location offset hb _ => (hb.reportLexeme location _).enter _ offset
    · exact fun location hb _ _ => hb.addText hP _ location
    · exact fun location place hb _ => (hb.reportLexeme location _).apply hP _ _ _ place
  exact ⟨hread.out, hread.tag, hread.attr, hread.value, hread.comment⟩

theorem Bears.readCollected (h : b.Bears P among) (hP : Node.Builds P among gives)
    (run : Option RawRun) : (b.readCollected run).Bears P among := by
  cases run with
  | none => exact h
  | some run => exact h.readRun hP run

theorem Bears.collect (h : b.Bears P among) (hP : Node.Builds P among gives)
    (run : Option RawRun) (text : Text) (location : Span) :
    (b.collect run text location).1.Bears P among := by
  unfold Assembly.collect
  split
  · exact h
  · split
    · exact h
    · exact h.readRun hP _

/-! ## 4. Placing -/

theorem Bears.placeContent (h : b.Bears P among) (hn : P n) : (b.placeContent n).Bears P among := by
  unfold Assembly.placeContent
  split
  · exact h.addContent hn
  · exact (h.addContent hn).enter _ _

theorem Bears.placeInTag (h : b.Bears P among) (hn : P n) (hs : n.isPrinting = true ∨ among n) :
    (b.placeInTag n).Bears P among := by
  unfold Assembly.placeInTag
  split
  · exact (h.openAttr _ _ fun _ hn' => by cases hn'; exact hn).enter _ _
  · next hp => exact h.addAmongAttrs hn (hs.resolve_left hp)

theorem Bears.placeTagName (h : b.Bears P among) (hP : Node.Builds P among gives) (hn : P n) :
    (b.placeTagName n).Bears P among := by
  unfold Assembly.placeTagName
  split
  · refine Bears.enter ?_ _ _
    split
    · next t ht =>
      have hf := h.tag t ht
      refine h.setTag fun _ ht' => ?_
      cases ht'
      exact ⟨fun _ hn' => by cases hn'; exact hn, hf.children, hf.among⟩
    · exact h.addOut hn
  · exact ((h.report _ _).abortTag hP).placeContent hn

theorem Bears.placeBeforeValue (h : b.Bears P among) (hP : Node.Builds P among gives) (hn : P n)
    (hs : n.isPrinting = true ∨ among n) : (b.placeBeforeValue n).Bears P among := by
  have bare (location : Span) : ({ b with value := some ⟨.bare, location.start, [n]⟩ }.enter
      (.attrValue .bare) location.start).Bears P among := by
    refine (h.setValue fun _ hv m hm => ?_).enter _ _
    cases hv
    rw [List.mem_singleton.mp hm]
    exact hn
  unfold Assembly.placeBeforeValue
  split
  · exact bare _
  · exact bare _
  · exact h.fillSlot hP hn (hP.attrValue_gives ..) _
  · next hprint hcall _ =>
    refine h.addAmongAttrs hn (hs.resolve_left fun hp => ?_)
    cases n <;> simp [Node.isPrinting] at hp
    · exact hprint _ _ _ rfl
    · exact hcall _ _ _ _ rfl

theorem Bears.reportJoined (h : b.Bears P among) (n : Node) :
    (b.reportJoined n).Bears P among := by
  unfold Assembly.reportJoined
  split
  · exact h.report _ _
  · exact h

/-- **A node that has the property is placed.**  In a tag it names an attribute, or stands among
them. -/
theorem Bears.place (h : b.Bears P among) (hP : Node.Builds P among gives) (hn : P n)
    (hs : n.isPrinting = true ∨ among n) : (b.place n).Bears P among := by
  unfold Assembly.place
  split
  case h_7 => exact h.placeTagName hP hn
  case h_8 => exact (((h.reportJoined n).finishTagName hP).enter _ _).placeInTag hn hs
  case h_9 => exact h.placeInTag hn hs
  case h_10 =>
    split
    · exact h
    · exact ((h.reportJoined n).closeAttr hP _).placeInTag hn hs
  case h_11 => exact h.placeBeforeValue hP hn hs
  all_goals exact h.placeContent hn

theorem Bears.settle (h : b.Bears P among) (hP : Node.Builds P among gives) (location : Span) :
    (b.settle location).Bears P among := by
  unfold Assembly.settle
  split
  · exact (h.report _ _).abortTag hP
  · exact (h.finishTagName hP).enter _ _
  · exact h.closeAttr hP _
  · exact h

/-- **Control flow that has the property is placed**; it may be given as a value. -/
theorem Bears.placeFlow (h : b.Bears P among) (hP : Node.Builds P among gives) {f : Flow}
    (hf : P (.flow f)) (hs : among (.flow f)) {exit : Context}
    (hg : b.context = .beforeAttrValue → exit = .beforeAttrName → gives (.flow f)) :
    (b.placeFlow f exit).Bears P among := by
  unfold Assembly.placeFlow
  split
  · next hb =>
    split
    · next hx => exact h.fillSlot hP hf (hg hb hx) _
    · exact (h.addAmongAttrs hf hs).enter _ _
  · exact (h.addAmongAttrs hf hs).enter _ _
  · exact (h.addContent hf).enter _ _

/-! ## 5. The end -/

theorem Bears.settleAtEnd (h : b.Bears P among) (hP : Node.Builds P among gives) :
    b.settleAtEnd.Bears P among := by
  unfold Assembly.settleAtEnd
  split
  · exact h.abortTag hP
  · exact (h.finishTagName hP).enter _ _
  · exact h.closeAttr hP _
  · exact h

theorem Bears.closeAnyAttr (h : b.Bears P among) (hP : Node.Builds P among gives) (stop : Nat) :
    (b.closeAnyAttr stop).Bears P among := by
  unfold Assembly.closeAnyAttr
  split
  · exact h.closeAttr hP _
  · exact h

theorem Bears.closeAnyComment (h : b.Bears P among) (hP : Node.Builds P among gives)
    (stop : Nat) : (b.closeAnyComment stop).Bears P among := by
  unfold Assembly.closeAnyComment
  split
  · exact (h.endComment hP _).enter _ _
  · exact h

theorem Bears.closeDrafts (h : b.Bears P among) (hP : Node.Builds P among gives) :
    b.closeDrafts.Bears P among := by
  rw [closeDrafts_eq]
  have hvalue := (h.settleAtEnd hP).closeValue hP b.offset
  exact ((hvalue.closeAnyAttr hP b.offset).closeTag hP _ _ _).closeAnyComment hP _

theorem Bears.endBranch (h : b.Bears P among) (hP : Node.Builds P among gives) :
    b.endBranch.Bears P among := by
  unfold Assembly.endBranch
  split
  · exact h.closeDrafts hP
  · exact (h.closeDrafts hP).report _ _

theorem Bears.endBlock (h : b.Bears P among) (hP : Node.Builds P among gives)
    (block : BlockKind) : (b.endBlock block).Bears P among := by
  unfold Assembly.endBlock Assembly.checkContext
  split
  · exact (h.report _ _).closeDrafts hP
  · exact h.closeDrafts hP

end Assembly

end TemplateMarkup
