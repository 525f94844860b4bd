/-
# Runs that go the same way

What a run does never depends on the names of nodes, nor on what is inside the nodes that it hands
on, nor on what has been counted and reported so far.  A `Likeness` says which nodes, places and
names count as the same: like nodes have the same text and lead to the same contexts, and nodes
built of like parts are like.  `Likeness.Ledgers` says which ledgers count as the same: like ledgers
draw like names, and stay like when the same is counted in both and one more diagnostic is reported
at like places.  Control flow that is nested too deep is reported where it is met, by no operation.

Assemblies are `Like` if all their parts are.  Every operation then takes like assemblies to like
assemblies, whatever the likeness is, so a statement about two runs has to look only at the nodes in
which the two differ.
-/
import Mathlib.Data.List.Forall2
import TemplateMarkup.Proofs.Html.Drafts
import TemplateMarkup.Proofs.Tree.Bare

namespace TemplateMarkup

/-! ## 1. Likeness -/

theorem Span.eq_of_bounds {s s' : Span} (hstart : s.start = s'.start) (hstop : s.stop = s'.stop) :
    s = s' := by
  obtain ⟨_, _, _⟩ := s
  obtain ⟨_, _, _⟩ := s'
  simp only [Span.mk.injEq]
  exact ⟨hstart, hstop⟩

/-- The value of an attribute, as a node. -/
def Node.isAttrValue : Node → Bool
  | .attrValue .. => true
  | _ => false

/-- Ledgers that differ in names and counters only. -/
structure Ledger.Same (l m : Ledger) : Prop where
  config : l.config = m.config
  depth : l.depth = m.depth
  diagnostics : l.diagnostics = m.diagnostics

/-- The fault of control flow that is nested too deep. -/
def Fault.isTooDeep : Fault → Bool
  | .controlFlowTooDeep _ => true
  | _ => false

/-- Which nodes, places and names of two runs count as the same. -/
structure Likeness where
  node : Node → Node → Prop
  place : Nat → Nat → Prop
  name : NodeId → NodeId → Prop
  place_max {o o' p p' : Nat} : place o o' → place p p' → place (max o p) (max o' p')
  place_min {o o' p p' : Nat} : place o o' → place p p' → place (min o p) (min o' p')
  named {n n' : Node} : node n n' → name n.id n'.id
  text {n n' : Node} : node n n' → n.rawText? = n'.rawText?
  printing {n n' : Node} : node n n' → n.isPrinting = n'.isPrinting
  valued {n n' : Node} : node n n' → n.isAttrValue = n'.isAttrValue
  after (here : Context) {n n' : Node} : node n n' →
    Assembly.contextAfter? here n = Assembly.contextAfter? here n'
  start {n n' : Node} : node n n' → place n.location.start n'.location.start
  stop {n n' : Node} : node n n' → place n.location.stop n'.location.stop
  raw {id id' : NodeId} {s s' : Span} (t : Text) : name id id' → place s.start s'.start →
    place s.stop s'.stop → node (.raw id s t) (.raw id' s' t)
  openTag {id id' : NodeId} {s s' : Span} {n n' : Node} {children children' : List Node}
    (selfClosing : Bool) : name id id' → place s.start s'.start → place s.stop s'.stop →
    node n n' → List.Forall₂ node children children' →
    node (.openTag id s n children selfClosing) (.openTag id' s' n' children' selfClosing)
  closeTag {id id' : NodeId} {s s' : Span} {n n' : Node} : name id id' →
    place s.start s'.start → place s.stop s'.stop → node n n' →
    node (.closeTag id s n) (.closeTag id' s' n')
  attr {id id' : NodeId} {s s' : Span} {n n' : Node} {value value' : Option Node} :
    name id id' → place s.start s'.start → place s.stop s'.stop → node n n' →
    Option.Rel node value value' → node (.attr id s n value) (.attr id' s' n' value')
  attrValue {id id' : NodeId} {s s' : Span} {children children' : List Node} (quotes : Quotes) :
    name id id' → place s.start s'.start → place s.stop s'.stop →
    List.Forall₂ node children children' →
    node (.attrValue id s quotes children) (.attrValue id' s' quotes children')
  comment {id id' : NodeId} {s s' : Span} {children children' : List Node} : name id id' →
    place s.start s'.start → place s.stop s'.stop → List.Forall₂ node children children' →
    node (.comment id s children) (.comment id' s' children')

namespace Likeness

variable (S : Likeness)

/-- Spans that begin and end at like places. -/
structure Spans (s s' : Span) : Prop where
  start : S.place s.start s'.start
  stop : S.place s.stop s'.stop

/-- Which ledgers of two runs count as the same: whatever is entered, it is entered in both. -/
structure Ledgers where
  rel : Ledger → Ledger → Prop
  next {l l' : Ledger} : rel l l' → S.name l.ids.next l'.ids.next
  drawn {l l' : Ledger} : rel l l' → rel l.drawn l'.drawn
  drawnForHtml {l l' : Ledger} : rel l l' → rel l.drawnForHtml l'.drawnForHtml
  countRun {l l' : Ledger} : rel l l' → rel l.countRun l'.countRun
  countChange {l l' : Ledger} : rel l l' → rel l.countChange l'.countChange
  report {l l' : Ledger} {s s' : Span} {fault : Fault} : fault.isTooDeep = false → rel l l' →
    S.Spans s s' → rel (l.report s fault) (l'.report s' fault)

/-- Ledgers that are compared without their names and counters, where all names count as the
same. -/
def Ledgers.ofSame (rel : Ledger → Ledger → Prop) (name : ∀ id id' : NodeId, S.name id id')
    (same : ∀ {l l' m m' : Ledger}, rel l l' → l.Same m → l'.Same m' → rel m m')
    (report : ∀ {l l' : Ledger} {s s' : Span} {fault : Fault}, fault.isTooDeep = false → rel l l' →
      S.Spans s s' → rel (l.report s fault) (l'.report s' fault)) : S.Ledgers where
  rel := rel
  next _ := name _ _
  drawn h := same h ⟨rfl, rfl, rfl⟩ ⟨rfl, rfl, rfl⟩
  drawnForHtml h := same h ⟨rfl, rfl, rfl⟩ ⟨rfl, rfl, rfl⟩
  countRun h := same h ⟨rfl, rfl, rfl⟩ ⟨rfl, rfl, rfl⟩
  countChange h := same h ⟨rfl, rfl, rfl⟩ ⟨rfl, rfl, rfl⟩
  report := report

/-- Two lists of like nodes. -/
abbrev Nodes (nodes nodes' : List Node) : Prop := List.Forall₂ S.node nodes nodes'

/-- Tags of the same kind with like names and attributes. -/
structure Tags (t t' : TagDraft) : Prop where
  close : t.close = t'.close
  start : S.place t.start t'.start
  nameText : t.nameText = t'.nameText
  nameLocation : S.Spans t.nameLocation t'.nameLocation
  name : Option.Rel S.node t.name t'.name
  children : S.Nodes t.children t'.children
  element : t.element = t'.element
  warned : t.warned = t'.warned

/-- Attributes with like names. -/
structure Attrs (a a' : AttrDraft) : Prop where
  start : S.place a.start a'.start
  nameText : a.nameText = a'.nameText
  nameLocation : S.Spans a.nameLocation a'.nameLocation
  name : Option.Rel S.node a.name a'.name
  discard : a.discard = a'.discard

/-- Values of like nodes. -/
structure Values (v v' : ValueDraft) : Prop where
  quotes : v.quotes = v'.quotes
  start : S.place v.start v'.start
  children : S.Nodes v.children v'.children

/-- Comments of like nodes. -/
structure Comments (c c' : CommentDraft) : Prop where
  start : S.place c.start c'.start
  children : S.Nodes c.children c'.children

/-- Runs of one text, from byte `pos` of the one and byte `pos'` of the other on. -/
structure Runs (run : RawRun) (pos : Nat) (run' : RawRun) (pos' : Nat) : Prop where
  locate (k : Nat) : S.place (run.locate (pos + k)) (run'.locate (pos' + k))
  locateEnd (k : Nat) : S.place (run.locateEnd (pos + k)) (run'.locateEnd (pos' + k))

/-- The same text held, from like places on. -/
structure Holds (run run' : RawRun) (held held' : Held) : Prop where
  text : held.text = held'.text
  start : S.place (run.locate held.start) (run'.locate held'.start)

/-- The same text collected at like places. -/
structure Collects (run run' : RawRun) : Prop where
  text : run.text = run'.text
  runs : S.Runs run 0 run' 0

end Likeness

/-- Assemblies whose parts are like. -/
structure Assembly.Like {S : Likeness} (L : S.Ledgers) (b b' : Assembly) : Prop where
  ledger : L.rel b.ledger b'.ledger
  entry : b.entry = b'.entry
  context : b.context = b'.context
  inBranch : b.inBranch = b'.inBranch
  out : S.Nodes b.out b'.out
  tag : Option.Rel S.Tags b.tag b'.tag
  attr : Option.Rel S.Attrs b.attr b'.attr
  value : Option.Rel S.Values b.value b'.value
  comment : Option.Rel S.Comments b.comment b'.comment
  slotFilled : b.slotFilled = b'.slotFilled
  /-- Like places may stand in where none is noted. -/
  rawStart {o o' : Nat} : S.place o o' → S.place (b.rawStart.getD o) (b'.rawStart.getD o')
  offset : S.place b.offset b'.offset

/-- Both are there, or neither is. -/
theorem cases_of_rel {α β : Type} {r : α → β → Prop} {x : Option α} {y : Option β}
    (h : Option.Rel r x y) : (x = none ∧ y = none) ∨ ∃ a a', x = some a ∧ y = some a' ∧ r a a' := by
  cases h with
  | none => exact .inl ⟨rfl, rfl⟩
  | some h => exact .inr ⟨_, _, rfl, rfl, h⟩

theorem isNone_of_rel {α β : Type} {r : α → β → Prop} {x : Option α} {y : Option β}
    (h : Option.Rel r x y) : x.isNone = y.isNone := by
  cases h <;> rfl

theorem isEmpty_of_forall₂ {α β : Type} {r : α → β → Prop} {l : List α} {l' : List β}
    (h : List.Forall₂ r l l') : l.isEmpty = l'.isEmpty := by
  cases h <;> rfl

/-- Lists are the same under a function if their elements are. -/
theorem map_eq_iff_forall₂ {α β : Type} {f : α → β} {l l' : List α} :
    l.map f = l'.map f ↔ List.Forall₂ (fun a a' => f a = f a') l l' := by
  rw [← List.forall₂_eq_eq_eq, List.forall₂_map_left_iff, List.forall₂_map_right_iff]

namespace Likeness

variable {S : Likeness}

theorem Spans.upTo {o o' p p' : Nat} (h : S.place o o') (h' : S.place p p') :
    S.Spans (Span.upTo o p) (Span.upTo o' p') := ⟨h, S.place_max h h'⟩

theorem Spans.union {s s' t t' : Span} (h : S.Spans s s') (h' : S.Spans t t') :
    S.Spans (s.union t) (s'.union t') := ⟨S.place_min h.start h'.start, S.place_max h.stop h'.stop⟩

theorem Spans.point {o o' : Nat} (h : S.place o o') : S.Spans (Span.point o) (Span.point o') :=
  ⟨h, h⟩

theorem spans {n n' : Node} (h : S.node n n') : S.Spans n.location n'.location :=
  ⟨S.start h, S.stop h⟩

theorem rcdata {n n' : Node} (h : S.node n n') : n.rcdata? = n'.rcdata? := by
  rw [Node.rcdata?, Node.rcdata?, S.text h]

theorem Tags.outside {t t' : TagDraft} (h : S.Tags t t') : t.outside = t'.outside := by
  rw [TagDraft.outside, TagDraft.outside, h.element]

theorem Runs.shift {run run' : RawRun} {pos pos' : Nat} (h : S.Runs run pos run' pos') (k : Nat) :
    S.Runs run (pos + k) run' (pos' + k) where
  locate j := by
    rw [Nat.add_assoc, Nat.add_assoc]
    exact h.locate _
  locateEnd j := by
    rw [Nat.add_assoc, Nat.add_assoc]
    exact h.locateEnd _

/-- The span of the next `k` bytes. -/
theorem Runs.spans {run run' : RawRun} {pos pos' : Nat} (h : S.Runs run pos run' pos') (k : Nat) :
    S.Spans (run.location pos (pos + k)) (run'.location pos' (pos' + k)) :=
  .upTo (h.locate 0) (h.locateEnd k)

/-- More text is held on both sides. -/
theorem Holds.add {run run' : RawRun} {pos pos' : Nat} {held held' : Option Held}
    (hpos : S.place (run.locate pos) (run'.locate pos'))
    (hh : Option.Rel (S.Holds run run') held held') (text : Text) :
    S.Holds run run' (Held.add held pos text) (Held.add held' pos' text) := by
  cases hh with
  | none => exact ⟨by rw [Held.text_add_none, Held.text_add_none], hpos⟩
  | some hh => exact ⟨by rw [Held.text_add_some, Held.text_add_some, hh.text], hh.start⟩

end Likeness

/-! ## 2. Operations -/

theorem Assembly.placeBeforeValue_eq (b : Assembly) (n : Node) :
    b.placeBeforeValue n =
      if n.isPrinting then
        { b with value := some ⟨.bare, n.location.start, [n]⟩ }.enter (.attrValue .bare)
          n.location.start
      else if n.isAttrValue then b.fillSlot n n.location.stop
      else b.addAmongAttrs n := by
  cases n <;> rfl

namespace Assembly.Like

open Likeness

variable {S : Likeness} {L : S.Ledgers} {b b' : Assembly}

/-- The ledgers are set on both sides, and may be compared in another way from there on. -/
theorem setLedger {M : S.Ledgers} (h : b.Like L b') {l l' : Ledger} (hl : M.rel l l') :
    ({ b with ledger := l } : Assembly).Like M { b' with ledger := l' } := { h with ledger := hl }

/-- One more name is drawn on both sides. -/
theorem drawn (h : b.Like L b') :
    ({ b with ledger := b.ledger.drawn } : Assembly).Like L
      { b' with ledger := b'.ledger.drawn } := h.setLedger (L.drawn h.ledger)

theorem drawnForHtml (h : b.Like L b') :
    ({ b with ledger := b.ledger.drawnForHtml } : Assembly).Like L
      { b' with ledger := b'.ledger.drawnForHtml } := h.setLedger (L.drawnForHtml h.ledger)

theorem setOut (h : b.Like L b') {nodes nodes' : List Node} (hn : S.Nodes nodes nodes') :
    ({ b with out := nodes } : Assembly).Like L { b' with out := nodes' } := { h with out := hn }

theorem setTag (h : b.Like L b') {t t' : Option TagDraft} (ht : Option.Rel S.Tags t t') :
    ({ b with tag := t } : Assembly).Like L { b' with tag := t' } := { h with tag := ht }

theorem setAttr (h : b.Like L b') {a a' : Option AttrDraft} (ha : Option.Rel S.Attrs a a') :
    ({ b with attr := a } : Assembly).Like L { b' with attr := a' } := { h with attr := ha }

theorem setValue (h : b.Like L b') {v v' : Option ValueDraft} (hv : Option.Rel S.Values v v') :
    ({ b with value := v } : Assembly).Like L { b' with value := v' } := { h with value := hv }

theorem setComment (h : b.Like L b') {c c' : Option CommentDraft}
    (hc : Option.Rel S.Comments c c') :
    ({ b with comment := c } : Assembly).Like L { b' with comment := c' } :=
  { h with comment := hc }

theorem enter (h : b.Like L b') (next : Context) {o o' : Nat} (ho : S.place o o') :
    (b.enter next o).Like L (b'.enter next o') := by
  unfold Assembly.enter
  rw [h.context]
  split
  · exact h
  · refine { h with
      context := rfl
      rawStart := fun hp => ?_
      ledger := L.countChange h.ledger }
    dsimp only
    split
    · exact ho
    · exact h.rawStart hp

theorem report (h : b.Like L b') {s s' : Span} (hs : S.Spans s s') {fault : Fault}
    (hf : fault.isTooDeep = false) : (b.report s fault).Like L (b'.report s' fault) :=
  h.setLedger (L.report hf h.ledger hs)

/-! ### Containers -/

theorem content (h : b.Like L b') : S.Nodes b.content b'.content := by
  obtain ⟨_, _, here, _, _, _, _, _, _, _, _, _⟩ := b
  obtain ⟨_, _, here', _, _, _, _, _, _, _, _, _⟩ := b'
  obtain ⟨_, _, hhere, _, hout, _, _, hvalue, hcomment, _, _, _⟩ := h
  obtain rfl : here = here' := hhere
  cases hvalue <;> cases hcomment <;> cases here <;>
    first | exact hout | exact Values.children ‹_› | exact Comments.children ‹_›

theorem setContent (h : b.Like L b') {nodes nodes' : List Node} (hn : S.Nodes nodes nodes') :
    (b.setContent nodes).Like L (b'.setContent nodes') := by
  have hout := h.setOut hn
  have hvalue {v v' : ValueDraft} (hv : S.Values v v') :
      ({ b with value := some { v with children := nodes } } : Assembly).Like L
        { b' with value := some { v' with children := nodes' } } :=
    h.setValue (.some { hv with children := hn })
  have hcomment {c c' : CommentDraft} (hc : S.Comments c c') :
      ({ b with comment := some { c with children := nodes } } : Assembly).Like L
        { b' with comment := some { c' with children := nodes' } } :=
    h.setComment (.some { hc with children := hn })
  obtain ⟨_, _, here, _, _, _, _, _, _, _, _, _⟩ := b
  obtain ⟨_, _, here', _, _, _, _, _, _, _, _, _⟩ := b'
  obtain ⟨_, _, hhere, _, _, _, _, hv, hc, _, _, _⟩ := h
  obtain rfl : here = here' := hhere
  cases hv <;> cases hc <;> cases here <;>
    first | exact hout | exact hvalue ‹_› | exact hcomment ‹_›

theorem addContent (h : b.Like L b') {n n' : Node} (hn : S.node n n') :
    (b.addContent n).Like L (b'.addContent n') := h.setContent (.cons hn h.content)

theorem addText (h : b.Like L b') (text : Text) {s s' : Span} (hs : S.Spans s s') :
    (b.addText text s).Like L (b'.addText text s') := by
  have hnew {b : Assembly} (hraw : b.content.head?.bind Node.rawText? = none) (s : Span) :
      b.addText text s = { b with ledger := b.ledger.drawn }.setContent
        (.raw b.ledger.ids.next s text :: b.content) := by
    unfold Assembly.addText
    split
    · next hb => simp [hb, Node.rawText?] at hraw
    · rfl
  have hcontent := h.content
  have hfresh : ({ b with ledger := b.ledger.drawn }.setContent
      (.raw b.ledger.ids.next s text :: b.content)).Like L
      ({ b' with ledger := b'.ledger.drawn }.setContent
        (.raw b'.ledger.ids.next s' text :: b'.content)) :=
    h.drawn.setContent (.cons (S.raw text (L.next h.ledger) hs.start hs.stop) hcontent)
  cases hb : b.content with
  | nil =>
    rw [hb] at hcontent
    have hb' : b'.content = [] := List.forall₂_nil_left_iff.mp hcontent
    rwa [hnew (by simp [hb]), hnew (by simp [hb'])]
  | cons n nodes =>
    rw [hb] at hcontent
    obtain ⟨n', nodes', hn, hnodes, hb'⟩ := List.forall₂_cons_left_iff.mp hcontent
    cases ht : n.rawText? with
    | some t =>
      obtain ⟨id, loc, rfl⟩ := Node.eq_raw_of_rawText? ht
      obtain ⟨id', loc', rfl⟩ := Node.eq_raw_of_rawText? ((S.text hn).symm.trans ht)
      have hjoined : S.node (.raw id (loc.union s) (t ++ text))
          (.raw id' (loc'.union s') (t ++ text)) :=
        S.raw _ (S.named hn) (spans hn |>.union hs).start (spans hn |>.union hs).stop
      simp only [Assembly.addText, hb, hb']
      exact h.setContent (.cons hjoined hnodes)
    | none =>
      have ht' : n'.rawText? = none := (S.text hn).symm.trans ht
      rwa [hnew (by simp [hb, ht]), hnew (by simp [hb', ht'])]

theorem addOut (h : b.Like L b') {n n' : Node} (hn : S.node n n') :
    (b.addOut n).Like L (b'.addOut n') := h.setOut (.cons hn h.out)

theorem addAmongAttrs (h : b.Like L b') {n n' : Node} (hn : S.node n n') :
    (b.addAmongAttrs n).Like L (b'.addAmongAttrs n') := by
  unfold Assembly.addAmongAttrs
  rcases cases_of_rel h.tag with ⟨ht, ht'⟩ | ⟨t, t', ht, ht', htag⟩
  · rw [ht, ht']
    exact h.addOut hn
  · rw [ht, ht']
    exact h.setTag (.some { htag with children := .cons hn htag.children })

/-! ### Tags -/

theorem openTag (h : b.Like L b') (close : Bool) {s s' : Span} (hs : S.Spans s s') :
    (b.openTag close s).Like L (b'.openTag close s') := by
  refine h.setTag (.some ?_)
  rw [h.context]
  exact ⟨rfl, hs.start, rfl, .point hs.stop, .none, .nil, rfl, rfl⟩

theorem addTagName (h : b.Like L b') (text : Text) {s s' : Span} (hs : S.Spans s s') :
    (b.addTagName text s).Like L (b'.addTagName text s') := by
  unfold Assembly.addTagName
  rcases cases_of_rel h.tag with ⟨ht, ht'⟩ | ⟨t, t', ht, ht', htag⟩
  · rw [ht, ht']
    exact h
  · simp only [ht, ht', htag.nameText]
    refine h.setTag (.some { htag with nameText := rfl, nameLocation := ?_ })
    dsimp only
    split
    · exact hs
    · exact htag.nameLocation.union hs

theorem finishTagName (h : b.Like L b') : b.finishTagName.Like L b'.finishTagName := by
  unfold Assembly.finishTagName
  rcases cases_of_rel h.tag with ⟨ht, ht'⟩ | ⟨t, t', ht, ht', htag⟩
  · rw [ht, ht']
    exact h
  · have hname := isNone_of_rel htag.name
    simp only [ht, ht', htag.nameText, hname]
    split
    · exact h.drawn.setTag (.some { htag with
        nameText := rfl
        name := .some
          (S.raw _ (L.next h.ledger) htag.nameLocation.start htag.nameLocation.stop) })
    · exact h

theorem abortTag (h : b.Like L b') : b.abortTag.Like L b'.abortTag := by
  unfold Assembly.abortTag
  rcases cases_of_rel h.tag with ⟨ht, ht'⟩ | ⟨t, t', ht, ht', htag⟩
  · rw [ht, ht']
    exact h
  · have htext := ((h.setTag .none).enter t.outside htag.start).addText
      ((if t.close then ['<', '/'] else ['<']) ++ t.nameText)
      (.upTo htag.start htag.nameLocation.stop)
    simp only [ht, ht']
    rw [htag.outside, htag.close, htag.nameText] at *
    rcases cases_of_rel htag.name with ⟨hn, hn'⟩ | ⟨n, n', hn, hn', hname⟩
    · rw [hn, hn']
      exact htext
    · rw [hn, hn']
      exact htext.addOut hname

theorem addCloseTag (h : b.Like L b') {t t' : TagDraft} (ht : S.Tags t t') {n n' : Node}
    (hn : S.node n n') {s s' : Span} (hs : S.Spans s s') :
    (b.addCloseTag t n s).Like L (b'.addCloseTag t' n' s') := by
  have hempty : t.children.isEmpty = t'.children.isEmpty := isEmpty_of_forall₂ ht.children
  have hreports {x x' : Assembly} (hx : x.Like L x') (c : Bool) (fault : Fault)
      (hf : fault.isTooDeep = false) :
      (if c then x.report s fault else x).Like L (if c then x'.report s' fault else x') := by
    split
    · exact hx.report hs hf
    · exact hx
  unfold Assembly.addCloseTag
  dsimp only
  rw [rcdata hn, ht.element, ht.warned, hempty]
  have hreported := hreports (hreports h.drawnForHtml
    (n'.rcdata?.isSome && t'.element.isNone) .unexpectedCloseTag rfl)
    (!t'.children.isEmpty && !t'.warned) .closeTagWithAttributes rfl
  exact (hreported.setOut (List.rel_append ht.children
    (.cons (S.closeTag (L.next h.ledger) hs.start hs.stop hn) hreported.out))).enter .pcdata
      ht.start

theorem addOpenTag (h : b.Like L b') {t t' : TagDraft} (ht : S.Tags t t') {n n' : Node}
    (hn : S.node n n') {s s' : Span} (hs : S.Spans s s') (selfClosing bodyFollows : Bool) :
    (b.addOpenTag t n s selfClosing bodyFollows).Like L
      (b'.addOpenTag t' n' s' selfClosing bodyFollows) := by
  unfold Assembly.addOpenTag
  rw [rcdata hn]
  have hnode := S.openTag selfClosing (L.next h.ledger) hs.start hs.stop hn
    (List.rel_reverse ht.children)
  exact (h.drawnForHtml.setOut (.cons hnode h.out)).enter _ ht.start

theorem closeTag (h : b.Like L b') (selfClosing : Bool) {stop stop' : Nat}
    (hstop : S.place stop stop') (bodyFollows : Bool) :
    (b.closeTag selfClosing stop bodyFollows).Like L
      (b'.closeTag selfClosing stop' bodyFollows) := by
  unfold Assembly.closeTag
  rcases cases_of_rel h.tag with ⟨ht, ht'⟩ | ⟨t, t', ht, ht', htag⟩
  · rw [ht, ht']
    exact h
  · simp only [ht, ht']
    rcases cases_of_rel htag.name with ⟨hn, hn'⟩ | ⟨n, n', hn, hn', hname⟩
    · rw [hn, hn']
      exact h.abortTag
    · simp only [hn, hn', htag.close]
      split
      · exact (h.setTag .none).addCloseTag htag hname (.upTo htag.start hstop)
      · exact (h.setTag .none).addOpenTag htag hname (.upTo htag.start hstop) _ _

/-! ### Attributes -/

theorem attrFault? (h : b.Like L b') : b.attrFault? = b'.attrFault? := by
  unfold Assembly.attrFault?
  rcases cases_of_rel h.tag with ⟨ht, ht'⟩ | ⟨t, t', ht, ht', htag⟩
  · rw [ht, ht', h.entry, h.slotFilled]
  · simp only [ht, ht', htag.close]

theorem isTooDeep_attrFault? {fault : Fault} (h : b.attrFault? = some fault) :
    fault.isTooDeep = false := by
  unfold Assembly.attrFault? at h
  split at h <;> split at h <;> cases h <;> rfl

theorem reportAttr (h : b.Like L b') {s s' : Span} (hs : S.Spans s s') :
    (b.reportAttr s).Like L (b'.reportAttr s') := by
  unfold Assembly.reportAttr
  rw [h.attrFault?]
  cases hfault : b'.attrFault? with
  | none => exact h
  | some fault =>
    have hf := isTooDeep_attrFault? hfault
    rcases cases_of_rel h.tag with ⟨ht, ht'⟩ | ⟨t, t', ht, ht', htag⟩
    · rw [ht, ht']
      exact h.report hs hf
    · simp only [ht, ht', htag.warned]
      split
      · exact h
      · exact (h.report hs hf).setTag (.some { htag with warned := rfl })

theorem openAttr (h : b.Like L b') {s s' : Span} (hs : S.Spans s s') {name name' : Option Node}
    (hn : Option.Rel S.node name name') (discard : Bool) :
    (b.openAttr s name discard).Like L (b'.openAttr s' name' discard) := by
  unfold Assembly.openAttr
  rw [h.attrFault?]
  exact (h.reportAttr hs).setAttr (.some ⟨hs.start, rfl, hs, hn, rfl⟩)

theorem addAttrName (h : b.Like L b') (text : Text) {s s' : Span} (hs : S.Spans s s') :
    (b.addAttrName text s).Like L (b'.addAttrName text s') := by
  unfold Assembly.addAttrName
  rcases cases_of_rel h.attr with ⟨ha, ha'⟩ | ⟨a, a', ha, ha', hattr⟩
  · rw [ha, ha']
    exact h
  · simp only [ha, ha', hattr.discard, hattr.nameText]
    split
    · exact h
    · refine h.setAttr (.some { hattr with nameText := rfl, discard := rfl, nameLocation := ?_ })
      dsimp only
      split
      · exact hs
      · exact hattr.nameLocation.union hs

theorem discardAttr (h : b.Like L b') : b.discardAttr.Like L b'.discardAttr := by
  refine h.setAttr ?_
  rcases cases_of_rel h.attr with ⟨ha, ha'⟩ | ⟨a, a', ha, ha', hattr⟩
  · rw [ha, ha']
    exact .none
  · rw [ha, ha']
    exact .some { hattr with discard := rfl }

theorem finishAttrName (h : b.Like L b') : b.finishAttrName.Like L b'.finishAttrName := by
  unfold Assembly.finishAttrName
  rcases cases_of_rel h.attr with ⟨ha, ha'⟩ | ⟨a, a', ha, ha', hattr⟩
  · rw [ha, ha']
    exact h
  · have hname := isNone_of_rel hattr.name
    simp only [ha, ha', hattr.nameText, hname]
    split
    · exact h.drawn.setAttr (.some { hattr with
        nameText := rfl
        name := .some
          (S.raw _ (L.next h.ledger) hattr.nameLocation.start hattr.nameLocation.stop) })
    · exact h

theorem addAttr (h : b.Like L b') {a a' : AttrDraft} (ha : S.Attrs a a')
    {value value' : Option Node}
    (hv : Option.Rel S.node value value') {stop stop' : Nat} (hstop : S.place stop stop') :
    (b.addAttr a value stop).Like L (b'.addAttr a' value' stop') := by
  unfold Assembly.addAttr
  rw [ha.discard]
  split
  · exact h
  · rcases cases_of_rel ha.name with ⟨hn, hn'⟩ | ⟨n, n', hn, hn', hname⟩
    · rw [hn, hn']
      exact h
    · simp only [hn, hn']
      have hs := Spans.upTo ha.start hstop
      exact h.drawnForHtml.addAmongAttrs (S.attr (L.next h.ledger) hs.start hs.stop hname hv)

theorem endAttr (h : b.Like L b') {stop stop' : Nat} (hstop : S.place stop stop') :
    (b.endAttr stop).Like L (b'.endAttr stop') := by
  have hf := h.finishAttrName
  unfold Assembly.endAttr
  rcases cases_of_rel hf.attr with ⟨ha, ha'⟩ | ⟨a, a', ha, ha', hattr⟩
  · simp only [ha, ha']
    exact hf
  · simp only [ha, ha']
    exact (hf.setAttr .none).addAttr hattr .none hstop

theorem closeAttr (h : b.Like L b') {stop stop' : Nat} (hstop : S.place stop stop') :
    (b.closeAttr stop).Like L (b'.closeAttr stop') := (h.endAttr hstop).enter _ hstop

/-! ### Values and comments -/

theorem giveValue (h : b.Like L b') {value value' : Node} (hv : S.node value value')
    {stop stop' : Nat} (hstop : S.place stop stop') :
    (b.giveValue value stop).Like L (b'.giveValue value' stop') := by
  unfold Assembly.giveValue
  rcases cases_of_rel h.attr with ⟨ha, ha'⟩ | ⟨a, a', ha, ha', hattr⟩
  · simp only [ha, ha']
    exact { h.addOut hv with slotFilled := rfl }
  · simp only [ha, ha']
    exact (h.setAttr .none).addAttr hattr (.some hv) hstop

theorem fillSlot (h : b.Like L b') {value value' : Node} (hv : S.node value value')
    {stop stop' : Nat} (hstop : S.place stop stop') :
    (b.fillSlot value stop).Like L (b'.fillSlot value' stop') :=
  (h.giveValue hv hstop).enter _ hstop

theorem endValue (h : b.Like L b') {stop stop' : Nat} (hstop : S.place stop stop') :
    (b.endValue stop).Like L (b'.endValue stop') := by
  unfold Assembly.endValue
  rcases cases_of_rel h.value with ⟨hv, hv'⟩ | ⟨v, v', hv, hv', hvalue⟩
  · rw [hv, hv']
    exact h
  · simp only [hv, hv', hvalue.quotes]
    have hs := Spans.upTo hvalue.start hstop
    exact (h.drawnForHtml.setValue .none).giveValue
      (S.attrValue _ (L.next h.ledger) hs.start hs.stop (List.rel_reverse hvalue.children)) hstop

theorem closeValue (h : b.Like L b') {stop stop' : Nat} (hstop : S.place stop stop') :
    (b.closeValue stop).Like L (b'.closeValue stop') := by
  unfold Assembly.closeValue
  rcases cases_of_rel h.value with ⟨hv, hv'⟩ | ⟨v, v', hv, hv', hvalue⟩
  · rw [hv, hv']
    exact h
  · simp only [hv, hv']
    exact (h.endValue hstop).enter _ hstop

theorem endComment (h : b.Like L b') {stop stop' : Nat} (hstop : S.place stop stop') :
    (b.endComment stop).Like L (b'.endComment stop') := by
  unfold Assembly.endComment
  rcases cases_of_rel h.comment with ⟨hc, hc'⟩ | ⟨c, c', hc, hc', hcomment⟩
  · rw [hc, hc']
    exact h
  · simp only [hc, hc']
    have hs := Spans.upTo hcomment.start hstop
    exact (h.drawnForHtml.setComment .none).addOut
      (S.comment (L.next h.ledger) hs.start hs.stop (List.rel_reverse hcomment.children))

/-! ### Reading -/

theorem reportLexeme (h : b.Like L b') {s s' : Span} (hs : S.Spans s s') (l : Lexeme) :
    (b.reportLexeme s l).Like L (b'.reportLexeme s' l) := by
  unfold Assembly.reportLexeme
  split
  · exact h
  all_goals exact h.report hs rfl

theorem apply (h : b.Like L b') (mark : Mark) (next : Context) (text : Text) {s s' : Span}
    (hs : S.Spans s s') : (b.apply mark next text s).Like L (b'.apply mark next text s') := by
  cases mark <;> dsimp only [Assembly.apply]
  case skip =>
    rw [h.context]
    refine Like.enter ?_ next hs.start
    split
    · exact h.discardAttr
    · exact h
  case tagStart => exact (h.openTag _ hs).enter _ hs.start
  case tagNameChars => exact (h.addTagName _ hs).enter _ hs.start
  case tagNameEnd => exact h.finishTagName.enter _ hs.start
  case tagAbort =>
    rcases cases_of_rel h.tag with ⟨ht, ht'⟩ | ⟨t, t', ht, ht', _⟩
    · simp only [ht, ht']
      exact h.enter _ hs.start
    · simp only [ht, ht']
      exact h.abortTag
  case tagEnd =>
    rcases cases_of_rel h.tag with ⟨ht, ht'⟩ | ⟨t, t', ht, ht', _⟩
    · simp only [ht, ht']
      exact h.report hs rfl
    · simp only [ht, ht']
      exact h.closeTag _ hs.stop _
  case attrNameStart =>
    rw [h.attrFault?]
    exact (h.openAttr (.point hs.start) .none _).enter _ hs.start
  case attrNameChar => exact (h.addAttrName _ hs).enter _ hs.start
  case attrNameEnd => exact (h.endAttr hs.start).enter _ hs.start
  case attrEquals => exact h.finishAttrName.enter _ hs.start
  case valueStart =>
    refine Like.enter (h.setValue (.some ?_)) next hs.start
    exact ⟨rfl, hs.start, .nil⟩
  case valueEnd =>
    rcases cases_of_rel h.value with ⟨hv, hv'⟩ | ⟨v, v', hv, hv', _⟩
    · simp only [hv, hv']
      split
      · exact (h.report hs rfl).enter _ hs.start
      · exact (h.report hs rfl).addText _ hs
    · simp only [hv, hv']
      exact (h.endValue hs.stop).enter _ hs.stop
  case commentStart => exact (h.setComment (.some ⟨hs.start, .nil⟩)).enter _ hs.start
  case commentEnd =>
    rcases cases_of_rel h.comment with ⟨hc, hc'⟩ | ⟨c, c', hc, hc', _⟩
    · simp only [hc, hc']
      exact (h.report hs rfl).addText _ hs
    · simp only [hc, hc']
      exact (h.endComment hs.stop).enter _ hs.start

theorem release (h : b.Like L b') {run run' : RawRun} {pos pos' : Nat}
    (hend : S.place (run.locateEnd pos) (run'.locateEnd pos')) {held held' : Option Held}
    (hh : Option.Rel (S.Holds run run') held held') :
    (b.release run held pos).Like L (b'.release run' held' pos') := by
  unfold Assembly.release
  cases hh with
  | none => exact h
  | some hh =>
    dsimp only
    rw [hh.text]
    exact h.addText _ (.upTo hh.start hend)

/-- **The same text is read alike**, from like places on. -/
theorem read {run run' : RawRun} : ∀ (b : Assembly) (pos : Nat) (held : Option Held) (t : Text)
    {b' : Assembly} {pos' : Nat} {held' : Option Held}, b.Like L b' → S.Runs run pos run' pos' →
    Option.Rel (S.Holds run run') held held' →
    (b.read run pos held t).Like L (b'.read run' pos' held' t) := by
  intro b pos held t
  induction b, pos, held, t using Assembly.read.induct run with
  | case1 b pos held =>
    intro b' pos' held' h hruns hh
    rw [Assembly.read, Assembly.read]
    exact h.release (hruns.locateEnd 0) hh
  | case2 b pos held c cs l text stop faultStop =>
    rename_i b₁ hm ih
    intro b' pos' held' h hruns hh
    rw [read_of_content hm, read_of_content (by rw [← h.context]; exact hm), ← h.context]
    exact ih ((h.reportLexeme (hruns.spans _) _).enter _ (hruns.locate 0)) (hruns.shift _)
      (.some (Holds.add (hruns.locate 0) hh _))
  | case3 b pos held c cs l text stop faultStop b₁ =>
    rename_i m hm ih
    intro b' pos' held' h hruns hh
    rw [read_of_mark hm, read_of_mark (by rw [← h.context]; exact hm), ← h.context]
    exact ih (((h.reportLexeme (hruns.spans _) _).release (hruns.locateEnd 0) hh).apply _ _ _
      (hruns.spans _)) (hruns.shift _) .none

theorem readRun (h : b.Like L b') {run run' : RawRun} (hr : S.Collects run run') :
    (b.readRun run).Like L (b'.readRun run') := by
  have hcount : ({ b with ledger := b.ledger.countRun } : Assembly).Like L
      { b' with ledger := b'.ledger.countRun } := h.setLedger (L.countRun h.ledger)
  have hend := hr.runs.locateEnd run.text.size
  unfold Assembly.readRun
  rw [Nat.zero_add] at hend
  rw [← hr.text]
  exact { Like.read _ 0 none run.text hcount hr.runs .none with offset := hend }

theorem readCollected (h : b.Like L b') {run run' : Option RawRun}
    (hr : Option.Rel S.Collects run run') :
    (b.readCollected run).Like L (b'.readCollected run') := by
  cases hr with
  | none => exact h
  | some hr => exact h.readRun hr

/-- The same text is collected on both sides, in the same way. -/
theorem collect (h : b.Like L b')
    (hjoin : b.ledger.config.joinText = b'.ledger.config.joinText) (run : Option RawRun)
    (hrun : Option.Rel S.Collects run run) (text : Text) (s : Span) :
    (b.collect run text s).1.Like L (b'.collect run text s).1
      ∧ (b.collect run text s).2 = (b'.collect run text s).2 := by
  unfold Assembly.collect
  rw [hjoin]
  cases hrun with
  | none => exact ⟨h, rfl⟩
  | some hrun =>
    dsimp only
    split
    · exact ⟨h, rfl⟩
    · exact ⟨h.readRun hrun, rfl⟩

theorem reach (h : b.Like L b') {o o' : Nat} (ho : S.place o o') :
    (b.reach o).Like L (b'.reach o') := { h with offset := S.place_max h.offset ho }

/-! ### Placing -/

theorem placeContent (h : b.Like L b') {n n' : Node} (hn : S.node n n') :
    (b.placeContent n).Like L (b'.placeContent n') := by
  unfold Assembly.placeContent
  rw [h.context, S.after _ hn]
  split
  · exact h.addContent hn
  · exact (h.addContent hn).enter _ (S.start hn)

theorem placeInTag (h : b.Like L b') {n n' : Node} (hn : S.node n n') :
    (b.placeInTag n).Like L (b'.placeInTag n') := by
  unfold Assembly.placeInTag
  rw [S.printing hn, h.attrFault?]
  split
  · exact (h.openAttr (spans hn) (.some hn) _).enter _ (S.start hn)
  · exact h.addAmongAttrs hn

theorem placeTagName (h : b.Like L b') {n n' : Node} (hn : S.node n n') :
    (b.placeTagName n).Like L (b'.placeTagName n') := by
  unfold Assembly.placeTagName
  rw [S.printing hn]
  split
  · refine Like.enter ?_ _ (S.start hn)
    rcases cases_of_rel h.tag with ⟨ht, ht'⟩ | ⟨t, t', ht, ht', htag⟩
    · simp only [ht, ht']
      exact h.addOut hn
    · simp only [ht, ht']
      exact h.setTag (.some { htag with name := .some hn })
  · exact (h.report (spans hn) rfl).abortTag.placeContent hn

theorem placeBeforeValue (h : b.Like L b') {n n' : Node} (hn : S.node n n') :
    (b.placeBeforeValue n).Like L (b'.placeBeforeValue n') := by
  rw [placeBeforeValue_eq, placeBeforeValue_eq, S.printing hn, S.valued hn]
  split
  · refine Like.enter (h.setValue (.some ?_)) _ (S.start hn)
    exact ⟨rfl, S.start hn, .cons hn .nil⟩
  · split
    · exact h.fillSlot hn (S.stop hn)
    · exact h.addAmongAttrs hn

theorem reportJoined (h : b.Like L b') {n n' : Node} (hn : S.node n n') :
    (b.reportJoined n).Like L (b'.reportJoined n') := by
  unfold Assembly.reportJoined
  rw [S.printing hn]
  split
  · exact h.report (spans hn) rfl
  · exact h

theorem place (h : b.Like L b') {n n' : Node} (hn : S.node n n') :
    (b.place n).Like L (b'.place n') := by
  unfold Assembly.place
  rw [← h.context]
  split
  case h_7 => exact h.placeTagName hn
  case h_8 => exact ((h.reportJoined hn).finishTagName.enter _ (S.start hn)).placeInTag hn
  case h_9 => exact h.placeInTag hn
  case h_10 =>
    rw [S.printing hn]
    split
    · exact h
    · exact ((h.reportJoined hn).closeAttr (S.start hn)).placeInTag hn
  case h_11 => exact h.placeBeforeValue hn
  all_goals exact h.placeContent hn

theorem settle (h : b.Like L b') {s s' : Span} (hs : S.Spans s s') :
    (b.settle s).Like L (b'.settle s') := by
  unfold Assembly.settle
  rw [← h.context]
  split
  · exact (h.report hs rfl).abortTag
  · exact h.finishTagName.enter _ hs.start
  · exact h.closeAttr hs.start
  · exact h

theorem placeFlow (h : b.Like L b') {f f' : Flow} (hf : S.node (.flow f) (.flow f'))
    (exit : Context) : (b.placeFlow f exit).Like L (b'.placeFlow f' exit) := by
  have hs : S.Spans f.location f'.location := spans hf
  unfold Assembly.placeFlow
  rw [← h.context]
  split
  · split
    · exact h.fillSlot hf hs.stop
    · exact (h.addAmongAttrs hf).enter _ hs.start
  · exact (h.addAmongAttrs hf).enter _ hs.start
  · exact (h.addContent hf).enter _ hs.start

/-! ### Beginning and end -/

theorem ofStart {l l' : Ledger} (h : L.rel l l') (entry : Context) (inBranch : Bool) {o o' : Nat}
    (ho : S.place o o') : (start l entry inBranch o).Like L (start l' entry inBranch o') where
  ledger := h
  entry := rfl
  context := rfl
  inBranch := rfl
  out := .nil
  tag := .none
  attr := .none
  value := .none
  comment := .none
  slotFilled := rfl
  rawStart hp := by
    unfold start
    dsimp only
    split
    · exact ho
    · exact hp
  offset := ho

theorem settleAtEnd (h : b.Like L b') : b.settleAtEnd.Like L b'.settleAtEnd := by
  unfold Assembly.settleAtEnd
  rw [← h.context]
  split
  · exact h.abortTag
  · exact h.finishTagName.enter _ h.offset
  · exact h.closeAttr h.offset
  · exact h

theorem closeAnyAttr (h : b.Like L b') {stop stop' : Nat} (hstop : S.place stop stop') :
    (b.closeAnyAttr stop).Like L (b'.closeAnyAttr stop') := by
  unfold Assembly.closeAnyAttr
  rcases cases_of_rel h.attr with ⟨ha, ha'⟩ | ⟨a, a', ha, ha', _⟩
  · rw [ha, ha']
    exact h
  · rw [ha, ha']
    exact h.closeAttr hstop

theorem closeAnyComment (h : b.Like L b') {stop stop' : Nat} (hstop : S.place stop stop') :
    (b.closeAnyComment stop).Like L (b'.closeAnyComment stop') := by
  unfold Assembly.closeAnyComment
  rcases cases_of_rel h.comment with ⟨hc, hc'⟩ | ⟨c, c', hc, hc', _⟩
  · rw [hc, hc']
    exact h
  · rw [hc, hc']
    exact (h.endComment hstop).enter _ hstop

theorem closeDrafts (h : b.Like L b') : b.closeDrafts.Like L b'.closeDrafts := by
  rw [closeDrafts_eq, closeDrafts_eq]
  have ho := h.offset
  exact (((h.settleAtEnd.closeValue ho).closeAnyAttr ho).closeTag _ ho _).closeAnyComment ho

theorem openConstruct? (h : b.Like L b') :
    Option.Rel (fun x y => x.1 = y.1 ∧ S.place x.2 y.2) b.openConstruct? b'.openConstruct? := by
  obtain ⟨_, _, _, _, _, _, _, _, _, _, _, _⟩ := b
  obtain ⟨_, _, _, _, _, _, _, _, _, _, _, _⟩ := b'
  obtain ⟨_, _, _, _, _, htag, hattr, hvalue, hcomment, _, _, _⟩ := h
  cases hvalue with
  | none =>
    cases hattr <;> cases htag <;> cases hcomment <;>
      first
      | exact .none
      | exact .some ⟨rfl, Attrs.start ‹_›⟩
      | exact .some ⟨rfl, Tags.start ‹_›⟩
      | exact .some ⟨rfl, Comments.start ‹_›⟩
  | @some v v' hv =>
    obtain ⟨quotes, _, _⟩ := v
    obtain ⟨quotes', _, _⟩ := v'
    obtain rfl : quotes = quotes' := hv.quotes
    cases quotes <;> cases hattr <;> cases htag <;> cases hcomment <;>
      first
      | exact .none
      | exact .some ⟨rfl, hv.start⟩
      | exact .some ⟨rfl, Tags.start ‹_›⟩
      | exact .some ⟨rfl, Comments.start ‹_›⟩

theorem endBranch (h : b.Like L b') : b.endBranch.Like L b'.endBranch := by
  unfold Assembly.endBranch
  rcases cases_of_rel h.settleAtEnd.openConstruct? with
    ⟨h1, h2⟩ | ⟨⟨c, start⟩, ⟨c', start'⟩, h1, h2, hc, hstart⟩
  · rw [h1, h2]
    exact h.closeDrafts
  · rw [h1, h2]
    obtain rfl : c = c' := hc
    exact h.closeDrafts.report (.upTo hstart h.offset) rfl

theorem endBlock (h : b.Like L b') (block : BlockKind) :
    (b.endBlock block).Like L (b'.endBlock block) := by
  unfold Assembly.endBlock Assembly.checkContext
  rw [h.context, h.entry]
  split
  · exact (h.report (.upTo (h.rawStart h.offset) h.offset) rfl).closeDrafts
  · exact h.closeDrafts

theorem nodes (h : b.Like L b') : S.Nodes b.nodes b'.nodes := List.rel_reverse h.out

end Assembly.Like

/-! ## 3. The pass -/

theorem reconcileLoop_like {S : Likeness} {L : S.Ledgers} {s s' : Span} (hs : S.Spans s s')
    (command : String) (entry : Context) : ∀ (exits : Exits) {l l' : Ledger}, L.rel l l' →
      L.rel (reconcileLoop l s command entry exits) (reconcileLoop l' s' command entry exits)
  | [], l, l', h => by
    rw [reconcileLoop, reconcileLoop]
    exact h
  | (kind, exit) :: exits, l, l', h => by
    unfold reconcileLoop
    refine reconcileLoop_like hs command entry exits ?_
    split
    · exact h
    · split <;> exact L.report rfl h hs

/-- Branches that end alike are compared alike. -/
theorem reconcile_like {S : Likeness} {L : S.Ledgers} {l l' : Ledger} (h : L.rel l l') {s s' : Span}
    (hs : S.Spans s s') (head : FlowHead) (entry : Context) (exits : Exits) :
    (reconcile l s head entry exits).1 = (reconcile l' s' head entry exits).1
      ∧ L.rel (reconcile l s head entry exits).2 (reconcile l' s' head entry exits).2 := by
  unfold reconcile
  split
  · exact ⟨rfl, reconcileLoop_like hs _ _ _ h⟩
  · dsimp only
    split
    · exact ⟨rfl, h⟩
    · refine ⟨rfl, ?_⟩
      unfold reconcileChoice
      split
      · exact h
      · exact L.report rfl h hs

theorem feedNodes_cons_text {b : Assembly} {run : Option RawRun} {n : Node} {t : Text}
    (h : n.rawText? = some t) (nodes : List Node) :
    feedNodes b run (n :: nodes)
      = feedNodes (b.collect run t n.location).1 (some (b.collect run t n.location).2) nodes := by
  rw [feedNodes]
  simp only [h]

theorem feedNodes_cons_node {b : Assembly} {run : Option RawRun} {n : Node}
    (h : n.rawText? = none) (nodes : List Node) :
    feedNodes b run (n :: nodes) = feedNodes (feedNode (b.readCollected run) n) none nodes := by
  rw [feedNodes]
  simp only [h]

end TemplateMarkup
