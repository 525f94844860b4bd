/-
# Names and places do not matter

What is done with the html of a template never depends on the names of nodes or on where they stand
in the source: these are only handed on.  Assemblies are `Alike` if they are the same but for names,
places and counters.  This is a `Likeness`, so every operation takes assemblies that are alike to
assemblies that are alike, and the pass takes trees that are the same when bare to trees that are
the same when bare and reports the same faults in the same order (`rewriteBlock_alike`).
-/
import TemplateMarkup.Proofs.Html.Likeness

namespace TemplateMarkup

/-! ## 1. Bare assemblies -/

/-- The diagnostic without its place. -/
def Diagnostic.bare (d : Diagnostic) : Diagnostic := ⟨default, d.fault⟩

/-- The ledger without names, places and counters. -/
def Ledger.bare (l : Ledger) : Ledger :=
  ⟨l.config, default, l.diagnostics.map Diagnostic.bare, {}, l.depth⟩

/-- The tag without names and places. -/
def TagDraft.bare (t : TagDraft) : TagDraft where
  close := t.close
  start := 0
  nameText := t.nameText
  nameLocation := default
  name := t.name.map Node.bare
  children := TemplateMarkup.bare t.children
  element := t.element
  warned := t.warned

/-- The attribute without names and places. -/
def AttrDraft.bare (a : AttrDraft) : AttrDraft where
  start := 0
  nameText := a.nameText
  nameLocation := default
  name := a.name.map Node.bare
  discard := a.discard

/-- The value without names and places. -/
def ValueDraft.bare (v : ValueDraft) : ValueDraft := ⟨v.quotes, 0, TemplateMarkup.bare v.children⟩

/-- The comment without names and places. -/
def CommentDraft.bare (c : CommentDraft) : CommentDraft := ⟨0, TemplateMarkup.bare c.children⟩

/-- The assembly without names, places and counters. -/
def Assembly.bare (b : Assembly) : Assembly where
  ledger := b.ledger.bare
  entry := b.entry
  context := b.context
  inBranch := b.inBranch
  out := TemplateMarkup.bare b.out
  tag := b.tag.map TagDraft.bare
  attr := b.attr.map AttrDraft.bare
  value := b.value.map ValueDraft.bare
  comment := b.comment.map CommentDraft.bare
  slotFilled := b.slotFilled
  rawStart := none
  offset := 0

/-- Ledgers that are the same but for names, places and counters. -/
def Ledger.Alike (l l' : Ledger) : Prop := l.bare = l'.bare

/-- Assemblies that are the same but for names, places and counters. -/
def Assembly.Alike (b b' : Assembly) : Prop := b.bare = b'.bare

namespace Ledger

@[simp] theorem report_bare (l : Ledger) (s : Span) (fault : Fault) :
    (l.report s fault).bare = { l.bare with
      diagnostics := ⟨default, fault⟩ :: l.bare.diagnostics } := rfl

@[simp] theorem drawn_bare (l : Ledger) : l.drawn.bare = l.bare := rfl

@[simp] theorem drawnForHtml_bare (l : Ledger) : l.drawnForHtml.bare = l.bare := rfl

@[simp] theorem countBlock_bare (l : Ledger) : l.countBlock.bare = l.bare := rfl

@[simp] theorem countBranch_bare (l : Ledger) : l.countBranch.bare = l.bare := rfl

@[simp] theorem countRun_bare (l : Ledger) : l.countRun.bare = l.bare := rfl

@[simp] theorem countChange_bare (l : Ledger) : l.countChange.bare = l.bare := rfl

theorem Alike.config {l l' : Ledger} (h : l.Alike l') : l.config = l'.config := by
  have hl : l.bare.config = l'.bare.config := by rw [show l.bare = l'.bare from h]
  exact hl

theorem Alike.depth {l l' : Ledger} (h : l.Alike l') : l.depth = l'.depth := by
  have hl : l.bare.depth = l'.bare.depth := by rw [show l.bare = l'.bare from h]
  exact hl

theorem Alike.report {l l' : Ledger} (h : l.Alike l') (s s' : Span) (fault : Fault) :
    (l.report s fault).Alike (l'.report s' fault) := by
  unfold Alike at *
  rw [report_bare, report_bare, h]

/-- The depth is set on both sides. -/
theorem Alike.setDepth {l l' : Ledger} (h : l.Alike l') (depth : Nat) :
    ({ l with depth := depth } : Ledger).Alike { l' with depth := depth } := by
  unfold Alike bare at *
  simp only [Ledger.mk.injEq] at h ⊢
  exact ⟨h.1, trivial, h.2.2.1, trivial, trivial⟩

end Ledger

/-! ## 2. Names and places as a likeness -/

theorem bare_eq_iff {nodes nodes' : List Node} :
    bare nodes = bare nodes' ↔ List.Forall₂ (fun n n' => n.bare = n'.bare) nodes nodes' := by
  rw [bare_eq_map, bare_eq_map, map_eq_iff_forall₂]

/-- What is related through a function is the same under it. -/
theorem rel_iff_map_eq {α β : Type} {r : α → α → Prop} {f : α → β}
    (h : ∀ a a' : α, r a a' ↔ f a = f a') {x x' : Option α} :
    Option.Rel r x x' ↔ x.map f = x'.map f := by
  constructor
  · rintro (hr | _)
    · rw [Option.map_some, Option.map_some, (h _ _).mp hr]
    · rfl
  · intro hx
    cases x <;> cases x' <;> simp at hx
    · exact .none
    · exact .some ((h _ _).mpr hx)

@[simp] theorem Node.isAttrValue_bare (n : Node) : n.bare.isAttrValue = n.isAttrValue := by
  cases n with
  | attr id s name value => cases value <;> simp [Node.bare, Node.isAttrValue]
  | _ => simp [Node.bare, Node.isAttrValue]

theorem Assembly.contextAfter?_bare (here : Context) (n : Node) :
    contextAfter? here n.bare = contextAfter? here n := by
  cases n with
  | attr id s name value => cases value <;> rfl
  | openTag id s name children selfClosing =>
    cases here <;> cases selfClosing <;> simp [contextAfter?, Node.bare]
  | closeTag id s name => cases here <;> simp [contextAfter?, Node.bare]
  | _ => rfl

/-- Nodes that are the same when bare, wherever they stand. -/
def bareLikeness : Likeness where
  node n n' := n.bare = n'.bare
  place _ _ := True
  name _ _ := True
  place_max _ _ := trivial
  place_min _ _ := trivial
  named _ := trivial
  text {n n'} h := by rw [← n.rawText?_bare, h, Node.rawText?_bare]
  printing {n n'} h := by rw [← n.isPrinting_bare, h, Node.isPrinting_bare]
  valued {n n'} h := by rw [← n.isAttrValue_bare, h, Node.isAttrValue_bare]
  after here {n n'} h := by
    rw [← Assembly.contextAfter?_bare, h, Assembly.contextAfter?_bare]
  start _ := trivial
  stop _ := trivial
  raw _ _ _ _ := by rw [Node.bare, Node.bare]
  openTag _ _ _ _ hname hchildren := by
    rw [Node.bare, Node.bare, hname, bare_eq_iff.mpr hchildren]
  closeTag _ _ _ hname := by rw [Node.bare, Node.bare, hname]
  attr _ _ _ hname hvalue := by
    cases hvalue with
    | none => rw [Node.bare, Node.bare, hname]
    | some hvalue => rw [Node.bare, Node.bare, hname, hvalue]
  attrValue _ _ _ _ hchildren := by
    rw [Node.bare, Node.bare, bare_eq_iff.mpr hchildren]
  comment _ _ _ hchildren := by
    rw [Node.bare, Node.bare, bare_eq_iff.mpr hchildren]

/-- Ledgers that are alike. -/
def bareLedgers : bareLikeness.Ledgers :=
  .ofSame _ Ledger.Alike (fun _ _ => trivial)
    (fun h hl hl' => by
      unfold Ledger.Alike Ledger.bare at *
      rw [← hl.config, ← hl.depth, ← hl.diagnostics, ← hl'.config, ← hl'.depth, ← hl'.diagnostics]
      exact h)
    (fun _ h _ => h.report _ _ _)

theorem tags_iff (t t' : TagDraft) : bareLikeness.Tags t t' ↔ t.bare = t'.bare := by
  have hname : Option.Rel bareLikeness.node t.name t'.name
      ↔ t.name.map Node.bare = t'.name.map Node.bare := rel_iff_map_eq fun _ _ => Iff.rfl
  have hchildren : bareLikeness.Nodes t.children t'.children
      ↔ bare t.children = bare t'.children := bare_eq_iff.symm
  unfold TagDraft.bare
  simp only [TagDraft.mk.injEq]
  constructor
  · intro h
    exact ⟨h.close, trivial, h.nameText, trivial, hname.mp h.name, hchildren.mp h.children,
      h.element, h.warned⟩
  · rintro ⟨h1, -, h2, -, h3, h4, h5, h6⟩
    exact ⟨h1, trivial, h2, ⟨trivial, trivial⟩, hname.mpr h3, hchildren.mpr h4, h5, h6⟩

theorem attrs_iff (a a' : AttrDraft) : bareLikeness.Attrs a a' ↔ a.bare = a'.bare := by
  have hname : Option.Rel bareLikeness.node a.name a'.name
      ↔ a.name.map Node.bare = a'.name.map Node.bare := rel_iff_map_eq fun _ _ => Iff.rfl
  unfold AttrDraft.bare
  simp only [AttrDraft.mk.injEq]
  constructor
  · intro h
    exact ⟨trivial, h.nameText, trivial, hname.mp h.name, h.discard⟩
  · rintro ⟨-, h1, -, h2, h3⟩
    exact ⟨trivial, h1, ⟨trivial, trivial⟩, hname.mpr h2, h3⟩

theorem values_iff (v v' : ValueDraft) : bareLikeness.Values v v' ↔ v.bare = v'.bare := by
  have hchildren : bareLikeness.Nodes v.children v'.children
      ↔ bare v.children = bare v'.children := bare_eq_iff.symm
  unfold ValueDraft.bare
  simp only [ValueDraft.mk.injEq]
  constructor
  · intro h
    exact ⟨h.quotes, trivial, hchildren.mp h.children⟩
  · rintro ⟨h1, -, h2⟩
    exact ⟨h1, trivial, hchildren.mpr h2⟩

theorem comments_iff (c c' : CommentDraft) : bareLikeness.Comments c c' ↔ c.bare = c'.bare := by
  have hchildren : bareLikeness.Nodes c.children c'.children
      ↔ bare c.children = bare c'.children := bare_eq_iff.symm
  unfold CommentDraft.bare
  simp only [CommentDraft.mk.injEq]
  constructor
  · intro h
    exact ⟨trivial, hchildren.mp h.children⟩
  · rintro ⟨-, h⟩
    exact ⟨trivial, hchildren.mpr h⟩

namespace Assembly

variable {b b' : Assembly}

/-- **Assemblies are alike if all their parts are.** -/
theorem alike_iff : b.Alike b' ↔ b.Like bareLedgers b' := by
  have hout : bareLikeness.Nodes b.out b'.out
      ↔ TemplateMarkup.bare b.out = TemplateMarkup.bare b'.out := bare_eq_iff.symm
  unfold Alike bare
  simp only [Assembly.mk.injEq]
  constructor
  · rintro ⟨hl, he, hc, hi, ho, ht, ha, hv, hm, hf, -, -⟩
    exact ⟨hl, he, hc, hi, hout.mpr ho, (rel_iff_map_eq tags_iff).mpr ht,
      (rel_iff_map_eq attrs_iff).mpr ha, (rel_iff_map_eq values_iff).mpr hv,
      (rel_iff_map_eq comments_iff).mpr hm, hf, fun _ => trivial, trivial⟩
  · intro h
    exact ⟨h.ledger, h.entry, h.context, h.inBranch, hout.mp h.out,
      (rel_iff_map_eq tags_iff).mp h.tag, (rel_iff_map_eq attrs_iff).mp h.attr,
      (rel_iff_map_eq values_iff).mp h.value, (rel_iff_map_eq comments_iff).mp h.comment,
      h.slotFilled, trivial, trivial⟩

theorem Alike.refl (b : Assembly) : b.Alike b := rfl

theorem Alike.symm (h : b.Alike b') : b'.Alike b := Eq.symm h

theorem Alike.trans {b'' : Assembly} (h : b.Alike b') (h' : b'.Alike b'') : b.Alike b'' :=
  Eq.trans h h'

theorem Alike.like (h : b.Alike b') : b.Like bareLedgers b' := alike_iff.mp h

theorem Like.alike (h : b.Like bareLedgers b') : b.Alike b' := alike_iff.mpr h

/-- Wherever two spans stand. -/
theorem anywhere (s s' : Span) : bareLikeness.Spans s s' := ⟨trivial, trivial⟩

/-- Wherever the text of two runs stands. -/
theorem anyRuns (run run' : RawRun) (pos pos' : Nat) : bareLikeness.Runs run pos run' pos' :=
  ⟨fun _ => trivial, fun _ => trivial⟩

/-! ### Parts -/

theorem Alike.ledger (h : b.Alike b') : b.ledger.Alike b'.ledger := h.like.ledger

theorem Alike.context (h : b.Alike b') : b.context = b'.context := h.like.context

theorem Alike.nodes (h : b.Alike b') :
    TemplateMarkup.bare b.nodes = TemplateMarkup.bare b'.nodes := bare_eq_iff.mpr h.like.nodes

theorem alike_ledger {b : Assembly} {l : Ledger} (h : b.ledger.bare = l.bare) :
    b.Alike { b with ledger := l } :=
  ((Alike.refl b).like.setLedger (M := bareLedgers) h).alike

theorem Alike.setLedger (h : b.Alike b') {l l' : Ledger} (hl : l.Alike l') :
    ({ b with ledger := l } : Assembly).Alike { b' with ledger := l' } :=
  (h.like.setLedger (M := bareLedgers) hl).alike

theorem Alike.setContext (h : b.Alike b') (here : Context) :
    ({ b with context := here } : Assembly).Alike { b' with context := here } :=
  Like.alike { h.like with context := rfl }

theorem Alike.setTag (h : b.Alike b') {t t' : Option TagDraft}
    (ht : t.map TagDraft.bare = t'.map TagDraft.bare) :
    ({ b with tag := t } : Assembly).Alike { b' with tag := t' } :=
  (h.like.setTag ((rel_iff_map_eq tags_iff).mpr ht)).alike

theorem Alike.setOffset (h : b.Alike b') (o o' : Nat) :
    ({ b with offset := o } : Assembly).Alike { b' with offset := o' } :=
  Like.alike { h.like with offset := trivial }

/-! ### Operations -/

section Operations

theorem Alike.enter (h : b.Alike b') (next : Context) (o o' : Nat) :
    (b.enter next o).Alike (b'.enter next o') := (h.like.enter next trivial).alike

theorem Alike.setContent (h : b.Alike b') {nodes nodes' : List Node}
    (hn : TemplateMarkup.bare nodes = TemplateMarkup.bare nodes') :
    (b.setContent nodes).Alike (b'.setContent nodes') :=
  (h.like.setContent (bare_eq_iff.mp hn)).alike

theorem Alike.addContent (h : b.Alike b') {n n' : Node} (hn : n.bare = n'.bare) :
    (b.addContent n).Alike (b'.addContent n') := (h.like.addContent hn).alike

theorem Alike.addText (h : b.Alike b') (text : Text) (s s' : Span) :
    (b.addText text s).Alike (b'.addText text s') := (h.like.addText text (anywhere s s')).alike

theorem Alike.addAmongAttrs (h : b.Alike b') {n n' : Node} (hn : n.bare = n'.bare) :
    (b.addAmongAttrs n).Alike (b'.addAmongAttrs n') := (h.like.addAmongAttrs hn).alike

theorem Alike.finishTagName (h : b.Alike b') : b.finishTagName.Alike b'.finishTagName :=
  h.like.finishTagName.alike

theorem Alike.closeTag (h : b.Alike b') (selfClosing : Bool) (stop stop' : Nat)
    (bodyFollows : Bool) :
    (b.closeTag selfClosing stop bodyFollows).Alike (b'.closeTag selfClosing stop' bodyFollows) :=
  (h.like.closeTag selfClosing trivial bodyFollows).alike

theorem Alike.closeAttr (h : b.Alike b') (stop stop' : Nat) :
    (b.closeAttr stop).Alike (b'.closeAttr stop') := (h.like.closeAttr trivial).alike

theorem Alike.closeValue (h : b.Alike b') (stop stop' : Nat) :
    (b.closeValue stop).Alike (b'.closeValue stop') := (h.like.closeValue trivial).alike

theorem Alike.apply (h : b.Alike b') (mark : Mark) (next : Context) (text : Text) (s s' : Span) :
    (b.apply mark next text s).Alike (b'.apply mark next text s') :=
  (h.like.apply mark next text (anywhere s s')).alike

/-- **The same text is read alike**, wherever it stands. -/
theorem Alike.read (run run' : RawRun) (b : Assembly) (pos : Nat) (held : Option Held) (t : Text)
    {b' : Assembly} {pos' : Nat} {held' : Option Held} (h : b.Alike b')
    (hh : held.map Held.text = held'.map Held.text) :
    (b.read run pos held t).Alike (b'.read run' pos' held' t) :=
  (Like.read b pos held t h.like (anyRuns run run' pos pos')
    ((rel_iff_map_eq fun _ _ => ⟨fun hk => hk.text, fun hk => ⟨hk, trivial⟩⟩).mpr hh)).alike

/-- The same text collected, if any. -/
theorem collects_iff {run run' : Option RawRun} : Option.Rel bareLikeness.Collects run run'
    ↔ run.map RawRun.text = run'.map RawRun.text :=
  rel_iff_map_eq fun _ _ => ⟨fun hr => hr.text, fun hr => ⟨hr, anyRuns _ _ _ _⟩⟩

theorem Alike.readRun (h : b.Alike b') {run run' : RawRun} (hr : run.text = run'.text) :
    (b.readRun run).Alike (b'.readRun run') := (h.like.readRun ⟨hr, anyRuns _ _ _ _⟩).alike

theorem Alike.readCollected (h : b.Alike b') {run run' : Option RawRun}
    (hr : run.map RawRun.text = run'.map RawRun.text) :
    (b.readCollected run).Alike (b'.readCollected run') :=
  (h.like.readCollected (collects_iff.mpr hr)).alike

theorem Alike.collect (h : b.Alike b') {run run' : Option RawRun}
    (hr : run.map RawRun.text = run'.map RawRun.text) (text : Text) (s s' : Span) :
    (b.collect run text s).1.Alike (b'.collect run' text s').1
      ∧ (b.collect run text s).2.text = (b'.collect run' text s').2.text := by
  unfold Assembly.collect
  rw [h.ledger.config]
  rcases cases_of_rel (collects_iff.mpr hr) with ⟨rfl, rfl⟩ | ⟨r, r', rfl, rfl, hr'⟩
  · exact ⟨h, by simp⟩
  · dsimp only
    split
    · exact ⟨h, by simp [hr'.text]⟩
    · exact ⟨h.readRun hr'.text, by simp⟩

theorem Alike.reach (h : b.Alike b') (o o' : Nat) : (b.reach o).Alike (b'.reach o') :=
  h.setOffset _ _

theorem Alike.place (h : b.Alike b') {n n' : Node} (hn : n.bare = n'.bare) :
    (b.place n).Alike (b'.place n') := (h.like.place hn).alike

theorem Alike.settle (h : b.Alike b') (s s' : Span) : (b.settle s).Alike (b'.settle s') :=
  (h.like.settle (anywhere s s')).alike

theorem Alike.placeFlow (h : b.Alike b') {f f' : Flow} (hf : f.bare = f'.bare) (exit : Context) :
    (b.placeFlow f exit).Alike (b'.placeFlow f' exit) := by
  have hn : (Node.flow f).bare = (Node.flow f').bare := by rw [Node.bare, Node.bare, hf]
  exact (h.like.placeFlow hn exit).alike

theorem alike_start {l l' : Ledger} (h : l.Alike l') (entry : Context) (inBranch : Bool)
    (o o' : Nat) : (start l entry inBranch o).Alike (start l' entry inBranch o') :=
  (Like.ofStart (L := bareLedgers) h entry inBranch trivial).alike

theorem Alike.endBranch (h : b.Alike b') : b.endBranch.Alike b'.endBranch := h.like.endBranch.alike

theorem Alike.endBlock (h : b.Alike b') (block : BlockKind) :
    (b.endBlock block).Alike (b'.endBlock block) := (h.like.endBlock block).alike

end Operations

end Assembly

/-! ## 3. The pass -/

section Pass

theorem reconcile_alike {l l' : Ledger} (h : l.Alike l') (s s' : Span) (head : FlowHead)
    (entry : Context) (exits : Exits) :
    (reconcile l s head entry exits).1 = (reconcile l' s' head entry exits).1
      ∧ (reconcile l s head entry exits).2.Alike (reconcile l' s' head entry exits).2 :=
  reconcile_like (L := bareLedgers) h (Assembly.anywhere s s') head entry exits

theorem noRun :
    (none : Option RawRun).map RawRun.text = (none : Option RawRun).map RawRun.text := rfl

mutual

/-- **Nodes are fed alike, whatever their names and places.** -/
theorem feedNodes_alike : ∀ (nodes : List Node) {b b' : Assembly} {run run' : Option RawRun},
    b.Alike b' → run.map RawRun.text = run'.map RawRun.text →
    (feedNodes b run nodes).Alike (feedNodes b' run' (bare nodes))
  | [], b, b', run, run', h, hr => by
    rw [bare_nil, feedNodes, feedNodes]
    exact h.readCollected hr
  | n :: nodes, b, b', run, run', h, hr => by
    rw [bare_cons]
    cases ht : n.rawText? with
    | some text =>
      have ht' : n.bare.rawText? = some text := by rw [Node.rawText?_bare, ht]
      rw [feedNodes_cons_text ht, feedNodes_cons_text ht']
      obtain ⟨hb, hrun⟩ := h.collect hr text n.location n.bare.location
      exact feedNodes_alike nodes hb (by rw [Option.map_some, Option.map_some, hrun])
    | none =>
      have ht' : n.bare.rawText? = none := by rw [Node.rawText?_bare, ht]
      rw [feedNodes_cons_node ht, feedNodes_cons_node ht']
      exact feedNodes_alike nodes (feedNode_alike n (h.readCollected hr)) rfl

theorem feedNode_alike : ∀ (n : Node) {b b' : Assembly}, b.Alike b' →
    (feedNode b n).Alike (feedNode b' n.bare)
  | .call id s callee params, b, b', h => by
    obtain ⟨hparams, hl⟩ := rewriteParams_alike params h.ledger
    rw [Node.bare, feedNode, feedNode]
    refine Assembly.Alike.reach ((h.setLedger hl).place ?_) _ _
    rw [Node.bare, Node.bare, hparams]
  | .binding id s var value, b, b', h => by
    obtain ⟨hvalue, hl⟩ := rewriteValue_alike value h.ledger .letContent s default
    rw [Node.bare, feedNode, feedNode]
    refine Assembly.Alike.reach ((h.setLedger hl).place ?_) _ _
    rw [Node.bare, Node.bare, hvalue]
  | .flow f, b, b', h => by
    have hset := h.settle f.location f.bare.location
    obtain ⟨hflow, hexit, hl⟩ := rewriteFlow_alike f hset.ledger (b.settle f.location).context
    rw [Node.bare, feedNode, feedNode]
    refine Assembly.Alike.reach ?_ _ _
    have hc := hset.context
    generalize b.settle f.location = x at *
    generalize b'.settle f.bare.location = x' at *
    have hplace := (hset.setLedger hl).placeFlow hflow (rewriteFlow x.ledger x.context f).2.1
    rwa [hexit, hc] at hplace ⊢
  | .attr id s name none, b, b', h => by
    rw [Node.bare, feedNode, feedNode]
    exact Assembly.Alike.reach (h.place (by simp [Node.bare])) _ _
    all_goals simp
  | .attr id s name (some value), b, b', h => by
    rw [Node.bare, feedNode, feedNode]
    exact Assembly.Alike.reach (h.place (by simp [Node.bare])) _ _
    all_goals simp
  | .raw .., b, b', h | .print .., b, b', h | .openTag .., b, b', h | .closeTag .., b, b', h
  | .attrValue .., b, b', h | .comment .., b, b', h => by
    rw [Node.bare, feedNode, feedNode]
    exact Assembly.Alike.reach (h.place (by simp [Node.bare])) _ _
    all_goals simp

theorem rewriteFlow_alike : ∀ (f : Flow) {l l' : Ledger}, l.Alike l' → ∀ entry : Context,
    (rewriteFlow l entry f).1.bare = (rewriteFlow l' entry f.bare).1.bare
      ∧ (rewriteFlow l entry f).2.1 = (rewriteFlow l' entry f.bare).2.1
      ∧ (rewriteFlow l entry f).2.2.Alike (rewriteFlow l' entry f.bare).2.2
  | ⟨id, s, head, branches⟩, l, l', h, entry => by
    rw [Flow.bare, rewriteFlow, rewriteFlow]
    dsimp only
    rw [h.config, h.depth]
    split
    · refine ⟨?_, rfl, h.report _ _ _⟩
      rw [Flow.bare, Flow.bare, bareBranches_bareBranches]
    · have hbranches := rewriteBranches_alike branches (h.setDepth (l'.depth + 1)) entry s.start
        (default : Span).start
      rw [h.config] at hbranches
      generalize rewriteBranches { l with config := l'.config, depth := l'.depth + 1 } entry s.start
        branches = r at *
      generalize rewriteBranches { l' with depth := l'.depth + 1 } entry (default : Span).start
        (bareBranches branches) = r' at *
      obtain ⟨hb, hexits, hl⟩ := hbranches
      obtain ⟨hexit, hl'⟩ := reconcile_alike (hl.setDepth l'.depth) s default head entry r.2.1
      dsimp only
      rw [← hexits]
      exact ⟨by rw [Flow.bare, Flow.bare, hb], hexit, hl'⟩

theorem rewriteBranches_alike : ∀ (branches : List Branch) {l l' : Ledger}, l.Alike l' →
    ∀ (entry : Context) (o o' : Nat),
    bareBranches (rewriteBranches l entry o branches).1
        = bareBranches (rewriteBranches l' entry o' (bareBranches branches)).1
      ∧ (rewriteBranches l entry o branches).2.1
        = (rewriteBranches l' entry o' (bareBranches branches)).2.1
      ∧ (rewriteBranches l entry o branches).2.2.Alike
        (rewriteBranches l' entry o' (bareBranches branches)).2.2
  | [], l, l', h, entry, o, o' => by
    rw [bareBranches, rewriteBranches, rewriteBranches]
    exact ⟨rfl, rfl, h⟩
  | branch :: branches, l, l', h, entry, o, o' => by
    obtain ⟨hb, hexit, hl⟩ := rewriteBranch_alike branch h entry o o'
    obtain ⟨hbs, hexits, hl'⟩ := rewriteBranches_alike branches hl entry o o'
    rw [bareBranches, rewriteBranches, rewriteBranches]
    dsimp only
    refine ⟨?_, ?_, hl'⟩
    · rw [bareBranches, bareBranches, hb, hbs]
    · have hkind : (rewriteBranch l entry o branch).1.kind
          = (rewriteBranch l' entry o' branch.bare).1.kind := by
        obtain ⟨id, kind, nodes⟩ := branch
        rw [Branch.bare, rewriteBranch, rewriteBranch]
      rw [hkind, hexit, hexits]

theorem rewriteBranch_alike : ∀ (branch : Branch) {l l' : Ledger}, l.Alike l' →
    ∀ (entry : Context) (o o' : Nat),
    (rewriteBranch l entry o branch).1.bare = (rewriteBranch l' entry o' branch.bare).1.bare
      ∧ (rewriteBranch l entry o branch).2.1 = (rewriteBranch l' entry o' branch.bare).2.1
      ∧ (rewriteBranch l entry o branch).2.2.Alike (rewriteBranch l' entry o' branch.bare).2.2
  | ⟨id, kind, nodes⟩, l, l', h, entry, o, o' => by
    have hcount : l.countBranch.Alike l'.countBranch := h
    have hstart := Assembly.alike_start hcount entry true o o'
    have hend := (feedNodes_alike nodes hstart noRun).endBranch
    rw [Branch.bare, rewriteBranch, rewriteBranch]
    refine ⟨?_, hend.context, hend.ledger⟩
    rw [Branch.bare, Branch.bare, hend.nodes]

theorem rewriteParams_alike : ∀ (params : List Param) {l l' : Ledger}, l.Alike l' →
    bareParams (rewriteParams l params).1 = bareParams (rewriteParams l' (bareParams params)).1
      ∧ (rewriteParams l params).2.Alike (rewriteParams l' (bareParams params)).2
  | [], l, l', h => by
    rw [bareParams, rewriteParams, rewriteParams]
    exact ⟨rfl, h⟩
  | p :: params, l, l', h => by
    obtain ⟨hp, hl⟩ := rewriteParam_alike p h
    obtain ⟨hps, hl'⟩ := rewriteParams_alike params hl
    rw [bareParams, rewriteParams, rewriteParams]
    exact ⟨by rw [bareParams, bareParams, hp, hps], hl'⟩

theorem rewriteParam_alike : ∀ (p : Param) {l l' : Ledger}, l.Alike l' →
    (rewriteParam l p).1.bare = (rewriteParam l' p.bare).1.bare
      ∧ (rewriteParam l p).2.Alike (rewriteParam l' p.bare).2
  | ⟨id, s, name, value⟩, l, l', h => by
    obtain ⟨hvalue, hl⟩ := rewriteValue_alike value h .paramContent s default
    rw [Param.bare, rewriteParam, rewriteParam]
    exact ⟨by rw [Param.bare, Param.bare, hvalue], hl⟩

theorem rewriteValue_alike : ∀ (value : Value) {l l' : Ledger}, l.Alike l' →
    ∀ (block : BlockKind) (s s' : Span),
    (rewriteValue l block s value).1.bare = (rewriteValue l' block s' value.bare).1.bare
      ∧ (rewriteValue l block s value).2.Alike (rewriteValue l' block s' value.bare).2
  | .expr e, l, l', h, block, s, s' => by
    rw [Value.bare, rewriteValue, rewriteValue]
    exact ⟨rfl, h⟩
  | .content kind nodes, l, l', h, block, s, s' => by
    have hcount : l.countBlock.Alike l'.countBlock := h
    rw [Value.bare, rewriteValue, rewriteValue]
    dsimp only
    split
    · next entry _ =>
      have hstart := Assembly.alike_start hcount entry false s.start s'.start
      have hend := (feedNodes_alike nodes hstart noRun).endBlock block
      exact ⟨by rw [Value.bare, Value.bare, hend.nodes], hend.ledger⟩
    · obtain ⟨hnodes, hl⟩ := enterNodes_alike nodes hcount
      exact ⟨by rw [Value.bare, Value.bare, hnodes], hl⟩

theorem enterNodes_alike : ∀ (nodes : List Node) {l l' : Ledger}, l.Alike l' →
    bare (enterNodes l nodes).1 = bare (enterNodes l' (bare nodes)).1
      ∧ (enterNodes l nodes).2.Alike (enterNodes l' (bare nodes)).2
  | [], l, l', h => by
    rw [bare_nil, enterNodes, enterNodes]
    exact ⟨rfl, h⟩
  | n :: nodes, l, l', h => by
    obtain ⟨hn, hl⟩ := enterNode_alike n h
    obtain ⟨hns, hl'⟩ := enterNodes_alike nodes hl
    rw [bare_cons, enterNodes, enterNodes]
    exact ⟨by rw [bare_cons, bare_cons, hn, hns], hl'⟩

theorem enterNode_alike : ∀ (n : Node) {l l' : Ledger}, l.Alike l' →
    (enterNode l n).1.bare = (enterNode l' n.bare).1.bare
      ∧ (enterNode l n).2.Alike (enterNode l' n.bare).2
  | .call id s callee params, l, l', h => by
    obtain ⟨hparams, hl⟩ := rewriteParams_alike params h
    rw [Node.bare, enterNode, enterNode]
    exact ⟨by rw [Node.bare, Node.bare, hparams], hl⟩
  | .binding id s var value, l, l', h => by
    obtain ⟨hvalue, hl⟩ := rewriteValue_alike value h .letContent s default
    rw [Node.bare, enterNode, enterNode]
    exact ⟨by rw [Node.bare, Node.bare, hvalue], hl⟩
  | .flow f, l, l', h => by
    obtain ⟨hflow, hl⟩ := enterFlow_alike f h
    rw [Node.bare, enterNode, enterNode]
    exact ⟨by rw [Node.bare, Node.bare, hflow], hl⟩
  | .attr id s name none, l, l', h | .attr id s name (some value), l, l', h => by
    rw [Node.bare, enterNode, enterNode]
    exact ⟨by simp [Node.bare], h⟩
    all_goals simp
  | .raw .., l, l', h | .print .., l, l', h | .openTag .., l, l', h | .closeTag .., l, l', h
  | .attrValue .., l, l', h | .comment .., l, l', h => by
    rw [Node.bare, enterNode, enterNode]
    exact ⟨by simp [Node.bare], h⟩
    all_goals simp

theorem enterFlow_alike : ∀ (f : Flow) {l l' : Ledger}, l.Alike l' →
    (enterFlow l f).1.bare = (enterFlow l' f.bare).1.bare
      ∧ (enterFlow l f).2.Alike (enterFlow l' f.bare).2
  | ⟨id, s, head, branches⟩, l, l', h => by
    obtain ⟨hb, hl⟩ := enterBranches_alike branches h
    rw [Flow.bare, enterFlow, enterFlow]
    exact ⟨by rw [Flow.bare, Flow.bare, hb], hl⟩

theorem enterBranches_alike : ∀ (branches : List Branch) {l l' : Ledger}, l.Alike l' →
    bareBranches (enterBranches l branches).1
        = bareBranches (enterBranches l' (bareBranches branches)).1
      ∧ (enterBranches l branches).2.Alike (enterBranches l' (bareBranches branches)).2
  | [], l, l', h => by
    rw [bareBranches, enterBranches, enterBranches]
    exact ⟨rfl, h⟩
  | branch :: branches, l, l', h => by
    obtain ⟨hb, hl⟩ := enterBranch_alike branch h
    obtain ⟨hbs, hl'⟩ := enterBranches_alike branches hl
    rw [bareBranches, enterBranches, enterBranches]
    exact ⟨by rw [bareBranches, bareBranches, hb, hbs], hl'⟩

theorem enterBranch_alike : ∀ (branch : Branch) {l l' : Ledger}, l.Alike l' →
    (enterBranch l branch).1.bare = (enterBranch l' branch.bare).1.bare
      ∧ (enterBranch l branch).2.Alike (enterBranch l' branch.bare).2
  | ⟨id, kind, nodes⟩, l, l', h => by
    obtain ⟨hnodes, hl⟩ := enterNodes_alike nodes h
    rw [Branch.bare, enterBranch, enterBranch]
    exact ⟨by rw [Branch.bare, Branch.bare, hnodes], hl⟩

end

end Pass

theorem Value.bare_nodes (v : Value) : TemplateMarkup.bare v.nodes = v.bare.nodes := by
  cases v <;> simp [Value.nodes, Value.bare]

theorem Ledger.Alike.faults {l l' : Ledger} (h : l.Alike l') :
    l.diagnostics.map Diagnostic.fault = l'.diagnostics.map Diagnostic.fault := by
  have hd : l.bare.diagnostics.map Diagnostic.fault = l'.bare.diagnostics.map Diagnostic.fault := by
    rw [show l.bare = l'.bare from h]
  simpa [Ledger.bare, Function.comp_def, Diagnostic.bare] using hd

/-- **Blocks that are the same when bare are rewritten to the same**, but for names and places, and
the same faults are reported. -/
theorem rewriteBlock_alike {nodes nodes' : List Node} (h : bare nodes = bare nodes')
    (config : Config) (kind : ContentKind) (block : BlockKind) (s s' : Span) (ids ids' : IdSource) :
    bare (rewriteBlock config kind block s ids nodes).result
        = bare (rewriteBlock config kind block s' ids' nodes').result
      ∧ (rewriteBlock config kind block s ids nodes).diagnostics.map Diagnostic.fault
        = (rewriteBlock config kind block s' ids' nodes').diagnostics.map Diagnostic.fault := by
  have key (nodes : List Node) (s : Span) (ids : IdSource) :
      bare (rewriteBlock config kind block s ids nodes).result
          = bare (rewriteBlock config kind block default default (bare nodes)).result
        ∧ (rewriteBlock config kind block s ids nodes).diagnostics.map Diagnostic.fault
          = (rewriteBlock config kind block default default (bare nodes)).diagnostics.map
            Diagnostic.fault := by
    have hl : (Ledger.start config ids).Alike (.start config default) := rfl
    obtain ⟨hvalue, hledger⟩ := rewriteValue_alike (.content (some kind) nodes) hl block s default
    rw [Value.bare] at hvalue hledger
    unfold rewriteBlock
    dsimp only [Ledger.outcome]
    rw [Value.bare_nodes, Value.bare_nodes, hvalue, List.map_reverse, List.map_reverse,
      hledger.faults]
    exact ⟨rfl, rfl⟩
  obtain ⟨h1, h2⟩ := key nodes s ids
  obtain ⟨h3, h4⟩ := key nodes' s' ids'
  rw [h1, h2, h3, h4, h]
  exact ⟨rfl, rfl⟩

end TemplateMarkup
