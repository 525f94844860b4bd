/-
# Blocks keep to themselves

What stands in a block does not matter outside of it: two runs over a template, with other nodes in
the block of one name, give trees that are the same outside of that block, and report the same about
everything else (`Template.rewrite_fill`).  The one exception is that control flow compares where its
branches end, so a branch that ends elsewhere may give its own control flow a report, or take one
away.

Both runs are followed side by side with the `Likeness` that looks at nodes from outside of the
block.  Their ledgers agree outside of the blocks that have been passed so far (`AgreeOutside`).
-/
import TemplateMarkup.Proofs.Html.Likeness
import TemplateMarkup.Proofs.Tree.Outside

namespace TemplateMarkup

/-! ## 1. What is seen from outside -/

section View

variable (i : NodeId) (n : Node)

@[simp] theorem Node.rawText?_outside : (n.outside i).rawText? = n.rawText? := by
  cases n with
  | attr id s name value =>
    cases value <;> simp [Node.outside, Node.fill, Node.unnamed, Node.rawText?]
  | _ => simp [Node.outside, Node.fill, Node.unnamed, Node.rawText?]

@[simp] theorem Node.isPrinting_outside : (n.outside i).isPrinting = n.isPrinting := by
  cases n with
  | attr id s name value =>
    cases value <;> simp [Node.outside, Node.fill, Node.unnamed, Node.isPrinting]
  | _ => simp [Node.outside, Node.fill, Node.unnamed, Node.isPrinting]

@[simp] theorem Node.isAttrValue_outside : (n.outside i).isAttrValue = n.isAttrValue := by
  cases n with
  | attr id s name value =>
    cases value <;> simp [Node.outside, Node.fill, Node.unnamed, Node.isAttrValue]
  | _ => simp [Node.outside, Node.fill, Node.unnamed, Node.isAttrValue]

@[simp] theorem Node.location_outside : (n.outside i).location = n.location := by
  cases n with
  | attr id s name value =>
    cases value <;> simp [Node.outside, Node.fill, Node.unnamed, Node.location]
  | flow f =>
    obtain ⟨_, _, _, _⟩ := f
    simp [Node.outside, Node.fill, Node.unnamed, Node.location, Flow.fill, Flow.unnamed]
  | _ => simp [Node.outside, Node.fill, Node.unnamed, Node.location]

theorem contextAfter?_outside (here : Context) :
    Assembly.contextAfter? here (n.outside i) = Assembly.contextAfter? here n := by
  have hname (name : Node) : (name.fill i []).unnamed.rcdata? = name.rcdata? := by
    rw [Node.rcdata?, Node.rcdata?, ← Node.outside, Node.rawText?_outside]
  cases n with
  | attr id s name value =>
    cases value <;> simp [Node.outside, Node.fill, Node.unnamed, Assembly.contextAfter?]
  | openTag id s name children selfClosing =>
    cases here <;> cases selfClosing <;>
      simp [Node.outside, Node.fill, Node.unnamed, Assembly.contextAfter?, hname]
  | closeTag id s name =>
    cases here <;> simp [Node.outside, Node.fill, Node.unnamed, Assembly.contextAfter?, hname]
  | _ => simp [Node.outside, Node.fill, Node.unnamed, Assembly.contextAfter?]

end View

theorem outside_eq_iff (i : NodeId) {nodes nodes' : List Node} : outside i nodes = outside i nodes'
    ↔ List.Forall₂ (fun n n' => n.outside i = n'.outside i) nodes nodes' := by
  rw [outside_eq_map, outside_eq_map, map_eq_iff_forall₂]

/-- Nodes that are the same outside of the block that is named `i`, at the same place. -/
def outsideLikeness (i : NodeId) : Likeness where
  node n n' := n.outside i = n'.outside i
  place o o' := o = o'
  name _ _ := True
  place_max h h' := by rw [h, h']
  place_min h h' := by rw [h, h']
  named _ := trivial
  text {n n'} h := by rw [← n.rawText?_outside i, h, Node.rawText?_outside]
  printing {n n'} h := by rw [← n.isPrinting_outside i, h, Node.isPrinting_outside]
  valued {n n'} h := by rw [← n.isAttrValue_outside i, h, Node.isAttrValue_outside]
  after here {n n'} h := by rw [← contextAfter?_outside i, h, contextAfter?_outside]
  start {n n'} h := by rw [← n.location_outside i, h, Node.location_outside]
  stop {n n'} h := by rw [← n.location_outside i, h, Node.location_outside]
  raw t _ h h' := by
    simp only [Node.outside, Node.fill, Node.unnamed, Span.eq_of_bounds h h']
  openTag selfClosing _ h h' hname hchildren := by
    have hchildren := (outside_eq_iff i).mpr hchildren
    simp only [Node.outside, outside] at hname hchildren
    simp only [Node.outside, Node.fill, Node.unnamed, Span.eq_of_bounds h h', hname, hchildren]
  closeTag _ h h' hname := by
    simp only [Node.outside] at hname
    simp only [Node.outside, Node.fill, Node.unnamed, Span.eq_of_bounds h h', hname]
  attr _ h h' hname hvalue := by
    simp only [Node.outside] at hname hvalue
    cases hvalue with
    | none => simp only [Node.outside, Node.fill, Node.unnamed, Span.eq_of_bounds h h', hname]
    | some hvalue =>
      simp only [Node.outside, Node.fill, Node.unnamed, Span.eq_of_bounds h h', hname, hvalue]
  attrValue quotes _ h h' hchildren := by
    have hchildren := (outside_eq_iff i).mpr hchildren
    simp only [outside] at hchildren
    simp only [Node.outside, Node.fill, Node.unnamed, Span.eq_of_bounds h h', hchildren]
  comment _ h h' hchildren := by
    have hchildren := (outside_eq_iff i).mpr hchildren
    simp only [outside] at hchildren
    simp only [Node.outside, Node.fill, Node.unnamed, Span.eq_of_bounds h h', hchildren]

/-! ## 2. What is reported outside -/

/-- The ledger of a run that has gone through the block with `nodes` in it.  A branch that is html
begins in the context `entry`. -/
def Block.through (l : Ledger) (entry : Option Context) (nodes : List Node) : Block → Ledger
  | .content block location kind => (rewriteValue l block location (.content kind nodes)).2
  | .branch location kind =>
    match entry with
    | some entry => (rewriteBranch l entry location.start ⟨default, kind, nodes⟩).2.2
    | none => (enterBranch l ⟨default, kind, nodes⟩).2

/-- A run at a depth reports these, in order, of the block with `nodes` in it. -/
def Block.Reports (config : Config) (depth : Nat) (entry : Option Context) (nodes : List Node)
    (b : Block) (ds : List Diagnostic) : Prop :=
  ∃ l : Ledger, l.config = config ∧ l.depth = depth
    ∧ (b.through l entry nodes).diagnostics = ds.reverse ++ l.diagnostics

/-- The report says that the branches of the control flow that the block is a branch of do not agree
on where they end. -/
def Block.owns (b : Block) (d : Diagnostic) : Bool :=
  match b with
  | .content .. => false
  | .branch location _ => d.location == location && d.fault.isMismatch

/-- What one run reported and what another did, in order, of a template with the nodes `old` and
`new` in its `blocks`: the same, but for what each reported of the blocks themselves, and of the
control flow that has one of them as a branch. -/
inductive AgreeOutside (config : Config) (old new : List Node) :
    List Block → List Diagnostic → List Diagnostic → Prop
  | nil : AgreeOutside config old new [] [] []
  /-- Both report the same. -/
  | same {blocks : List Block} {ds ds' : List Diagnostic} (d : Diagnostic) :
    AgreeOutside config old new blocks ds ds' →
    AgreeOutside config old new blocks (ds ++ [d]) (ds' ++ [d])
  /-- Both go through a block. -/
  | block {blocks : List Block} {ds ds' es es' : List Diagnostic} (b : Block) (depth : Nat)
    (entry : Option Context) : AgreeOutside config old new blocks ds ds' →
    b.Reports config depth entry old es → b.Reports config depth entry new es' →
    AgreeOutside config old new (blocks ++ [b]) (ds ++ es) (ds' ++ es')
  /-- Both pass by a block, in control flow that is nested too deep or in html nodes. -/
  | pass {blocks : List Block} {ds ds' : List Diagnostic} (b : Block) :
    AgreeOutside config old new blocks ds ds' →
    AgreeOutside config old new (blocks ++ [b]) ds ds'
  /-- Branches do not agree in the one run. -/
  | left {blocks : List Block} {ds ds' : List Diagnostic} {b : Block} {d : Diagnostic} :
    AgreeOutside config old new blocks ds ds' → b ∈ blocks → b.owns d = true →
    AgreeOutside config old new blocks (ds ++ [d]) ds'
  /-- Branches do not agree in the other run. -/
  | right {blocks : List Block} {ds ds' : List Diagnostic} {b : Block} {d : Diagnostic} :
    AgreeOutside config old new blocks ds ds' → b ∈ blocks → b.owns d = true →
    AgreeOutside config old new blocks ds (ds' ++ [d])

section Single

variable {config : Config} {old new : List Node} {ds ds' : List Diagnostic}

/-- Without blocks the reports are the same. -/
theorem AgreeOutside.eq_of_nil (h : AgreeOutside config old new [] ds ds') : ds = ds' := by
  generalize hblocks : ([] : List Block) = blocks at h
  induction h with
  | nil => rfl
  | same d _ ih => rw [ih hblocks]
  | block b _ _ _ _ _ _ => simp at hblocks
  | pass b _ _ => simp at hblocks
  | left _ hmem _ _ | right _ hmem _ _ =>
    subst hblocks
    cases hmem

/-- **With one block** the reports are the same before it, and the same after it but for those of
the control flow that it is a branch of.  In between each run reported what it does of the block. -/
theorem AgreeOutside.single {b : Block} (h : AgreeOutside config old new [b] ds ds') :
    ∃ before es es' after after', ds = before ++ es ++ after ∧ ds' = before ++ es' ++ after'
      ∧ ((∃ depth entry, b.Reports config depth entry old es ∧ b.Reports config depth entry new es')
        ∨ es = [] ∧ es' = [])
      ∧ after.filter (fun d => !b.owns d) = after'.filter (fun d => !b.owns d) := by
  generalize hblocks : [b] = blocks at h
  induction h with
  | nil => cases hblocks
  | same d _ ih =>
    obtain ⟨before, es, es', after, after', rfl, rfl, hreports, hafter⟩ := ih hblocks
    refine ⟨before, es, es', after ++ [d], after' ++ [d], ?_, ?_, hreports, ?_⟩
    · simp only [List.append_assoc]
    · simp only [List.append_assoc]
    · rw [List.filter_append, List.filter_append, hafter]
  | @block blocks ds ds' es es' c depth entry hbefore hes hes' _ =>
    obtain ⟨rfl, rfl⟩ : blocks = [] ∧ c = b := by
      simpa [List.append_eq_singleton_iff] using hblocks.symm
    obtain rfl := hbefore.eq_of_nil
    exact ⟨ds, es, es', [], [], by simp, by simp, .inl ⟨depth, entry, hes, hes'⟩, rfl⟩
  | @pass blocks ds ds' c hbefore _ =>
    obtain ⟨rfl, rfl⟩ : blocks = [] ∧ c = b := by
      simpa [List.append_eq_singleton_iff] using hblocks.symm
    obtain rfl := hbefore.eq_of_nil
    exact ⟨ds, [], [], [], [], by simp, by simp, .inr ⟨rfl, rfl⟩, rfl⟩
  | @left blocks ds ds' c d _ hmem howns ih =>
    obtain ⟨before, es, es', after, after', rfl, rfl, hreports, hafter⟩ := ih hblocks
    subst hblocks
    obtain rfl := List.mem_singleton.mp hmem
    refine ⟨before, es, es', after ++ [d], after', ?_, rfl, hreports, ?_⟩
    · simp only [List.append_assoc]
    · rw [List.filter_append, hafter]
      simp [howns]
  | @right blocks ds ds' c d _ hmem howns ih =>
    obtain ⟨before, es, es', after, after', rfl, rfl, hreports, hafter⟩ := ih hblocks
    subst hblocks
    obtain rfl := List.mem_singleton.mp hmem
    refine ⟨before, es, es', after, after' ++ [d], rfl, ?_, hreports, ?_⟩
    · simp only [List.append_assoc]
    · rw [List.filter_append, hafter]
      simp [howns]

end Single

/-- Ledgers of two runs with the same settings, at the same depth, that agree outside of the blocks
that have been passed. -/
structure LedgersAgree (config : Config) (old new : List Node) (blocks : List Block)
    (l l' : Ledger) : Prop where
  config_left : l.config = config
  config_right : l'.config = config
  depth : l.depth = l'.depth
  reports : AgreeOutside config old new blocks l.diagnostics.reverse l'.diagnostics.reverse

theorem Block.extends_through (b : Block) (l : Ledger) (entry : Option Context)
    (nodes : List Node) : l.Extends (b.through l entry nodes) := by
  cases b with
  | content block location kind => exact rewriteValue_extends _ l block location
  | branch location kind =>
    cases entry with
    | none => exact enterBranch_extends _ l
    | some entry => exact rewriteBranch_extends _ l entry _

namespace LedgersAgree

variable {config : Config} {old new : List Node} {blocks : List Block} {l l' : Ledger}

theorem pass (h : LedgersAgree config old new blocks l l') (passed : List Block) :
    LedgersAgree config old new (blocks ++ passed) l l' := by
  induction passed generalizing blocks with
  | nil => rwa [List.append_nil]
  | cons b passed ih =>
    rw [List.append_cons]
    exact ih { h with reports := h.reports.pass b }

theorem setDepth (h : LedgersAgree config old new blocks l l') (depth : Nat) :
    LedgersAgree config old new blocks { l with depth := depth } { l' with depth := depth } :=
  { h with depth := rfl }

/-- Both runs go through a block. -/
theorem through (h : LedgersAgree config old new blocks l l') (b : Block)
    (entry : Option Context) :
    LedgersAgree config old new (blocks ++ [b]) (b.through l entry old)
      (b.through l' entry new) := by
  have hl := b.extends_through l entry old
  have hl' := b.extends_through l' entry new
  obtain ⟨es, hes⟩ := hl.diagnostics
  obtain ⟨es', hes'⟩ := hl'.diagnostics
  have hleft : b.Reports config l.depth entry old es.reverse :=
    ⟨l, h.config_left, rfl, by rw [List.reverse_reverse, hes]⟩
  have hright : b.Reports config l.depth entry new es'.reverse :=
    ⟨l', h.config_right, h.depth.symm, by rw [List.reverse_reverse, hes']⟩
  refine ⟨hl.config.trans h.config_left, hl'.config.trans h.config_right, ?_, ?_⟩
  · rw [hl.depth, hl'.depth, h.depth]
  · rw [← hes, ← hes', List.reverse_append, List.reverse_append]
    exact h.reports.block b l.depth entry hleft hright

/-- The branches of a flow do not agree in the one run. -/
theorem left (h : LedgersAgree config old new blocks l l') {location : Span} {kind : BranchKind}
    (hmem : .branch location kind ∈ blocks) {fault : Fault} (hfault : fault.isMismatch = true) :
    LedgersAgree config old new blocks (l.report location fault) l' := by
  refine { h with reports := ?_ }
  rw [Ledger.report, List.reverse_cons]
  exact h.reports.left hmem (by simp [Block.owns, hfault])

/-- The branches of a flow do not agree in the other run. -/
theorem right (h : LedgersAgree config old new blocks l l') {location : Span} {kind : BranchKind}
    (hmem : .branch location kind ∈ blocks) {fault : Fault} (hfault : fault.isMismatch = true) :
    LedgersAgree config old new blocks l (l'.report location fault) := by
  refine { h with reports := ?_ }
  rw [Ledger.report, List.reverse_cons]
  exact h.reports.right hmem (by simp [Block.owns, hfault])

/-- The same is reported in both. -/
theorem report (h : LedgersAgree config old new blocks l l') (s : Span) (fault : Fault) :
    LedgersAgree config old new blocks (l.report s fault) (l'.report s fault) := by
  refine { h with reports := ?_ }
  rw [Ledger.report, Ledger.report, List.reverse_cons, List.reverse_cons]
  exact h.reports.same _

end LedgersAgree

/-- Ledgers that agree outside of the blocks that have been passed. -/
def agreeing (i : NodeId) (config : Config) (old new : List Node) (blocks : List Block) :
    (outsideLikeness i).Ledgers :=
  .ofSame _ (LedgersAgree config old new blocks) (fun _ _ => trivial)
    (fun h hl hl' => by
      refine ⟨hl.config.symm.trans h.config_left, hl'.config.symm.trans h.config_right, ?_, ?_⟩
      · rw [← hl.depth, ← hl'.depth, h.depth]
      · rw [← hl.diagnostics, ← hl'.diagnostics]
        exact h.reports)
    (fun _ h hs => by
      obtain rfl := Span.eq_of_bounds hs.start hs.stop
      exact LedgersAgree.report h _ _)

/-! ## 3. Branches and their ends -/

/-- **Other nodes in a branch that is a block change neither where the html goes on nor what is
reported of anything but the flow it belongs to.** -/
theorem reconcile_agree {config : Config} {old new : List Node} {blocks : List Block}
    {l l' : Ledger} (h : LedgersAgree config old new blocks l l') (i : NodeId) (location : Span)
    (head : FlowHead) (entry : Context) {exits exits' : Exits}
    (hfirst : head.isLoop = false → exits.head? = exits'.head?)
    (hsame : exits = exits' ∨ ∃ kind, .branch location kind ∈ blocks) :
    (reconcile l location head entry exits).1 = (reconcile l' location head entry exits').1
      ∧ LedgersAgree config old new blocks (reconcile l location head entry exits).2
        (reconcile l' location head entry exits').2 := by
  refine ⟨?_, ?_⟩
  · rw [reconcile_exit, reconcile_exit]
    cases hloop : head.isLoop with
    | true => rfl
    | false => rw [hfirst hloop]
  · rcases hsame with rfl | ⟨kind, hmem⟩
    · exact (reconcile_like (L := agreeing i config old new blocks) h ⟨rfl, rfl⟩ head entry
        exits).2
    · exact reconcile_induct (fun hfault h => h.right hmem hfault)
        (reconcile_induct (P := fun l => LedgersAgree config old new blocks l l')
          (fun hfault h => h.left hmem hfault) h head entry exits) head entry exits'

/-! ## 4. The pass -/

/-- Nodes that a run looks into for blocks of their own. -/
def Node.isEntered : Node → Bool
  | .call .. | .binding .. | .flow _ => true
  | _ => false

theorem feedNode_of_isEntered {n : Node} (h : n.isEntered = false) (b : Assembly) :
    feedNode b n = (b.place n).reach n.location.stop := by
  cases n with
  | call | binding | flow => cases h
  | _ => simp [feedNode]

theorem enterNode_of_isEntered {n : Node} (h : n.isEntered = false) (l : Ledger) :
    enterNode l n = (n, l) := by
  cases n with
  | call | binding | flow => cases h
  | _ => simp [enterNode]

section Filled

variable (i : NodeId) (new : List Node)

theorem Node.rawText?_fill (n : Node) : (n.fill i new).rawText? = n.rawText? := by
  cases n with
  | attr id s name value => cases value <;> simp [Node.fill, Node.rawText?]
  | _ => simp [Node.fill, Node.rawText?]

theorem Node.isEntered_fill (n : Node) : (n.fill i new).isEntered = n.isEntered := by
  cases n with
  | attr id s name value => cases value <;> simp [Node.fill, Node.isEntered]
  | _ => simp [Node.fill, Node.isEntered]

theorem Node.outside_fill (n : Node) : (n.fill i new).outside i = n.outside i := by
  rw [Node.outside, Node.fill_fill, Node.outside]

theorem Flow.location_fill (f : Flow) : (f.fill i new).location = f.location := by
  obtain ⟨_, _, _, _⟩ := f
  rw [Flow.fill]

end Filled

/-- A rewritten content block is a content block of the same kind. -/
theorem rewriteValue_content (l : Ledger) (block : BlockKind) (s : Span)
    (kind : Option ContentKind) (nodes : List Node) :
    ∃ rebuilt, (rewriteValue l block s (.content kind nodes)).1 = .content kind rebuilt := by
  rw [rewriteValue]
  dsimp only
  split <;> exact ⟨_, rfl⟩

theorem rewriteBranch_kind (l : Ledger) (entry : Context) (o : Nat) (branch : Branch) :
    (rewriteBranch l entry o branch).1.kind = branch.kind := by
  obtain ⟨_, _, _⟩ := branch
  rw [rewriteBranch]

theorem Branch.kind_fill (i : NodeId) (new : List Node) (isBlock : Bool) (branch : Branch) :
    (branch.fill i new isBlock).kind = branch.kind := by
  obtain ⟨_, _, _⟩ := branch
  rw [Branch.fill]

section Pass

variable {i : NodeId} {config : Config} {old new : List Node}

theorem collects_self (run : Option RawRun) :
    Option.Rel (outsideLikeness i).Collects run run := by
  cases run with
  | none => exact .none
  | some run => exact .some ⟨rfl, ⟨fun _ => rfl, fun _ => rfl⟩⟩

/-- Nodes that are handed on as they are are alike outside of the block. -/
theorem feedNode_fill_of_isEntered {n : Node} (hn : n.isEntered = false) {b b' : Assembly}
    {blocks : List Block} (h : b.Like (agreeing i config old new blocks) b') :
    (feedNode b (n.fill i old)).Like (agreeing i config old new (blocks ++ n.blocksNamed i))
      (feedNode b' (n.fill i new)) := by
  have hnode : (outsideLikeness i).node (n.fill i old) (n.fill i new) :=
    (Node.outside_fill i old n).trans (Node.outside_fill i new n).symm
  rw [feedNode_of_isEntered ((n.isEntered_fill i old).trans hn),
    feedNode_of_isEntered ((n.isEntered_fill i new).trans hn)]
  have hplaced := (h.place hnode).reach ((outsideLikeness i).stop hnode)
  exact { hplaced with ledger := LedgersAgree.pass hplaced.ledger _ }

theorem enterNode_fill_of_isEntered {n : Node} (hn : n.isEntered = false) {l l' : Ledger}
    {blocks : List Block} (h : LedgersAgree config old new blocks l l') :
    (enterNode l (n.fill i old)).1.outside i = (enterNode l' (n.fill i new)).1.outside i
      ∧ LedgersAgree config old new (blocks ++ n.blocksNamed i) (enterNode l (n.fill i old)).2
        (enterNode l' (n.fill i new)).2 := by
  rw [enterNode_of_isEntered ((n.isEntered_fill i old).trans hn),
    enterNode_of_isEntered ((n.isEntered_fill i new).trans hn), Node.outside_fill,
    Node.outside_fill]
  exact ⟨rfl, h.pass _⟩

mutual

/-- **Two runs over nodes that are filled with other nodes stay alike outside of the block.** -/
theorem feedNodes_fill : ∀ (nodes : List Node) {b b' : Assembly} {blocks : List Block}
    (run : Option RawRun), b.Like (agreeing i config old new blocks) b' →
    (feedNodes b run (fill i old nodes)).Like
      (agreeing i config old new (blocks ++ blocksNamed i nodes))
      (feedNodes b' run (fill i new nodes))
  | [], b, b', blocks, run, h => by
    rw [fill, fill, feedNodes, feedNodes, blocksNamed, List.append_nil]
    exact h.readCollected (collects_self run)
  | n :: nodes, b, b', blocks, run, h => by
    rw [fill, fill, blocksNamed, ← List.append_assoc]
    cases ht : n.rawText? with
    | some text =>
      obtain ⟨id, location, rfl⟩ := Node.eq_raw_of_rawText? ht
      obtain ⟨hb, hrun⟩ := h.collect (congrArg Config.joinText
        (h.ledger.config_left.trans h.ledger.config_right.symm)) run (collects_self run) text
        (Node.raw id location text).location
      simp only [Node.fill, Node.blocksNamed, List.append_nil]
      rw [feedNodes_cons_text rfl, feedNodes_cons_text rfl, hrun]
      exact feedNodes_fill nodes _ hb
    | none =>
      rw [feedNodes_cons_node ((n.rawText?_fill i old).trans ht),
        feedNodes_cons_node ((n.rawText?_fill i new).trans ht)]
      exact feedNodes_fill nodes none (feedNode_fill n (h.readCollected (collects_self run)))

theorem feedNode_fill : ∀ (n : Node) {b b' : Assembly} {blocks : List Block},
    b.Like (agreeing i config old new blocks) b' →
    (feedNode b (n.fill i old)).Like (agreeing i config old new (blocks ++ n.blocksNamed i))
      (feedNode b' (n.fill i new))
  | .call id s callee params, b, b', blocks, h => by
    obtain ⟨hparams, hl⟩ := rewriteParams_fill params h.ledger
    rw [Node.fill, Node.fill, feedNode, feedNode, Node.blocksNamed]
    refine ((h.setLedger (M := agreeing i config old new _) hl).place ?_).reach rfl
    exact (Node.outside_call ..).trans ((congrArg _ hparams).trans (Node.outside_call ..).symm)
  | .binding id s var value, b, b', blocks, h => by
    obtain ⟨hvalue, hl⟩ := rewriteValue_fill value h.ledger id .letContent s
    rw [Node.fill, Node.fill, feedNode, feedNode, Node.blocksNamed]
    refine ((h.setLedger (M := agreeing i config old new _) hl).place ?_).reach rfl
    exact (Node.outside_binding ..).trans
      ((congrArg _ hvalue).trans (Node.outside_binding ..).symm)
  | .flow f, b, b', blocks, h => by
    have hspans : (outsideLikeness i).Spans f.location f.location := ⟨rfl, rfl⟩
    have hset := h.settle hspans
    obtain ⟨hflow, hexit, hl⟩ := rewriteFlow_fill f hset.ledger hset.context
    rw [Node.fill, Node.fill, feedNode, feedNode, Node.blocksNamed]
    dsimp only
    rw [Flow.location_fill, Flow.location_fill, hexit]
    have hnode := (Node.outside_flow i _).trans
      ((congrArg Node.flow hflow).trans (Node.outside_flow i _).symm)
    exact ((hset.setLedger (M := agreeing i config old new _) hl).placeFlow hnode _).reach
      ((outsideLikeness i).stop hnode)
  | n@(.attr ..), b, b', blocks, h | n@(.raw ..), b, b', blocks, h
  | n@(.print ..), b, b', blocks, h | n@(.openTag ..), b, b', blocks, h
  | n@(.closeTag ..), b, b', blocks, h | n@(.attrValue ..), b, b', blocks, h
  | n@(.comment ..), b, b', blocks, h => feedNode_fill_of_isEntered rfl h

theorem rewriteFlow_fill : ∀ (f : Flow) {l l' : Ledger} {blocks : List Block},
    LedgersAgree config old new blocks l l' → ∀ {entry entry' : Context}, entry = entry' →
    (rewriteFlow l entry (f.fill i old)).1.outside i
        = (rewriteFlow l' entry' (f.fill i new)).1.outside i
      ∧ (rewriteFlow l entry (f.fill i old)).2.1 = (rewriteFlow l' entry' (f.fill i new)).2.1
      ∧ LedgersAgree config old new (blocks ++ f.blocksNamed i)
        (rewriteFlow l entry (f.fill i old)).2.2 (rewriteFlow l' entry' (f.fill i new)).2.2
  | ⟨id, s, head, branches⟩, l, l', blocks, h, entry, _, rfl => by
    have hconfig : l.config = l'.config := h.config_left.trans h.config_right.symm
    rw [Flow.fill, Flow.fill, rewriteFlow, rewriteFlow, Flow.blocksNamed]
    dsimp only
    by_cases hdeep : l'.depth ≥ l'.config.maxDepth
    · rw [if_pos hdeep, if_pos (by rwa [h.depth, hconfig]), hconfig]
      refine ⟨?_, rfl, ?_⟩
      · rw [Flow.outside_mk, Flow.outside_mk, outsideBranches, outsideBranches,
          fillBranches_fillBranches, fillBranches_fillBranches]
      · exact LedgersAgree.pass (LedgersAgree.report h _ _) _
    · rw [if_neg hdeep, if_neg (by rwa [h.depth, hconfig]), h.depth]
      obtain ⟨hb, hl, hfirst, hexits⟩ :=
        rewriteBranches_fill branches head.isLoop (h.setDepth (l'.depth + 1)) entry s
      obtain ⟨hexit, hl'⟩ := reconcile_agree (hl.setDepth l'.depth) i s head entry hfirst
        (hexits.imp_right fun ⟨kind, hk⟩ => ⟨kind, List.mem_append_right _ hk⟩)
      exact ⟨by rw [Flow.outside_mk, Flow.outside_mk, hb], hexit, hl'⟩

theorem rewriteBranches_fill : ∀ (branches : List Branch) (isBlock : Bool) {l l' : Ledger}
    {blocks : List Block}, LedgersAgree config old new blocks l l' →
    ∀ (entry : Context) (s : Span),
    outsideBranches i isBlock
          (rewriteBranches l entry s.start (fillBranches i old isBlock branches)).1
        = outsideBranches i isBlock
          (rewriteBranches l' entry s.start (fillBranches i new isBlock branches)).1
      ∧ LedgersAgree config old new (blocks ++ branchBlocksNamed i s isBlock branches)
        (rewriteBranches l entry s.start (fillBranches i old isBlock branches)).2.2
        (rewriteBranches l' entry s.start (fillBranches i new isBlock branches)).2.2
      ∧ (isBlock = false →
        (rewriteBranches l entry s.start (fillBranches i old isBlock branches)).2.1.head?
          = (rewriteBranches l' entry s.start (fillBranches i new isBlock branches)).2.1.head?)
      ∧ ((rewriteBranches l entry s.start (fillBranches i old isBlock branches)).2.1
          = (rewriteBranches l' entry s.start (fillBranches i new isBlock branches)).2.1
        ∨ ∃ kind, .branch s kind ∈ branchBlocksNamed i s isBlock branches)
  | [], isBlock, l, l', blocks, h, entry, s => by
    rw [fillBranches, fillBranches, rewriteBranches, rewriteBranches, branchBlocksNamed,
      List.append_nil]
    exact ⟨rfl, h, fun _ => rfl, .inl rfl⟩
  | branch :: branches, isBlock, l, l', blocks, h, entry, s => by
    obtain ⟨hb, hl, hexit⟩ := rewriteBranch_fill branch isBlock h entry s
    obtain ⟨hbs, hl', _, hexits⟩ := rewriteBranches_fill branches true hl entry s
    rw [fillBranches, fillBranches, rewriteBranches, rewriteBranches, branchBlocksNamed,
      ← List.append_assoc]
    dsimp only
    rw [rewriteBranch_kind, rewriteBranch_kind, Branch.kind_fill, Branch.kind_fill]
    refine ⟨?_, hl', fun hnot => ?_, ?_⟩
    · rw [outsideBranches_cons, outsideBranches_cons, hb, hbs]
    · rw [hexit.resolve_right fun hk => Bool.false_ne_true (hnot.symm.trans hk.1)]
      rfl
    · rcases hexit with hexit | ⟨_, kind, hk⟩
      · rcases hexits with hexits | ⟨kind, hk⟩
        · exact .inl (by rw [hexit, hexits])
        · exact .inr ⟨kind, List.mem_append_right _ hk⟩
      · exact .inr ⟨kind, List.mem_append_left _ hk⟩

theorem rewriteBranch_fill : ∀ (branch : Branch) (isBlock : Bool) {l l' : Ledger}
    {blocks : List Block}, LedgersAgree config old new blocks l l' →
    ∀ (entry : Context) (s : Span),
    (rewriteBranch l entry s.start (branch.fill i old isBlock)).1.outside i isBlock
        = (rewriteBranch l' entry s.start (branch.fill i new isBlock)).1.outside i isBlock
      ∧ LedgersAgree config old new (blocks ++ branch.blocksNamed i s isBlock)
        (rewriteBranch l entry s.start (branch.fill i old isBlock)).2.2
        (rewriteBranch l' entry s.start (branch.fill i new isBlock)).2.2
      ∧ ((rewriteBranch l entry s.start (branch.fill i old isBlock)).2.1
          = (rewriteBranch l' entry s.start (branch.fill i new isBlock)).2.1
        ∨ isBlock = true ∧ ∃ kind, .branch s kind ∈ branch.blocksNamed i s isBlock)
  | ⟨id, kind, nodes⟩, isBlock, l, l', blocks, h, entry, s => by
    rw [Branch.fill, Branch.fill, Branch.blocksNamed]
    by_cases hname : isBlock = true ∧ id = i
    · have hthrough (l : Ledger) (nodes : List Node) :
          (rewriteBranch l entry s.start ⟨id, kind, nodes⟩).2.2
            = (Block.branch s kind).through l (some entry) nodes := by
        simp only [Block.through, rewriteBranch]
      rw [if_pos hname, if_pos hname, if_pos hname, hthrough, hthrough]
      refine ⟨?_, h.through _ _, .inr ⟨hname.1, kind, List.mem_singleton_self _⟩⟩
      rw [rewriteBranch, rewriteBranch, Branch.outside_mk, Branch.outside_mk, if_pos hname,
        if_pos hname]
    · have hcount : LedgersAgree config old new blocks l.countBranch l'.countBranch := { h with }
      have hend := (feedNodes_fill nodes none (.ofStart (L := agreeing i config old new blocks)
        hcount entry true (o := s.start) rfl)).endBranch
      rw [if_neg hname, if_neg hname, if_neg hname, rewriteBranch, rewriteBranch]
      refine ⟨?_, hend.ledger, .inl hend.context⟩
      rw [Branch.outside_mk, Branch.outside_mk, if_neg hname, if_neg hname,
        (outside_eq_iff i).mpr hend.nodes]

theorem rewriteParams_fill : ∀ (params : List Param) {l l' : Ledger} {blocks : List Block},
    LedgersAgree config old new blocks l l' →
    outsideParams i (rewriteParams l (fillParams i old params)).1
        = outsideParams i (rewriteParams l' (fillParams i new params)).1
      ∧ LedgersAgree config old new (blocks ++ paramBlocksNamed i params)
        (rewriteParams l (fillParams i old params)).2 (rewriteParams l' (fillParams i new params)).2
  | [], l, l', blocks, h => by
    rw [fillParams, fillParams, rewriteParams, rewriteParams, paramBlocksNamed, List.append_nil]
    exact ⟨rfl, h⟩
  | ⟨id, s, name, value⟩ :: params, l, l', blocks, h => by
    obtain ⟨hvalue, hl⟩ := rewriteValue_fill value h id .paramContent s
    obtain ⟨hparams, hl'⟩ := rewriteParams_fill params hl
    rw [fillParams, fillParams, Param.fill, Param.fill, rewriteParams, rewriteParams, rewriteParam,
      rewriteParam, paramBlocksNamed, Param.blocksNamed, ← List.append_assoc]
    refine ⟨?_, hl'⟩
    rw [outsideParams_cons, outsideParams_cons, Param.outside_mk, Param.outside_mk, hvalue, hparams]

theorem rewriteValue_fill : ∀ (value : Value) {l l' : Ledger} {blocks : List Block},
    LedgersAgree config old new blocks l l' → ∀ (owner : NodeId) (block : BlockKind) (s : Span),
    (rewriteValue l block s (value.fill i old owner)).1.outside i owner
        = (rewriteValue l' block s (value.fill i new owner)).1.outside i owner
      ∧ LedgersAgree config old new (blocks ++ value.blocksNamed i owner block s)
        (rewriteValue l block s (value.fill i old owner)).2
        (rewriteValue l' block s (value.fill i new owner)).2
  | .expr e, l, l', blocks, h, owner, block, s => by
    rw [Value.fill, Value.fill, rewriteValue, rewriteValue, Value.blocksNamed, List.append_nil]
    exact ⟨rfl, h⟩
  | .content kind nodes, l, l', blocks, h, owner, block, s => by
    rw [Value.fill, Value.fill, Value.blocksNamed]
    by_cases hname : owner = i
    · rw [if_pos hname, if_pos hname, if_pos hname]
      refine ⟨?_, h.through (.content block s kind) none⟩
      obtain ⟨rebuilt, hleft⟩ := rewriteValue_content l block s kind old
      obtain ⟨rebuilt', hright⟩ := rewriteValue_content l' block s kind new
      rw [hleft, hright, Value.outside_content, Value.outside_content, if_pos hname, if_pos hname]
    · have hcount : LedgersAgree config old new blocks l.countBlock l'.countBlock := { h with }
      rw [if_neg hname, if_neg hname, if_neg hname, rewriteValue, rewriteValue]
      dsimp only
      split
      · next entry _ =>
        have hend := (feedNodes_fill nodes none (.ofStart (L := agreeing i config old new blocks)
          hcount entry false (o := s.start) rfl)).endBlock block
        refine ⟨?_, hend.ledger⟩
        rw [Value.outside_content, Value.outside_content, if_neg hname, if_neg hname,
          (outside_eq_iff i).mpr hend.nodes]
      · obtain ⟨hnodes, hl⟩ := enterNodes_fill nodes hcount
        refine ⟨?_, hl⟩
        rw [Value.outside_content, Value.outside_content, if_neg hname, if_neg hname, hnodes]

theorem enterNodes_fill : ∀ (nodes : List Node) {l l' : Ledger} {blocks : List Block},
    LedgersAgree config old new blocks l l' →
    outside i (enterNodes l (fill i old nodes)).1 = outside i (enterNodes l' (fill i new nodes)).1
      ∧ LedgersAgree config old new (blocks ++ blocksNamed i nodes)
        (enterNodes l (fill i old nodes)).2 (enterNodes l' (fill i new nodes)).2
  | [], l, l', blocks, h => by
    rw [fill, fill, enterNodes, enterNodes, blocksNamed, List.append_nil]
    exact ⟨rfl, h⟩
  | n :: nodes, l, l', blocks, h => by
    obtain ⟨hn, hl⟩ := enterNode_fill n h
    obtain ⟨hnodes, hl'⟩ := enterNodes_fill nodes hl
    rw [fill, fill, enterNodes, enterNodes, blocksNamed, ← List.append_assoc]
    exact ⟨by rw [outside_cons, outside_cons, hn, hnodes], hl'⟩

theorem enterNode_fill : ∀ (n : Node) {l l' : Ledger} {blocks : List Block},
    LedgersAgree config old new blocks l l' →
    (enterNode l (n.fill i old)).1.outside i = (enterNode l' (n.fill i new)).1.outside i
      ∧ LedgersAgree config old new (blocks ++ n.blocksNamed i) (enterNode l (n.fill i old)).2
        (enterNode l' (n.fill i new)).2
  | .call id s callee params, l, l', blocks, h => by
    obtain ⟨hparams, hl⟩ := rewriteParams_fill params h
    rw [Node.fill, Node.fill, enterNode, enterNode, Node.blocksNamed]
    exact ⟨by rw [Node.outside_call, Node.outside_call, hparams], hl⟩
  | .binding id s var value, l, l', blocks, h => by
    obtain ⟨hvalue, hl⟩ := rewriteValue_fill value h id .letContent s
    rw [Node.fill, Node.fill, enterNode, enterNode, Node.blocksNamed]
    exact ⟨by rw [Node.outside_binding, Node.outside_binding, hvalue], hl⟩
  | .flow f, l, l', blocks, h => by
    obtain ⟨hflow, hl⟩ := enterFlow_fill f h
    rw [Node.fill, Node.fill, enterNode, enterNode, Node.blocksNamed]
    exact ⟨by rw [Node.outside_flow, Node.outside_flow, hflow], hl⟩
  | n@(.attr ..), l, l', blocks, h | n@(.raw ..), l, l', blocks, h | n@(.print ..), l, l', blocks, h
  | n@(.openTag ..), l, l', blocks, h | n@(.closeTag ..), l, l', blocks, h
  | n@(.attrValue ..), l, l', blocks, h | n@(.comment ..), l, l', blocks, h =>
    enterNode_fill_of_isEntered rfl h

theorem enterFlow_fill : ∀ (f : Flow) {l l' : Ledger} {blocks : List Block},
    LedgersAgree config old new blocks l l' →
    (enterFlow l (f.fill i old)).1.outside i = (enterFlow l' (f.fill i new)).1.outside i
      ∧ LedgersAgree config old new (blocks ++ f.blocksNamed i) (enterFlow l (f.fill i old)).2
        (enterFlow l' (f.fill i new)).2
  | ⟨id, s, head, branches⟩, l, l', blocks, h => by
    obtain ⟨hbranches, hl⟩ := enterBranches_fill branches head.isLoop h s
    rw [Flow.fill, Flow.fill, enterFlow, enterFlow, Flow.blocksNamed]
    exact ⟨by rw [Flow.outside_mk, Flow.outside_mk, hbranches], hl⟩

theorem enterBranches_fill : ∀ (branches : List Branch) (isBlock : Bool) {l l' : Ledger}
    {blocks : List Block}, LedgersAgree config old new blocks l l' → ∀ s : Span,
    outsideBranches i isBlock (enterBranches l (fillBranches i old isBlock branches)).1
        = outsideBranches i isBlock (enterBranches l' (fillBranches i new isBlock branches)).1
      ∧ LedgersAgree config old new (blocks ++ branchBlocksNamed i s isBlock branches)
        (enterBranches l (fillBranches i old isBlock branches)).2
        (enterBranches l' (fillBranches i new isBlock branches)).2
  | [], isBlock, l, l', blocks, h, s => by
    rw [fillBranches, fillBranches, enterBranches, enterBranches, branchBlocksNamed,
      List.append_nil]
    exact ⟨rfl, h⟩
  | branch :: branches, isBlock, l, l', blocks, h, s => by
    obtain ⟨hb, hl⟩ := enterBranch_fill branch isBlock h s
    obtain ⟨hbs, hl'⟩ := enterBranches_fill branches true hl s
    rw [fillBranches, fillBranches, enterBranches, enterBranches, branchBlocksNamed,
      ← List.append_assoc]
    exact ⟨by rw [outsideBranches_cons, outsideBranches_cons, hb, hbs], hl'⟩

theorem enterBranch_fill : ∀ (branch : Branch) (isBlock : Bool) {l l' : Ledger}
    {blocks : List Block}, LedgersAgree config old new blocks l l' → ∀ s : Span,
    (enterBranch l (branch.fill i old isBlock)).1.outside i isBlock
        = (enterBranch l' (branch.fill i new isBlock)).1.outside i isBlock
      ∧ LedgersAgree config old new (blocks ++ branch.blocksNamed i s isBlock)
        (enterBranch l (branch.fill i old isBlock)).2
        (enterBranch l' (branch.fill i new isBlock)).2
  | ⟨id, kind, nodes⟩, isBlock, l, l', blocks, h, s => by
    rw [Branch.fill, Branch.fill, Branch.blocksNamed]
    by_cases hname : isBlock = true ∧ id = i
    · have hthrough (l : Ledger) (nodes : List Node) :
          (enterBranch l ⟨id, kind, nodes⟩).2 = (Block.branch s kind).through l none nodes := by
        simp only [Block.through, enterBranch]
      rw [if_pos hname, if_pos hname, if_pos hname, hthrough, hthrough]
      refine ⟨?_, h.through _ _⟩
      rw [enterBranch, enterBranch, Branch.outside_mk, Branch.outside_mk, if_pos hname,
        if_pos hname]
    · obtain ⟨hnodes, hl⟩ := enterNodes_fill nodes h
      rw [if_neg hname, if_neg hname, if_neg hname, enterBranch, enterBranch]
      refine ⟨?_, hl⟩
      rw [Branch.outside_mk, Branch.outside_mk, if_neg hname, if_neg hname, hnodes]

end

end Pass

/-- **What stands in a block does not matter outside of it.**  Two templates with other nodes in the
block that is named `i` are rewritten to templates that are the same outside of that block, but for
names, and what is reported is the same but for the block itself and for the control flow that it is
a branch of. -/
theorem Template.rewrite_fill (config : Config) (ids ids' : IdSource) (t : Template) (i : NodeId)
    (old new : List Node) :
    outside i ((t.fill i old).rewrite config ids).result.nodes
        = outside i ((t.fill i new).rewrite config ids').result.nodes
      ∧ AgreeOutside config old new (blocksNamed i t.nodes)
        ((t.fill i old).rewrite config ids).diagnostics
        ((t.fill i new).rewrite config ids').diagnostics := by
  have hstart : LedgersAgree config old new [] (Ledger.start config ids).countBlock
      (Ledger.start config ids').countBlock := ⟨rfl, rfl, rfl, .nil⟩
  unfold Template.rewrite rewriteBlock
  dsimp only [Ledger.outcome, Template.fill]
  rw [rewriteValue, rewriteValue]
  dsimp only
  split
  · next entry _ =>
    have hend := (feedNodes_fill t.nodes none (.ofStart (L := agreeing i config old new [])
      hstart entry false (o := t.location.start) rfl)).endBlock .template
    exact ⟨(outside_eq_iff i).mpr hend.nodes, hend.ledger.reports⟩
  · obtain ⟨hnodes, hl⟩ := enterNodes_fill t.nodes hstart
    exact ⟨hnodes, hl.reports⟩

end TemplateMarkup
