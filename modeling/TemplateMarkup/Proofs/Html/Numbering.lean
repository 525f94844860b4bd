/-
# Names stay unique

The pass keeps nodes that reading has named and draws names of its own: for text, for names that are
written out, for nodes of html.  The names it draws are counted along the pass, lexeme by lexeme and
node by node (`feedNodesDraws`); each of these steps draws eight at most, so the distance between two
sources is the number drawn between them.

`Drawn` holds of every function of the pass with this count.  As long as reading and the pass
together draw fewer than 2^32 names, all names in the tree differ (`Template.rewrite_nodup`),
whatever the pass reports or drops.
-/
import TemplateMarkup.Proofs.Html.Naming

namespace TemplateMarkup

/-! ## 1. Counting -/

namespace Assembly

/-- The number of names that reading the rest of a run draws. -/
def readDraws (b : Assembly) (run : RawRun) (pos : Nat) (held : Option Held) (t : Text) : Nat :=
  match t with
  | [] => b.ledger.ids.gap (b.release run held pos).ledger.ids
  | c :: cs =>
    let l := b.context.lexeme c cs
    let text : Text := (c :: cs).take l.width
    let stop := pos + text.size
    let b' := b.reportLexeme (run.location pos (pos + max text.size c.utf8Size)) l
    match _hMark : l.mark with
    | none =>
      (b'.enter l.next (run.locate pos)).readDraws run stop (some (Held.add held pos text))
        ((c :: cs).drop l.width)
    | some mark =>
      let marked := (b'.release run held pos).apply mark l.next text (run.location pos stop)
      b.ledger.ids.gap marked.ledger.ids + marked.readDraws run stop none ((c :: cs).drop l.width)
termination_by b.context.workLeft t
decreasing_by
  · exact Context.workLeft_drop_lt fun _ => Nat.le_of_eq (by rw [enter_context])
  · refine Context.workLeft_drop_lt fun hw => ?_
    have hText : (c :: cs).take (b.context.lexeme c cs).width = [] := by rw [hw]; rfl
    rw [hText]
    exact rank_apply_le _ _ c (Context.mayBeEmpty_of_width_eq_zero hw _hMark)

/-- The number of names that reading a run draws. -/
def runDraws (b : Assembly) (run : RawRun) : Nat :=
  readDraws { b with ledger := b.ledger.countRun } run 0 none run.text

/-- The number of names that reading the collected run draws. -/
def collectedDraws (b : Assembly) : Option RawRun → Nat
  | none => 0
  | some run => b.runDraws run

/-- The number of names drawn when one more raw text node is collected. -/
def collectDraws (b : Assembly) : Option RawRun → Nat
  | none => 0
  | some run => if b.ledger.config.joinText then 0 else b.runDraws run

end Assembly

mutual

/-- The number of names that feeding nodes draws. -/
def feedNodesDraws (b : Assembly) (run : Option RawRun) : List Node → Nat
  | [] => b.collectedDraws run
  | n :: nodes =>
    match n.rawText? with
    | some text =>
      b.collectDraws run
        + feedNodesDraws (b.collect run text n.location).1 (some (b.collect run text n.location).2)
          nodes
    | none =>
      b.collectedDraws run + feedNodeDraws (b.readCollected run) n
        + feedNodesDraws (feedNode (b.readCollected run) n) none nodes

/-- The number of names that feeding a node that is not raw text draws: those in its content, and
those for the node. -/
def feedNodeDraws (b : Assembly) : Node → Nat
  | .call id location callee params =>
    paramsDraws b.ledger params
      + (rewriteParams b.ledger params).2.ids.gap
        (feedNode b (.call id location callee params)).ledger.ids
  | .binding id location var value =>
    valueDraws b.ledger .letContent location value
      + (rewriteValue b.ledger .letContent location value).2.ids.gap
        (feedNode b (.binding id location var value)).ledger.ids
  | .flow ⟨id, location, head, branches⟩ =>
    b.ledger.ids.gap (b.settle location).ledger.ids
      + (flowDraws (b.settle location).ledger (b.settle location).context
          ⟨id, location, head, branches⟩
        + (rewriteFlow (b.settle location).ledger (b.settle location).context
            ⟨id, location, head, branches⟩).2.2.ids.gap
          (feedNode b (.flow ⟨id, location, head, branches⟩)).ledger.ids)
  | node => b.ledger.ids.gap (feedNode b node).ledger.ids

/-- The number of names that putting control flow together draws. -/
def flowDraws (ledger : Ledger) (entry : Context) : Flow → Nat
  | ⟨_, location, _, branches⟩ =>
    if ledger.depth ≥ ledger.config.maxDepth then 0
    else branchesDraws { ledger with depth := ledger.depth + 1 } entry location.start branches

/-- The number of names that putting branches together draws. -/
def branchesDraws (ledger : Ledger) (entry : Context) (offset : Nat) : List Branch → Nat
  | [] => 0
  | branch :: branches =>
    branchDraws ledger entry offset branch
      + branchesDraws (rewriteBranch ledger entry offset branch).2.2 entry offset branches

/-- The number of names that putting a branch together draws. -/
def branchDraws (ledger : Ledger) (entry : Context) (offset : Nat) : Branch → Nat
  | ⟨_, _, nodes⟩ =>
    let b := Assembly.start ledger.countBranch entry true offset
    feedNodesDraws b none nodes
      + (feedNodes b none nodes).ledger.ids.gap (feedNodes b none nodes).endBranch.ledger.ids

/-- The number of names drawn in the content of parameters. -/
def paramsDraws (ledger : Ledger) : List Param → Nat
  | [] => 0
  | p :: params => paramDraws ledger p + paramsDraws (rewriteParam ledger p).2 params

/-- The number of names drawn in the content of a parameter. -/
def paramDraws (ledger : Ledger) : Param → Nat
  | ⟨_, location, _, value⟩ => valueDraws ledger .paramContent location value

/-- The number of names drawn in a content block. -/
def valueDraws (ledger : Ledger) (block : BlockKind) (location : Span) : Value → Nat
  | .expr _ => 0
  | .content kind nodes =>
    match Context.entry? (declaredOrHtml kind) with
    | some entry =>
      let b := Assembly.start ledger.countBlock entry false location.start
      feedNodesDraws b none nodes
        + (feedNodes b none nodes).ledger.ids.gap ((feedNodes b none nodes).endBlock block).ledger.ids
    | none => enterNodesDraws ledger.countBlock nodes

/-- The number of names drawn in the content blocks among nodes that are not html. -/
def enterNodesDraws (ledger : Ledger) : List Node → Nat
  | [] => 0
  | n :: nodes => enterNodeDraws ledger n + enterNodesDraws (enterNode ledger n).2 nodes

/-- The number of names drawn in the content blocks of a node that is not html. -/
def enterNodeDraws (ledger : Ledger) : Node → Nat
  | .call _ _ _ params => paramsDraws ledger params
  | .binding _ location _ value => valueDraws ledger .letContent location value
  | .flow ⟨_, _, _, branches⟩ => enterBranchesDraws ledger branches
  | _ => 0

/-- The number of names drawn in the content blocks of branches that are not html. -/
def enterBranchesDraws (ledger : Ledger) : List Branch → Nat
  | [] => 0
  | ⟨id, kind, nodes⟩ :: branches =>
    enterNodesDraws ledger nodes
      + enterBranchesDraws (enterBranch ledger ⟨id, kind, nodes⟩).2 branches

end

/-- The number of names that giving structure to a template draws. -/
def Template.rewriteDraws (config : Config) (ids : IdSource) (t : Template) : Nat :=
  valueDraws (.start config ids) .template t.location (.content (some t.kind) t.nodes)

/-! ## 2. Reading -/

namespace Assembly

/-- Content draws nothing. -/
theorem readDraws_content {b : Assembly} {c : Char} {cs : Text}
    (hm : (b.context.lexeme c cs).mark = none) (run : RawRun) (pos : Nat) (held : Option Held) :
    let l := b.context.lexeme c cs
    let text : Text := (c :: cs).take l.width
    b.readDraws run pos held (c :: cs)
      = ((b.reportLexeme (run.location pos (pos + max text.size c.utf8Size)) l).enter l.next
          (run.locate pos)).readDraws run (pos + text.size) (some (Held.add held pos text))
        ((c :: cs).drop l.width) := by
  intro l text
  rw [readDraws]
  split
  · rfl
  · next m hm' => exact absurd (hm.symm.trans hm') (by simp)

/-- A mark draws with the content before it. -/
theorem readDraws_mark {b : Assembly} {c : Char} {cs : Text} {m : Mark}
    (hm : (b.context.lexeme c cs).mark = some m) (run : RawRun) (pos : Nat) (held : Option Held) :
    let l := b.context.lexeme c cs
    let text : Text := (c :: cs).take l.width
    let marked := ((b.reportLexeme (run.location pos (pos + max text.size c.utf8Size)) l).release run
      held pos).apply m l.next text (run.location pos (pos + text.size))
    b.readDraws run pos held (c :: cs)
      = b.ledger.ids.gap marked.ledger.ids
        + marked.readDraws run (pos + text.size) none ((c :: cs).drop l.width) := by
  intro l text marked
  rw [readDraws]
  split
  · next hm' => exact absurd (hm.symm.trans hm') (by simp)
  · next m' hm' =>
    obtain rfl : m = m' := Option.some.inj (hm.symm.trans hm')
    rfl

/-- **Reading draws as many names as are counted**, and gives each once. -/
theorem read_draws (b : Assembly) (run : RawRun) (pos : Nat) (held : Option Held) (t : Text) :
    b.Draws 0 (b.readDraws run pos held t) (b.read run pos held t) := by
  induction b, pos, held, t using read.induct run with
  | case1 b pos held =>
    rw [readDraws, read]
    exact (b.few_release run held pos).draws_gap (by omega)
  | case2 b pos held c cs l text stop faultStop b' hm ih =>
    have hlexeme : b.Few 0 0 (b'.enter l.next (run.locate pos)) :=
      (b.few_reportLexeme (run.location pos faultStop) l).enter _ _
    obtain ⟨n, hn, hdraws⟩ := hlexeme
    obtain rfl : n = 0 := Nat.le_zero.mp hn
    have hboth := hdraws.trans ih
    rw [Nat.zero_add, add_zero] at hboth
    rw [readDraws_content hm, read_of_content hm]
    exact hboth
  | case3 b pos held c cs l text stop faultStop b' m hm ih =>
    have hreport := b.few_reportLexeme (run.location pos faultStop) l
    have hmark := (hreport.then (few_release _ run held pos)).then
      (few_apply _ m l.next text (run.location pos stop))
    have hboth := (hmark.draws_gap (by omega)).trans ih
    rw [add_zero] at hboth
    rw [readDraws_mark hm, read_of_mark hm]
    exact hboth

theorem readRun_draws (b : Assembly) (run : RawRun) : b.Draws 0 (b.runDraws run) (b.readRun run) :=
  read_draws { b with ledger := b.ledger.countRun } run 0 none run.text

theorem draws_refl (b : Assembly) : b.Draws 0 0 b := by
  unfold Draws
  rw [add_zero]
  exact drawn_refl _ _

theorem readCollected_draws (b : Assembly) (run : Option RawRun) :
    b.Draws 0 (b.collectedDraws run) (b.readCollected run) := by
  cases run with
  | none => exact b.draws_refl
  | some run => exact b.readRun_draws run

theorem collect_draws (b : Assembly) (run : Option RawRun) (text : Text) (location : Span) :
    b.Draws 0 (b.collectDraws run) (b.collect run text location).1 := by
  unfold collectDraws collect
  cases run with
  | none => exact b.draws_refl
  | some run =>
    dsimp only
    split
    · exact b.draws_refl
    · exact b.readRun_draws run

end Assembly

/-! ## 3. The pass -/

/-- The names in a value. -/
def Value.idBag (value : Value) : Multiset NodeId := ↑value.names

/-- The names in parameters. -/
def paramsIdBag (params : List Param) : Multiset NodeId := ↑(paramsNames params)

/-- The names in branches. -/
def branchesIdBag (branches : List Branch) : Multiset NodeId := ↑(branchesNames branches)

/-- The names in a parameter. -/
def Param.idBag (p : Param) : Multiset NodeId := ↑p.names

/-- The names in a branch. -/
def Branch.idBag (b : Branch) : Multiset NodeId := ↑b.names

theorem paramsIdBag_cons (p : Param) (params : List Param) :
    paramsIdBag (p :: params) = p.idBag + paramsIdBag params := by
  rw [paramsIdBag, paramsNames, ← Multiset.coe_add]
  rfl

theorem branchesIdBag_cons (b : Branch) (branches : List Branch) :
    branchesIdBag (b :: branches) = b.idBag + branchesIdBag branches := by
  rw [branchesIdBag, branchesNames, ← Multiset.coe_add]
  rfl

section

variable (id : NodeId) (s : Span)

theorem Node.idBag_call (callee : Text) (params : List Param) :
    (call id s callee params).idBag = paramsIdBag params + {id} := by
  rw [idBag, names, ← Multiset.coe_add]
  rfl

theorem Node.idBag_binding (var : Text) (value : Value) :
    (binding id s var value).idBag = value.idBag + {id} := by
  rw [idBag, names, ← Multiset.coe_add]
  rfl

theorem Node.idBag_flow (head : FlowHead) (branches : List Branch) :
    (flow ⟨id, s, head, branches⟩).idBag = branchesIdBag branches + {id} := by
  rw [idBag, names, Flow.names, ← Multiset.coe_add]
  rfl

theorem Param.idBag_mk (name : Text) (value : Value) :
    Param.idBag ⟨id, s, name, value⟩ = value.idBag + {id} := by
  rw [idBag, names, ← Multiset.coe_add]
  rfl

theorem Branch.idBag_mk (kind : BranchKind) (nodes : List Node) :
    Branch.idBag ⟨id, kind, nodes⟩ = TemplateMarkup.idBag nodes + {id} := by
  rw [idBag, names, ← Multiset.coe_add]
  rfl

end

section

variable {ids ids' : IdSource} {before after : Multiset NodeId} {n : Nat}

/-- What stands beside a step is not touched by it. -/
theorem Drawn.frame (h : Drawn ids before n ids' after) (more : Multiset NodeId) :
    Drawn ids (before + more) n ids' (after + more) := by
  have hboth := h.trans (drawn_refl ids' (after + more))
  rwa [Nat.add_zero] at hboth

/-- **Names that a source has given are all different**, until they start over. -/
theorem Drawn.nodup (h : Drawn ids 0 n ids' after) (hn : n ≤ 2 ^ 32) : after.Nodup := by
  refine Multiset.nodup_of_le h.names ?_
  rw [zero_add]
  exact Multiset.coe_nodup.mpr (ids.taken_nodup hn)

/-- **A block is put together from what was fed.**  Closing it draws a few names more. -/
theorem drawn_of_closed {b b' b'' : Assembly} {extra : Multiset NodeId} (hb : b.idBag = 0)
    (h : b.Draws extra n b') (h' : b'.Few 0 8 b'') :
    Drawn b.ledger.ids extra (n + b'.ledger.ids.gap b''.ledger.ids) b''.ledger.ids
      (idBag b''.nodes) := by
  have hboth := h.trans (h'.draws_gap (by omega))
  unfold Assembly.Draws at hboth
  rw [hb, zero_add, add_zero] at hboth
  exact ⟨b''.idBag_nodes_le.trans hboth.names, hboth.ids⟩

end

/-- What is inside a node draws before the node is placed. -/
theorem Assembly.draws_of_inside {b b' : Assembly} {l : Ledger}
    {inside inside' extra : Multiset NodeId} {n k : Nat}
    (h : Drawn b.ledger.ids inside n l.ids inside')
    (h' : Few { b with ledger := l } (inside' + extra) k b') (hk : k < 2 ^ 32) :
    b.Draws (inside + extra) (n + l.ids.gap b'.ledger.ids) b' := by
  have hplace := h'.draws_gap hk
  unfold Draws at hplace ⊢
  rw [idBag_ledger, add_left_comm] at hplace
  rw [add_left_comm]
  exact h.trans hplace

/-- Agreeing on an exit draws nothing. -/
theorem reconcile_ids (ledger : Ledger) (location : Span) (head : FlowHead) (entry : Context)
    (exits : Exits) : (reconcile ledger location head entry exits).2.ids = ledger.ids :=
  reconcile_induct (P := fun l => l.ids = ledger.ids) (fun _ h => h) rfl head entry exits

mutual

/-- **Feeding nodes draws as many names as are counted**, and every name goes to one node. -/
theorem feedNodes_draws : ∀ (nodes : List Node) (b : Assembly) (run : Option RawRun),
    b.Draws (idBag nodes) (feedNodesDraws b run nodes) (feedNodes b run nodes)
  | [], b, run => by
    rw [feedNodes, feedNodesDraws, idBag_nil]
    exact b.readCollected_draws run
  | n :: nodes, b, run => by
    rw [feedNodes, feedNodesDraws, idBag_cons]
    cases ht : n.rawText? with
    | some text =>
      -- the name of the raw text node itself is dropped
      have hboth := (b.collect_draws run text n.location).trans
        (feedNodes_draws nodes (b.collect run text n.location).1
          (some (b.collect run text n.location).2))
      rw [zero_add] at hboth
      refine Drawn.mono hboth ?_
      gcongr
      exact Multiset.le_add_left _ _
    | none =>
      have hnode := (b.readCollected_draws run).trans (feedNode_draws n (b.readCollected run))
      rw [zero_add] at hnode
      exact hnode.trans (feedNodes_draws nodes (feedNode (b.readCollected run) n) none)

/-- **So does feeding a node**, whose content draws first. -/
theorem feedNode_draws : ∀ (n : Node) (b : Assembly),
    b.Draws n.idBag (feedNodeDraws b n) (feedNode b n)
  | .call id location callee params, b => by
    rw [feedNodeDraws, feedNode, Node.idBag_call]
    have hplace := Assembly.few_place { b with ledger := (rewriteParams b.ledger params).2 }
      (.call id location callee (rewriteParams b.ledger params).1)
    rw [Node.idBag_call] at hplace
    exact Assembly.draws_of_inside (rewriteParams_draws params b.ledger) hplace (by omega)
  | .binding id location var value, b => by
    rw [feedNodeDraws, feedNode, Node.idBag_binding]
    have hplace := Assembly.few_place
      { b with ledger := (rewriteValue b.ledger .letContent location value).2 }
      (.binding id location var (rewriteValue b.ledger .letContent location value).1)
    rw [Node.idBag_binding] at hplace
    exact Assembly.draws_of_inside (rewriteValue_draws value b.ledger .letContent location) hplace
      (by omega)
  | .flow ⟨id, location, head, branches⟩, b => by
    rw [feedNodeDraws, feedNode]
    have hsettle := (b.few_settle location).draws_gap (by omega)
    have hflow := rewriteFlow_draws ⟨id, location, head, branches⟩ (b.settle location).ledger
      (b.settle location).context
    have hplace := Assembly.few_placeFlow
      { b.settle location with
        ledger := (rewriteFlow (b.settle location).ledger (b.settle location).context
          ⟨id, location, head, branches⟩).2.2 }
      (rewriteFlow (b.settle location).ledger (b.settle location).context
        ⟨id, location, head, branches⟩).1
      (rewriteFlow (b.settle location).ledger (b.settle location).context
        ⟨id, location, head, branches⟩).2.1
    rw [← add_zero (Node.idBag _)] at hplace
    have hboth := hsettle.trans (Assembly.draws_of_inside hflow hplace (by omega))
    rw [zero_add, add_zero] at hboth
    exact hboth
  | .raw id location text, b => by
    rw [feedNodeDraws, feedNode]
    · exact (b.few_place (.raw id location text)).draws_gap (by omega)
    all_goals simp
  | .print .., b | .openTag .., b | .closeTag .., b | .attr .., b | .attrValue .., b
  | .comment .., b => by
    rw [feedNodeDraws, feedNode]
    · exact (b.few_place _).draws_gap (by omega)
    all_goals simp

/-- Control flow keeps its own name, and its branches draw. -/
theorem rewriteFlow_draws : ∀ (flow : Flow) (l : Ledger) (entry : Context),
    Drawn l.ids (Node.flow flow).idBag (flowDraws l entry flow) (rewriteFlow l entry flow).2.2.ids
      (Node.flow (rewriteFlow l entry flow).1).idBag
  | ⟨id, location, head, branches⟩, l, entry => by
    rw [rewriteFlow, flowDraws]
    dsimp only
    split
    · exact drawn_refl l.ids _
    · rw [Node.idBag_flow, Node.idBag_flow, reconcile_ids]
      exact (rewriteBranches_draws branches { l with depth := l.depth + 1 } entry
        location.start).frame {id}

/-- Branches draw one after the other. -/
theorem rewriteBranches_draws : ∀ (branches : List Branch) (l : Ledger) (entry : Context)
    (offset : Nat), Drawn l.ids (branchesIdBag branches) (branchesDraws l entry offset branches)
      (rewriteBranches l entry offset branches).2.2.ids
      (branchesIdBag (rewriteBranches l entry offset branches).1)
  | [], l, entry, offset => by
    rw [rewriteBranches, branchesDraws]
    exact drawn_refl l.ids _
  | branch :: branches, l, entry, offset => by
    rw [rewriteBranches, branchesDraws]
    dsimp only
    rw [branchesIdBag_cons, branchesIdBag_cons]
    exact (rewriteBranch_draws branch l entry offset).add
      (rewriteBranches_draws branches (rewriteBranch l entry offset branch).2.2 entry offset)

/-- A branch keeps its name, and its nodes draw. -/
theorem rewriteBranch_draws : ∀ (branch : Branch) (l : Ledger) (entry : Context) (offset : Nat),
    Drawn l.ids branch.idBag (branchDraws l entry offset branch)
      (rewriteBranch l entry offset branch).2.2.ids (rewriteBranch l entry offset branch).1.idBag
  | ⟨id, kind, nodes⟩, l, entry, offset => by
    rw [rewriteBranch, branchDraws, Branch.idBag_mk, Branch.idBag_mk]
    have hfeed := feedNodes_draws nodes (.start l.countBranch entry true offset) none
    exact (drawn_of_closed (b := .start l.countBranch entry true offset) rfl hfeed
      (Assembly.few_endBranch _)).frame {id}

/-- Parameters draw one after the other. -/
theorem rewriteParams_draws : ∀ (params : List Param) (l : Ledger),
    Drawn l.ids (paramsIdBag params) (paramsDraws l params) (rewriteParams l params).2.ids
      (paramsIdBag (rewriteParams l params).1)
  | [], l => by
    rw [rewriteParams, paramsDraws]
    exact drawn_refl l.ids _
  | p :: params, l => by
    rw [rewriteParams, paramsDraws]
    dsimp only
    rw [paramsIdBag_cons, paramsIdBag_cons]
    exact (rewriteParam_draws p l).add (rewriteParams_draws params (rewriteParam l p).2)

/-- A parameter keeps its name, and its content draws. -/
theorem rewriteParam_draws : ∀ (p : Param) (l : Ledger),
    Drawn l.ids p.idBag (paramDraws l p) (rewriteParam l p).2.ids (rewriteParam l p).1.idBag
  | ⟨id, location, name, value⟩, l => by
    rw [rewriteParam, paramDraws, Param.idBag_mk, Param.idBag_mk]
    exact (rewriteValue_draws value l .paramContent location).frame {id}

/-- **A content block draws for its nodes and for its end.** -/
theorem rewriteValue_draws : ∀ (value : Value) (l : Ledger) (block : BlockKind) (location : Span),
    Drawn l.ids value.idBag (valueDraws l block location value)
      (rewriteValue l block location value).2.ids (rewriteValue l block location value).1.idBag
  | .expr expr, l, block, location => by
    rw [rewriteValue, valueDraws]
    exact drawn_refl l.ids _
  | .content kind nodes, l, block, location => by
    rw [rewriteValue, valueDraws]
    dsimp only
    cases Context.entry? (declaredOrHtml kind) with
    | some entry =>
      have hfeed := feedNodes_draws nodes (.start l.countBlock entry false location.start) none
      exact drawn_of_closed (b := .start l.countBlock entry false location.start) rfl hfeed
        (Assembly.few_endBlock _ block)
    | none => exact enterNodes_draws nodes l.countBlock

/-- Nodes that are not html draw in their content blocks. -/
theorem enterNodes_draws : ∀ (nodes : List Node) (l : Ledger),
    Drawn l.ids (idBag nodes) (enterNodesDraws l nodes) (enterNodes l nodes).2.ids
      (idBag (enterNodes l nodes).1)
  | [], l => by
    rw [enterNodes, enterNodesDraws]
    exact drawn_refl l.ids _
  | n :: nodes, l => by
    rw [enterNodes, enterNodesDraws]
    dsimp only
    rw [idBag_cons, idBag_cons]
    exact (enterNode_draws n l).add (enterNodes_draws nodes (enterNode l n).2)

theorem enterNode_draws : ∀ (n : Node) (l : Ledger),
    Drawn l.ids n.idBag (enterNodeDraws l n) (enterNode l n).2.ids (enterNode l n).1.idBag
  | .call id location callee params, l => by
    rw [enterNode, enterNodeDraws]
    dsimp only
    rw [Node.idBag_call, Node.idBag_call]
    exact (rewriteParams_draws params l).frame {id}
  | .binding id location var value, l => by
    rw [enterNode, enterNodeDraws]
    dsimp only
    rw [Node.idBag_binding, Node.idBag_binding]
    exact (rewriteValue_draws value l .letContent location).frame {id}
  | .flow ⟨id, location, head, branches⟩, l => by
    rw [enterNode, enterNodeDraws, enterFlow]
    dsimp only
    rw [Node.idBag_flow, Node.idBag_flow]
    exact (enterBranches_draws branches l).frame {id}
  | .raw .., l | .print .., l | .openTag .., l | .closeTag .., l | .attr .., l | .attrValue .., l
  | .comment .., l => by
    rw [enterNode, enterNodeDraws]
    · exact drawn_refl l.ids _
    all_goals simp

theorem enterBranches_draws : ∀ (branches : List Branch) (l : Ledger),
    Drawn l.ids (branchesIdBag branches) (enterBranchesDraws l branches)
      (enterBranches l branches).2.ids (branchesIdBag (enterBranches l branches).1)
  | [], l => by
    rw [enterBranches, enterBranchesDraws]
    exact drawn_refl l.ids _
  | ⟨id, kind, nodes⟩ :: branches, l => by
    rw [enterBranches, enterBranchesDraws]
    dsimp only
    rw [branchesIdBag_cons, branchesIdBag_cons]
    have hbranch : Drawn l.ids (Branch.idBag ⟨id, kind, nodes⟩) (enterNodesDraws l nodes)
        (enterBranch l ⟨id, kind, nodes⟩).2.ids (enterBranch l ⟨id, kind, nodes⟩).1.idBag := by
      rw [enterBranch, Branch.idBag_mk, Branch.idBag_mk]
      exact (enterNodes_draws nodes l).frame {id}
    exact hbranch.add (enterBranches_draws branches (enterBranch l ⟨id, kind, nodes⟩).2)

end

/-! ## 4. Templates -/

theorem Value.idBag_nodes_le (value : Value) :
    TemplateMarkup.idBag value.nodes ≤ value.idBag := by
  cases value with
  | expr e => exact Multiset.zero_le _
  | content kind nodes => exact le_refl _

/-- Giving structure to a template draws for its nodes; the template keeps its name. -/
theorem Template.rewrite_draws (config : Config) (ids : IdSource) (t : Template) :
    Drawn ids (idBag t.nodes) (t.rewriteDraws config ids) (t.rewrite config ids).ids
      (idBag (t.rewrite config ids).result.nodes) := by
  have hblock := rewriteValue_draws (.content (some t.kind) t.nodes) (.start config ids) .template
    t.location
  refine ⟨?_, hblock.ids⟩
  exact (Value.idBag_nodes_le _).trans hblock.names

/-- **All names in a template stay different.**  Reading a source and giving structure to what was
read, with one source of names, name the template and every node, tag name, attribute name, branch
and parameter in it differently, as long as the two draw fewer than 2^32 names: from any first name,
for any kind and settings, and whatever is reported. -/
theorem Template.rewrite_nodup {src : Text} {kind : ContentKind} {ids ids' : IdSource}
    {t : Template} (config : Config) (h : Template.read src kind ids = .ok (t, ids'))
    (hfew : Template.draws src ids + t.rewriteDraws config ids' < 2 ^ 32) :
    ((t.rewrite config ids').result.id :: treeNames (t.rewrite config ids').result.nodes).Nodup
      ∧ (t.rewrite config ids').ids
        = ids.after (Template.draws src ids + t.rewriteDraws config ids') := by
  obtain ⟨hnames, hids⟩ := Template.names_sublist h
  -- what reading named comes first, and then what is drawn
  have hread : Drawn ids 0 (Template.draws src ids) ids' (idBag t.nodes + {t.id}) := by
    refine ⟨?_, hids⟩
    have hle := Multiset.coe_le.mpr hnames.subperm
    rw [← Multiset.coe_add] at hle
    rwa [zero_add]
  have hrewrite := (t.rewrite_draws config ids').frame {t.id}
  rw [← add_zero (idBag t.nodes + {t.id})] at hrewrite
  have hboth := hread.trans hrewrite
  rw [add_zero] at hboth
  refine ⟨?_, hboth.ids⟩
  have hnodup := hboth.nodup hfew.le
  rw [add_comm, Multiset.singleton_add] at hnodup
  exact Multiset.coe_nodup.mp hnodup

/-- A source with a tag, an attribute, a call and control flow, whose first name is the last of all:
the names start over. -/
theorem Template.rewrite_nodup_startOver :
    ∃ (src : Text) (t : Template) (ids' : IdSource),
      src = "<a b=\"x\">\x7bcall .c\x7d\x7bparam p\x7d<i>\x7b/param\x7d\x7b/call\x7d\x7bif $d\x7dy\x7b/if\x7d".toList
      ∧ Template.read src .html (.startingAt 4294967295) = .ok (t, ids')
      ∧ Template.draws src (.startingAt 4294967295) + t.rewriteDraws {} ids' < 2 ^ 32
      ∧ ((t.rewrite {} ids').result.id :: treeNames (t.rewrite {} ids').result.nodes).Nodup
      ∧ (t.rewrite {} ids').ids = IdSource.after (.startingAt 4294967295)
        (Template.draws src (.startingAt 4294967295) + t.rewriteDraws {} ids') := by
  obtain ⟨⟨t, ids'⟩, hread, hcheck⟩ := exists_ok_of_any
    (r := Template.read "<a b=\"x\">\x7bcall .c\x7d\x7bparam p\x7d<i>\x7b/param\x7d\x7b/call\x7d\x7bif $d\x7dy\x7b/if\x7d".toList
      .html (.startingAt 4294967295)) (p := fun r => decide (Template.draws
        "<a b=\"x\">\x7bcall .c\x7d\x7bparam p\x7d<i>\x7b/param\x7d\x7b/call\x7d\x7bif $d\x7dy\x7b/if\x7d".toList
        (.startingAt 4294967295) + r.1.rewriteDraws {} r.2 < 2 ^ 32)) (by decide +kernel)
  have hfew := of_decide_eq_true hcheck
  exact ⟨_, t, ids', rfl, hread, hfew, Template.rewrite_nodup {} hread hfew⟩

end TemplateMarkup
