/-
# Text that is read piece by piece

Adjacent raw text is read as one, or piece by piece.  Where the text up to each seam of two pieces
ends clear (`seamsClear`), the two passes keep in step: what has been collected as one is what has
been read of the pieces so far, and the piece that is read next (`Assembly.Pieces`).  They give the
same tree but for names and places, report the same faults in the same order, and count the same but
for the runs (`Template.rewrite_piecewise`).
-/
import TemplateMarkup.Proofs.Html.Cutting
import TemplateMarkup.Proofs.Html.Resumed
import TemplateMarkup.Proofs.Template.Written

namespace TemplateMarkup

/-! ## 1. Seams -/

mutual

/-- At every seam of two pieces of raw text in the node, the text up to there ends clear. -/
def Node.seamsClear : Node → Bool
  | .call _ _ _ params => paramsSeamsClear params
  | .binding _ _ _ value => value.seamsClear
  | .flow f => f.seamsClear
  | _ => true

/-- At every seam in the nodes, and at the one between the text `before` and a piece at their start,
the text up to there ends clear. -/
def seamsClear (before : Text) : List Node → Bool
  | [] => true
  | n :: nodes =>
    match n.rawText? with
    | some t => before.endsClear && seamsClear (before ++ t) nodes
    | none => n.seamsClear && seamsClear [] nodes

/-- At every seam in the value, the text up to there ends clear. -/
def Value.seamsClear : Value → Bool
  | .expr _ => true
  | .content _ nodes => TemplateMarkup.seamsClear [] nodes

/-- At every seam in the parameters, the text up to there ends clear. -/
def paramsSeamsClear : List Param → Bool
  | [] => true
  | p :: params => p.seamsClear && paramsSeamsClear params

/-- At every seam in the parameter, the text up to there ends clear. -/
def Param.seamsClear : Param → Bool
  | ⟨_, _, _, value⟩ => value.seamsClear

/-- At every seam in the control flow, the text up to there ends clear. -/
def Flow.seamsClear : Flow → Bool
  | ⟨_, _, _, branches⟩ => branchesSeamsClear branches

/-- At every seam in the branches, the text up to there ends clear. -/
def branchesSeamsClear : List Branch → Bool
  | [] => true
  | branch :: branches => branch.seamsClear && branchesSeamsClear branches

/-- At every seam in the branch, the text up to there ends clear. -/
def Branch.seamsClear : Branch → Bool
  | ⟨_, _, nodes⟩ => TemplateMarkup.seamsClear [] nodes

end

/-- A node and the nodes behind it, after whatever text. -/
theorem seamsClear_cons {before : Text} {n : Node} {nodes : List Node}
    (h : seamsClear before (n :: nodes) = true) :
    n.seamsClear = true ∧ ∃ later, seamsClear later nodes = true := by
  rw [seamsClear] at h
  cases ht : n.rawText? with
  | some t =>
    rw [ht] at h
    obtain ⟨id, s, rfl⟩ := Node.eq_raw_of_rawText? ht
    refine ⟨?_, before ++ t, (Bool.and_eq_true_iff.mp h).2⟩
    rw [Node.seamsClear]
    all_goals simp
  | none =>
    rw [ht] at h
    exact ⟨(Bool.and_eq_true_iff.mp h).1, [], (Bool.and_eq_true_iff.mp h).2⟩

/-! ## 2. Pieces -/

/-- Settings that differ in one thing: adjacent text is read as one, or piece by piece. -/
structure Config.Cut (c c' : Config) : Prop where
  joined : c.joinText = true
  apart : c'.joinText = false
  maxDepth : c.maxDepth = c'.maxDepth

namespace Ledger.Tallies

variable {c c' : Config} {l l' : Ledger}

theorem countBlock (h : l.Tallies c c' l') : l.countBlock.Tallies c c' l'.countBlock :=
  ⟨h.config_left, h.config_right, h.depth, h.faults,
    congrArg (fun s : Stats => { s with blocks := Count.add s.blocks 1 }) h.stats⟩

theorem countBranch (h : l.Tallies c c' l') : l.countBranch.Tallies c c' l'.countBranch :=
  ⟨h.config_left, h.config_right, h.depth, h.faults,
    congrArg (fun s : Stats => { s with branches := Count.add s.branches 1 }) h.stats⟩

theorem setDepth (h : l.Tallies c c' l') (depth : Nat) :
    ({ l with depth := depth } : Ledger).Tallies c c' { l' with depth := depth } :=
  { h with depth := rfl }

end Ledger.Tallies

namespace Assembly

section Pieces

variable {c c' : Config} {b b' : Assembly} {run run' : Option RawRun}

/-- The run `run` that is collected in one is what `b'` has already read of its pieces, and the piece
`run'` that it reads next. -/
inductive Pieces (c c' : Config) (b b' : Assembly) : Option RawRun → Option RawRun → Prop
  | nothing (h : b.Tallies c c' b') : Pieces c c' b b' none none
  | piece {done whole piece : RawRun} (h : (b.readRun done).Tallies c c' b')
      (hclear : done.text.endsClear = true) (hwhole : whole.text = done.text ++ piece.text) :
      Pieces c c' b b' (some whole) (some piece)

/-- A run without text changes nothing but a count and a place. -/
theorem readRun_tallies_self (hb : b.ledger.config = c) {r : RawRun} (hr : r.text = []) :
    (b.readRun r).Tallies c c b := by
  unfold readRun
  dsimp only
  rw [hr, Assembly.read]
  exact { tallies_refl hb with ledger := ⟨hb, hb, rfl, rfl, rfl⟩, offset := trivial }

/-- Both have read the same once the last piece is read. -/
theorem Pieces.readCollected (h : Pieces c c' b b' run run') :
    (b.readCollected run).Tallies c c' (b'.readCollected run') := by
  cases h with
  | nothing h => exact h
  | @piece done whole piece h hclear hwhole =>
    have hb : b.ledger.config = c := (b.extends_readRun done).ledger.config.symm.trans
      h.ledger.config_left
    have hone := readRun_append (tallies_refl hb) hclear hwhole
    exact hone.symm.trans (Like.readRun h ⟨rfl, anyRuns _ _ _ _⟩)

/-- One more piece: the one collects it, the other reads the piece before it. -/
theorem Pieces.collect (h : Pieces c c' b b' run run') (hc : c.Cut c')
    (hclear : (collectedText run).endsClear = true) (t : Text) (s : Span) :
    Pieces c c' (b.collect run t s).1 (b'.collect run' t s).1 (some (b.collect run t s).2)
        (some (b'.collect run' t s).2)
      ∧ collectedText (some (b.collect run t s).2) = collectedText run ++ t := by
  have hconfig : b.ledger.config = c ∧ b'.ledger.config = c' := by
    cases h with
    | nothing h => exact ⟨h.ledger.config_left, h.ledger.config_right⟩
    | @piece done whole piece h _ _ =>
      exact ⟨(b.extends_readRun done).ledger.config.symm.trans h.ledger.config_left,
        h.ledger.config_right⟩
  have hj : b.ledger.config.joinText = true := by rw [hconfig.1, hc.joined]
  obtain ⟨hb, htext⟩ := b.collect_of_joinText hj run t s
  refine ⟨?_, htext⟩
  cases h with
  | nothing h =>
    have hempty : (RawRun.single [] s).text = [] := RawRun.text_single [] s
    have hdone : (b.readRun (.single [] s)).Tallies c c' b' :=
      (readRun_tallies_self hconfig.1 hempty).trans h
    rw [hb]
    refine .piece hdone ?_ ?_
    · rw [hempty]
      rfl
    · rw [htext, hempty]
      exact (RawRun.text_single t s).symm
  | @piece done whole piece h hdone hwhole =>
    have hj' : ¬ b'.ledger.config.joinText = true := by
      rw [hconfig.2, hc.apart]
      exact Bool.false_ne_true
    have hcollect : b'.collect (some piece) t s = (b'.readRun piece, .single t s) := by
      unfold collect
      exact if_neg hj'
    rw [hb, hcollect]
    refine .piece (Pieces.readCollected (.piece h hdone hwhole)) hclear ?_
    rw [htext, RawRun.text_single]
    rfl

end Pieces

end Assembly

/-! ## 3. The pass -/

section Pass

variable {c c' : Config}

mutual

/-- **Nodes are fed alike, whether their text is read as one or piece by piece.** -/
theorem feedNodes_piecewise (hc : c.Cut c') : ∀ (nodes : List Node) {b b' : Assembly}
    {run run' : Option RawRun}, Assembly.Pieces c c' b b' run run' →
    seamsClear (collectedText run) nodes = true →
    (feedNodes b run nodes).Tallies c c' (feedNodes b' run' nodes)
  | [], b, b', run, run', h, _ => by
    rw [feedNodes, feedNodes]
    exact h.readCollected
  | n :: nodes, b, b', run, run', h, hn => by
    rw [seamsClear] at hn
    cases ht : n.rawText? with
    | some t =>
      rw [ht] at hn
      obtain ⟨hclear, hlater⟩ := Bool.and_eq_true_iff.mp hn
      obtain ⟨hpieces, htext⟩ := h.collect hc hclear t n.location
      rw [feedNodes_cons_text ht, feedNodes_cons_text ht]
      exact feedNodes_piecewise hc nodes hpieces (by rw [htext]; exact hlater)
    | none =>
      rw [ht] at hn
      obtain ⟨hnode, hlater⟩ := Bool.and_eq_true_iff.mp hn
      rw [feedNodes_cons_node ht, feedNodes_cons_node ht]
      have hfed := feedNode_piecewise hc n h.readCollected hnode
      exact feedNodes_piecewise hc nodes (.nothing hfed) hlater

theorem feedNode_piecewise (hc : c.Cut c') : ∀ (n : Node) {b b' : Assembly}, b.Tallies c c' b' →
    n.seamsClear = true → (feedNode b n).Tallies c c' (feedNode b' n)
  | .call id s callee params, b, b', h, hn => by
    rw [Node.seamsClear] at hn
    obtain ⟨hparams, hl⟩ := rewriteParams_piecewise hc params h.ledger hn
    rw [feedNode, feedNode]
    refine Assembly.Like.reach (Assembly.Like.place (h.setLedger (M := tallying c c') hl) ?_) trivial
    show Node.bare _ = Node.bare _
    rw [Node.bare, Node.bare, hparams]
  | .binding id s var value, b, b', h, hn => by
    rw [Node.seamsClear] at hn
    obtain ⟨hvalue, hl⟩ := rewriteValue_piecewise hc value h.ledger .letContent s hn
    rw [feedNode, feedNode]
    refine Assembly.Like.reach (Assembly.Like.place (h.setLedger (M := tallying c c') hl) ?_) trivial
    show Node.bare _ = Node.bare _
    rw [Node.bare, Node.bare, hvalue]
  | .flow f, b, b', h, hn => by
    rw [Node.seamsClear] at hn
    have hset : (b.settle f.location).Tallies c c' (b'.settle f.location) :=
      h.settle (Assembly.anywhere _ _)
    obtain ⟨hflow, hexit, hl⟩ := rewriteFlow_piecewise hc f hset.ledger hn
      (b.settle f.location).context
    rw [feedNode, feedNode]
    refine Assembly.Like.reach ?_ trivial
    have hcontext := hset.context
    generalize b.settle f.location = x at *
    generalize b'.settle f.location = x' at *
    have hnode : bareLikeness.node (.flow (rewriteFlow x.ledger x.context f).1)
        (.flow (rewriteFlow x'.ledger x.context f).1) := by
      show Node.bare _ = Node.bare _
      rw [Node.bare, Node.bare, hflow]
    have hplace := (hset.setLedger (M := tallying c c') hl).placeFlow hnode
      (rewriteFlow x.ledger x.context f).2.1
    rwa [hexit, hcontext] at hplace ⊢
  | .attr id s name none, b, b', h, _ | .attr id s name (some value), b, b', h, _
  | .raw .., b, b', h, _ | .print .., b, b', h, _ | .openTag .., b, b', h, _
  | .closeTag .., b, b', h, _ | .attrValue .., b, b', h, _ | .comment .., b, b', h, _ => by
    rw [feedNode, feedNode]
    exact Assembly.Like.reach (Assembly.Like.place h rfl) trivial
    all_goals simp

theorem rewriteFlow_piecewise (hc : c.Cut c') : ∀ (f : Flow) {l l' : Ledger}, l.Tallies c c' l' →
    f.seamsClear = true → ∀ entry : Context,
    (rewriteFlow l entry f).1.bare = (rewriteFlow l' entry f).1.bare
      ∧ (rewriteFlow l entry f).2.1 = (rewriteFlow l' entry f).2.1
      ∧ (rewriteFlow l entry f).2.2.Tallies c c' (rewriteFlow l' entry f).2.2
  | ⟨id, s, head, branches⟩, l, l', h, hn, entry => by
    rw [Flow.seamsClear] at hn
    have hlimit : l.config.maxDepth = l'.config.maxDepth := by
      rw [h.config_left, h.config_right, hc.maxDepth]
    rw [rewriteFlow, rewriteFlow]
    dsimp only
    rw [hlimit, h.depth]
    split
    · exact ⟨rfl, rfl, h.report s s _⟩
    · obtain ⟨hb, hexits, hl⟩ := rewriteBranches_piecewise hc branches (h.setDepth (l'.depth + 1)) hn
        entry s.start
      generalize rewriteBranches { l with depth := l'.depth + 1 } entry s.start branches = r at *
      generalize rewriteBranches { l' with depth := l'.depth + 1 } entry s.start branches = r' at *
      obtain ⟨hexit, hl'⟩ := reconcile_like (L := tallying c c') (hl.setDepth l'.depth)
        (Assembly.anywhere s s) head entry r.2.1
      dsimp only
      rw [← hexits]
      exact ⟨by rw [Flow.bare, Flow.bare, hb], hexit, hl'⟩

theorem rewriteBranches_piecewise (hc : c.Cut c') : ∀ (branches : List Branch) {l l' : Ledger},
    l.Tallies c c' l' → branchesSeamsClear branches = true → ∀ (entry : Context) (o : Nat),
    bareBranches (rewriteBranches l entry o branches).1
        = bareBranches (rewriteBranches l' entry o branches).1
      ∧ (rewriteBranches l entry o branches).2.1 = (rewriteBranches l' entry o branches).2.1
      ∧ (rewriteBranches l entry o branches).2.2.Tallies c c'
        (rewriteBranches l' entry o branches).2.2
  | [], l, l', h, _, entry, o => by
    rw [rewriteBranches, rewriteBranches]
    exact ⟨rfl, rfl, h⟩
  | branch :: branches, l, l', h, hn, entry, o => by
    rw [branchesSeamsClear, Bool.and_eq_true] at hn
    obtain ⟨hb, hexit, hl⟩ := rewriteBranch_piecewise hc branch h hn.1 entry o
    obtain ⟨hbs, hexits, hl'⟩ := rewriteBranches_piecewise hc branches hl hn.2 entry o
    rw [rewriteBranches, rewriteBranches]
    dsimp only
    refine ⟨?_, ?_, hl'⟩
    · rw [bareBranches, bareBranches, hb, hbs]
    · have hkind : (rewriteBranch l entry o branch).1.kind
          = (rewriteBranch l' entry o branch).1.kind := by
        obtain ⟨id, kind, nodes⟩ := branch
        rw [rewriteBranch, rewriteBranch]
      rw [hkind, hexit, hexits]

theorem rewriteBranch_piecewise (hc : c.Cut c') : ∀ (branch : Branch) {l l' : Ledger},
    l.Tallies c c' l' →
    branch.seamsClear = true → ∀ (entry : Context) (o : Nat),
    (rewriteBranch l entry o branch).1.bare = (rewriteBranch l' entry o branch).1.bare
      ∧ (rewriteBranch l entry o branch).2.1 = (rewriteBranch l' entry o branch).2.1
      ∧ (rewriteBranch l entry o branch).2.2.Tallies c c' (rewriteBranch l' entry o branch).2.2
  | ⟨id, kind, nodes⟩, l, l', h, hn, entry, o => by
    rw [Branch.seamsClear] at hn
    have hstart : (Assembly.start l.countBranch entry true o).Tallies c c'
        (.start l'.countBranch entry true o) := .ofStart h.countBranch entry true trivial
    have hend := (feedNodes_piecewise hc nodes (.nothing hstart) hn).endBranch
    rw [rewriteBranch, rewriteBranch]
    refine ⟨?_, hend.context, hend.ledger⟩
    rw [Branch.bare, Branch.bare, bare_eq_iff.mpr hend.nodes]

theorem rewriteParams_piecewise (hc : c.Cut c') : ∀ (params : List Param) {l l' : Ledger},
    l.Tallies c c' l' →
    paramsSeamsClear params = true →
    bareParams (rewriteParams l params).1 = bareParams (rewriteParams l' params).1
      ∧ (rewriteParams l params).2.Tallies c c' (rewriteParams l' params).2
  | [], l, l', h, _ => by
    rw [rewriteParams, rewriteParams]
    exact ⟨rfl, h⟩
  | p :: params, l, l', h, hn => by
    rw [paramsSeamsClear, Bool.and_eq_true] at hn
    obtain ⟨hp, hl⟩ := rewriteParam_piecewise hc p h hn.1
    obtain ⟨hps, hl'⟩ := rewriteParams_piecewise hc params hl hn.2
    rw [rewriteParams, rewriteParams]
    exact ⟨by rw [bareParams, bareParams, hp, hps], hl'⟩

theorem rewriteParam_piecewise (hc : c.Cut c') : ∀ (p : Param) {l l' : Ledger}, l.Tallies c c' l' →
    p.seamsClear = true →
    (rewriteParam l p).1.bare = (rewriteParam l' p).1.bare
      ∧ (rewriteParam l p).2.Tallies c c' (rewriteParam l' p).2
  | ⟨id, s, name, value⟩, l, l', h, hn => by
    rw [Param.seamsClear] at hn
    obtain ⟨hvalue, hl⟩ := rewriteValue_piecewise hc value h .paramContent s hn
    rw [rewriteParam, rewriteParam]
    exact ⟨by rw [Param.bare, Param.bare, hvalue], hl⟩

theorem rewriteValue_piecewise (hc : c.Cut c') : ∀ (value : Value) {l l' : Ledger},
    l.Tallies c c' l' →
    ∀ (block : BlockKind) (s : Span), value.seamsClear = true →
    (rewriteValue l block s value).1.bare = (rewriteValue l' block s value).1.bare
      ∧ (rewriteValue l block s value).2.Tallies c c' (rewriteValue l' block s value).2
  | .expr e, l, l', h, block, s, _ => by
    rw [rewriteValue, rewriteValue]
    exact ⟨rfl, h⟩
  | .content kind nodes, l, l', h, block, s, hn => by
    rw [Value.seamsClear] at hn
    rw [rewriteValue, rewriteValue]
    dsimp only
    split
    · next entry _ =>
      have hstart : (Assembly.start l.countBlock entry false s.start).Tallies c c'
          (.start l'.countBlock entry false s.start) := .ofStart h.countBlock entry false trivial
      have hend := (feedNodes_piecewise hc nodes (.nothing hstart) hn).endBlock block
      exact ⟨by rw [Value.bare, Value.bare, bare_eq_iff.mpr hend.nodes], hend.ledger⟩
    · obtain ⟨hnodes, hl⟩ := enterNodes_piecewise hc nodes h.countBlock hn
      exact ⟨by rw [Value.bare, Value.bare, hnodes], hl⟩

theorem enterNodes_piecewise (hc : c.Cut c') : ∀ (nodes : List Node) {before : Text} {l l' : Ledger},
    l.Tallies c c' l' → seamsClear before nodes = true →
    bare (enterNodes l nodes).1 = bare (enterNodes l' nodes).1
      ∧ (enterNodes l nodes).2.Tallies c c' (enterNodes l' nodes).2
  | [], before, l, l', h, _ => by
    rw [enterNodes, enterNodes]
    exact ⟨rfl, h⟩
  | n :: nodes, before, l, l', h, hn => by
    obtain ⟨hnode, later, hlater⟩ := seamsClear_cons hn
    obtain ⟨hb, hl⟩ := enterNode_piecewise hc n h hnode
    obtain ⟨hbs, hl'⟩ := enterNodes_piecewise hc nodes hl hlater
    rw [enterNodes, enterNodes]
    exact ⟨by rw [bare_cons, bare_cons, hb, hbs], hl'⟩

theorem enterNode_piecewise (hc : c.Cut c') : ∀ (n : Node) {l l' : Ledger}, l.Tallies c c' l' →
    n.seamsClear = true →
    (enterNode l n).1.bare = (enterNode l' n).1.bare
      ∧ (enterNode l n).2.Tallies c c' (enterNode l' n).2
  | .call id s callee params, l, l', h, hn => by
    rw [Node.seamsClear] at hn
    obtain ⟨hparams, hl⟩ := rewriteParams_piecewise hc params h hn
    rw [enterNode, enterNode]
    exact ⟨by rw [Node.bare, Node.bare, hparams], hl⟩
  | .binding id s var value, l, l', h, hn => by
    rw [Node.seamsClear] at hn
    obtain ⟨hvalue, hl⟩ := rewriteValue_piecewise hc value h .letContent s hn
    rw [enterNode, enterNode]
    exact ⟨by rw [Node.bare, Node.bare, hvalue], hl⟩
  | .flow f, l, l', h, hn => by
    rw [Node.seamsClear] at hn
    obtain ⟨hflow, hl⟩ := enterFlow_piecewise hc f h hn
    rw [enterNode, enterNode]
    exact ⟨by rw [Node.bare, Node.bare, hflow], hl⟩
  | .attr id s name none, l, l', h, _ | .attr id s name (some value), l, l', h, _
  | .raw .., l, l', h, _ | .print .., l, l', h, _ | .openTag .., l, l', h, _
  | .closeTag .., l, l', h, _ | .attrValue .., l, l', h, _ | .comment .., l, l', h, _ => by
    rw [enterNode, enterNode]
    exact ⟨rfl, h⟩
    all_goals simp

theorem enterFlow_piecewise (hc : c.Cut c') : ∀ (f : Flow) {l l' : Ledger}, l.Tallies c c' l' →
    f.seamsClear = true →
    (enterFlow l f).1.bare = (enterFlow l' f).1.bare
      ∧ (enterFlow l f).2.Tallies c c' (enterFlow l' f).2
  | ⟨id, s, head, branches⟩, l, l', h, hn => by
    rw [Flow.seamsClear] at hn
    obtain ⟨hb, hl⟩ := enterBranches_piecewise hc branches h hn
    rw [enterFlow, enterFlow]
    exact ⟨by rw [Flow.bare, Flow.bare, hb], hl⟩

theorem enterBranches_piecewise (hc : c.Cut c') : ∀ (branches : List Branch) {l l' : Ledger},
    l.Tallies c c' l' →
    branchesSeamsClear branches = true →
    bareBranches (enterBranches l branches).1 = bareBranches (enterBranches l' branches).1
      ∧ (enterBranches l branches).2.Tallies c c' (enterBranches l' branches).2
  | [], l, l', h, _ => by
    rw [enterBranches, enterBranches]
    exact ⟨rfl, h⟩
  | branch :: branches, l, l', h, hn => by
    rw [branchesSeamsClear, Bool.and_eq_true] at hn
    obtain ⟨hb, hl⟩ := enterBranch_piecewise hc branch h hn.1
    obtain ⟨hbs, hl'⟩ := enterBranches_piecewise hc branches hl hn.2
    rw [enterBranches, enterBranches]
    exact ⟨by rw [bareBranches, bareBranches, hb, hbs], hl'⟩

theorem enterBranch_piecewise (hc : c.Cut c') : ∀ (branch : Branch) {l l' : Ledger},
    l.Tallies c c' l' →
    branch.seamsClear = true →
    (enterBranch l branch).1.bare = (enterBranch l' branch).1.bare
      ∧ (enterBranch l branch).2.Tallies c c' (enterBranch l' branch).2
  | ⟨id, kind, nodes⟩, l, l', h, hn => by
    rw [Branch.seamsClear] at hn
    obtain ⟨hnodes, hl⟩ := enterNodes_piecewise hc nodes h hn
    rw [enterBranch, enterBranch]
    exact ⟨by rw [Branch.bare, Branch.bare, hnodes], hl⟩

end

end Pass

/-! ## 4. Templates -/

/-- **Whether adjacent raw text is read as one or piece by piece makes no difference** where the text
up to every seam ends clear: the tree is the same but for names and places, the same faults are
reported in the same order, and all counters but that of the runs are the same. -/
theorem Template.rewrite_piecewise {t : Template} (ht : seamsClear [] t.nodes = true)
    (config : Config) (ids ids' : IdSource) :
    let whole := t.rewrite { config with joinText := true } ids
    let pieces := t.rewrite { config with joinText := false } ids'
    bare whole.result.nodes = bare pieces.result.nodes
      ∧ whole.diagnostics.map Diagnostic.fault = pieces.diagnostics.map Diagnostic.fault
      ∧ whole.stats.withoutRuns = pieces.stats.withoutRuns := by
  have hcut : Config.Cut { config with joinText := true } { config with joinText := false } :=
    ⟨rfl, rfl, rfl⟩
  have hstart : (Ledger.start { config with joinText := true } ids).Tallies
      { config with joinText := true } { config with joinText := false }
      (.start { config with joinText := false } ids') := ⟨rfl, rfl, rfl, rfl, rfl⟩
  obtain ⟨hvalue, hl⟩ := rewriteValue_piecewise hcut (.content (some t.kind) t.nodes) hstart
    .template t.location (by rw [Value.seamsClear, ht])
  unfold Template.rewrite rewriteBlock
  dsimp only [Ledger.outcome]
  rw [Value.bare_nodes, Value.bare_nodes, hvalue, List.map_reverse, List.map_reverse, hl.faults]
  exact ⟨rfl, rfl, hl.stats⟩

/-- Spaces that were written as commands are seams, in content, in a value and in a branch. -/
theorem Template.rewrite_piecewise_spaces :
    ∃ t ids, Template.read ("<p class=\"one\x7bsp\x7dtwo\">three\x7bnil\x7dfour\x7bif $a\x7d<b>"
        ++ "\x7b$b\x7d\x7bsp\x7dis read</b>\x7b/if\x7d</p>").toList .html (.startingAt 1)
        = .ok (t, ids)
      ∧ seamsClear [] t.nodes = true
      ∧ (t.rewrite {} ids).stats.rawTextRuns = 4
      ∧ (t.rewrite { joinText := false } ids).stats.rawTextRuns = 8
      ∧ bare (t.rewrite {} ids).result.nodes
        = bare (t.rewrite { joinText := false } ids).result.nodes
      ∧ (t.rewrite {} ids).diagnostics.map Diagnostic.fault
        = (t.rewrite { joinText := false } ids).diagnostics.map Diagnostic.fault
      ∧ (t.rewrite {} ids).stats.withoutRuns
        = (t.rewrite { joinText := false } ids).stats.withoutRuns := by
  have hcheck : (Template.read ("<p class=\"one\x7bsp\x7dtwo\">three\x7bnil\x7dfour\x7bif $a\x7d<b>"
      ++ "\x7b$b\x7d\x7bsp\x7dis read</b>\x7b/if\x7d</p>").toList .html
      (.startingAt 1)).toOption.any (fun r => seamsClear [] r.1.nodes
        && (r.1.rewrite {} r.2).stats.rawTextRuns == 4
        && (r.1.rewrite { joinText := false } r.2).stats.rawTextRuns == 8) = true := by
    decide +kernel
  obtain ⟨⟨t, ids⟩, hread, hcheck⟩ := exists_ok_of_any hcheck
  simp only [Bool.and_eq_true, beq_iff_eq] at hcheck
  obtain ⟨⟨hclear, hwhole⟩, hpieces⟩ := hcheck
  exact ⟨t, ids, hread, hclear, hwhole, hpieces, Template.rewrite_piecewise hclear {} ids ids⟩

end TemplateMarkup
