/-
# How deep control flow may be nested

The limit to the depth of control flow decides one thing only: whether control flow that is met is
entered.  Two limits that leave room for all the control flow of a template give the same run
(`AnyLimit`).  Under any limit, what is nested deeper is handed on as it stands, in the context in
which it was met, and reported; nothing else is reported of it, and of nothing else is this reported
(`Ledger.Meets`).
-/
import TemplateMarkup.Proofs.Html.Course
import TemplateMarkup.Proofs.Html.Seamless

namespace TemplateMarkup

/-! ## 1. Limits with room -/

/-- Ledgers of runs with different limits, neither of which has been reached. -/
structure Ledger.AnyLimit (l l' : Ledger) : Prop where
  joins : l.config.joinText = l'.config.joinText
  ids : l.ids = l'.ids
  depth : l.depth = l'.depth
  diagnostics : l.diagnostics = l'.diagnostics
  stats : l.stats = l'.stats
  shallow : ∀ d ∈ l.diagnostics, d.fault.isTooDeep = false

namespace Ledger.AnyLimit

variable {l l' : Ledger}

/-- The same is counted in both. -/
theorem count (h : l.AnyLimit l') (f : Stats → Stats) :
    ({ l with stats := f l.stats } : Ledger).AnyLimit { l' with stats := f l'.stats } :=
  { h with stats := congrArg f h.stats }

theorem report (h : l.AnyLimit l') (s : Span) {fault : Fault} (hf : fault.isTooDeep = false) :
    (l.report s fault).AnyLimit (l'.report s fault) where
  joins := h.joins
  ids := h.ids
  depth := h.depth
  diagnostics := congrArg (List.cons _) h.diagnostics
  stats := congrArg (fun t : Stats => { t with errors := Count.add t.errors 1 }) h.stats
  shallow := List.forall_mem_cons.mpr ⟨hf, h.shallow⟩

end Ledger.AnyLimit

/-- Runs with limits that are never reached. -/
def anyLimit : Course where
  rel := Ledger.AnyLimit
  next h := congrArg IdSource.next h.ids
  drawn h := { h with ids := congrArg IdSource.rest h.ids }
  drawnForHtml h :=
    { h.count fun t => { t with structuralNodes := Count.add t.structuralNodes 1 } with
      ids := congrArg IdSource.rest h.ids }
  countRun h := h.count fun t => { t with rawTextRuns := Count.add t.rawTextRuns 1 }
  countChange h := h.count fun t => { t with contextChanges := Count.add t.contextChanges 1 }
  report hf h hs := by
    obtain rfl := Span.eq_of_bounds hs.start hs.stop
    exact h.report _ hf
  deep := False
  joins := Ledger.AnyLimit.joins
  depth := Ledger.AnyLimit.depth
  setDepth _ h := { h with depth := rfl }
  countBlock h := h.count fun t => { t with blocks := Count.add t.blocks 1 }
  countBranch h := h.count fun t => { t with branches := Count.add t.branches 1 }
  tooDeep _ _ h := h.elim

/-! ## 2. What is reported of control flow that is too deep -/

/-- What is reported of a portion, for a run that enters control flow `limit` levels deep. -/
def Portion.report? (limit : Nat) : Portion → Option Diagnostic
  | .built _ => none
  | .left f => some ⟨f.location, .controlFlowTooDeep limit⟩

/-- The reports of control flow that is nested too deep, the latest first. -/
def Ledger.deepReports (l : Ledger) : List Diagnostic :=
  l.diagnostics.filter fun d => d.fault.isTooDeep

/-- From the first ledger to the second exactly these portions are met: those that are left as they
are are reported, in order, and no other control flow is reported as too deep. -/
structure Ledger.Meets (l : Ledger) (ps : List Portion) (l' : Ledger) : Prop where
  config : l'.config = l.config
  depth : l'.depth = l.depth
  reports : l'.deepReports
    = (ps.filterMap (Portion.report? l.config.maxDepth)).reverse ++ l.deepReports

namespace Ledger.Meets

variable {l l' l'' : Ledger} {ps qs : List Portion} {nodes : List Node}

theorem room (h : l.Meets ps l') : l'.room = l.room := by
  rw [Ledger.room, Ledger.room, h.config, h.depth]

theorem refl (l : Ledger) : l.Meets [] l := ⟨rfl, rfl, rfl⟩

theorem trans (h : l.Meets ps l') (h' : l'.Meets qs l'') : l.Meets (ps ++ qs) l'' where
  config := h'.config.trans h.config
  depth := h'.depth.trans h.depth
  reports := by
    rw [h'.reports, h.reports, h.config, List.filterMap_append, List.reverse_append,
      List.append_assoc]

/-- Nothing is met in a step before the others. -/
theorem nothing_then (h : l.Meets [] l') (h' : l'.Meets ps l'') : l.Meets ps l'' := h.trans h'

/-- Nor in a step behind them. -/
theorem then_nothing (h : l.Meets ps l') (h' : l'.Meets [] l'') : l.Meets ps l'' := by
  have := h.trans h'
  rwa [List.append_nil] at this

/-- What is put together is met without a report. -/
theorem built (h : l.Meets ps l') : l.Meets (.built nodes :: ps) l' :=
  ⟨h.config, h.depth, h.reports⟩

end Ledger.Meets

/-- Ledgers of one run, to which no report of control flow that is too deep has been added. -/
def shallow (reports : List Diagnostic) : exactLikeness.Ledgers where
  rel l l' := l = l' ∧ l.deepReports = reports
  next h := congrArg (fun l : Ledger => l.ids.next) h.1
  drawn h := ⟨congrArg _ h.1, h.2⟩
  drawnForHtml h := ⟨congrArg _ h.1, h.2⟩
  countRun h := ⟨congrArg _ h.1, h.2⟩
  countChange h := ⟨congrArg _ h.1, h.2⟩
  report {l l' s s' fault} hf h hs := by
    obtain ⟨rfl, hreports⟩ := h
    obtain rfl := Span.eq_of_bounds hs.start hs.stop
    refine ⟨rfl, ?_⟩
    rw [← hreports, Ledger.deepReports, Ledger.report, List.filter_cons_of_neg (by simp [hf])]
    rfl

namespace Assembly

variable (b : Assembly)

/-- The assembly, as one in which nothing is too deep from here on. -/
theorem like_shallow : b.Like (shallow b.ledger.deepReports) b := b.like_refl ⟨rfl, rfl⟩

/-- What adds no report of control flow that is too deep meets nothing. -/
theorem Extends.meets {b b' : Assembly} (h : b.Extends b')
    (hl : b'.Like (shallow b.ledger.deepReports) b') : b.ledger.Meets [] b'.ledger :=
  ⟨h.ledger.config, h.ledger.depth, hl.ledger.2⟩

theorem meets_readCollected (run : Option RawRun) :
    b.ledger.Meets [] (b.readCollected run).ledger :=
  (b.extends_readCollected run).meets (b.like_shallow.readCollected (collects_refl run))

theorem meets_collect (run : Option RawRun) (text : Text) (location : Span) :
    b.ledger.Meets [] (b.collect run text location).1.ledger :=
  (b.extends_collect run text location).meets
    (b.like_shallow.collect rfl run (collects_refl run) text location).1

theorem meets_place (n : Node) : b.ledger.Meets [] (b.place n).ledger :=
  (b.extends_place n).meets (b.like_shallow.place rfl)

theorem meets_settle (location : Span) : b.ledger.Meets [] (b.settle location).ledger :=
  (b.extends_settle location).meets (b.like_shallow.settle ⟨rfl, rfl⟩)

theorem meets_placeFlow (f : Flow) (exit : Context) :
    b.ledger.Meets [] (b.placeFlow f exit).ledger :=
  (b.extends_placeFlow f exit).meets (b.like_shallow.placeFlow rfl exit)

theorem meets_endBranch : b.ledger.Meets [] b.endBranch.ledger :=
  b.extends_endBranch.meets b.like_shallow.endBranch

theorem meets_endBlock (block : BlockKind) : b.ledger.Meets [] (b.endBlock block).ledger :=
  (b.extends_endBlock block).meets (b.like_shallow.endBlock block)

end Assembly

theorem meets_reconcile (l : Ledger) (location : Span) (head : FlowHead) (entry : Context)
    (exits : Exits) : l.Meets [] (reconcile l location head entry exits).2 where
  config := (reconcile_extends l location head entry exits).config
  depth := (reconcile_extends l location head entry exits).depth
  reports := (reconcile_like (L := shallow l.deepReports) (l := l) ⟨rfl, rfl⟩ (s := location)
    ⟨rfl, rfl⟩ head entry exits).2.2

/-- Control flow that is too deep is left, and reported. -/
theorem meets_report (l : Ledger) (f : Flow) :
    l.Meets [.left f] (l.report f.location (.controlFlowTooDeep l.config.maxDepth)) :=
  ⟨rfl, rfl, rfl⟩

/-! ## 3. The pass -/

mutual

/-- **Every portion is met once, in order.** -/
theorem feedNodes_meets : ∀ (nodes : List Node) (b : Assembly) (run : Option RawRun),
    AllWritten nodes →
    b.ledger.Meets (portions b.ledger.room true nodes) (feedNodes b run nodes).ledger
  | [], b, run, _ => by
    rw [feedNodes, portions]
    exact b.meets_readCollected run
  | n :: nodes, b, run, hw => by
    obtain ⟨hn, hnodes⟩ := written_cons.mp hw
    rw [portions, feedNodes]
    cases ht : n.rawText? with
    | some text =>
      obtain ⟨id, s, rfl⟩ := Node.eq_raw_of_rawText? ht
      have hcollect := b.meets_collect run text s
      have hrest := feedNodes_meets nodes (b.collect run text s).1 (some (b.collect run text s).2)
        hnodes
      rw [hcollect.room] at hrest
      rw [Node.portions]
      · exact hcollect.nothing_then hrest
      all_goals simp
    | none =>
      have hread := b.meets_readCollected run
      have hnode := feedNode_meets n (b.readCollected run) hn
      have hrest := feedNodes_meets nodes (feedNode (b.readCollected run) n) none hnodes
      rw [hnode.room, hread.room] at hrest
      rw [hread.room] at hnode
      exact (hread.nothing_then hnode).trans hrest

theorem feedNode_meets : ∀ (n : Node) (b : Assembly), (∀ m ∈ n.walk, m.isWritten = true) →
    b.ledger.Meets (n.portions b.ledger.room true) (feedNode b n).ledger
  | .call id location callee params, b, hw => by
    have hparams := rewriteParams_meets params b.ledger
      (fun m hm => hw m (by rw [Node.walk]; exact List.mem_cons_of_mem _ hm))
    rw [feedNode, Node.portions]
    exact hparams.then_nothing (Assembly.meets_place
      { b with ledger := (rewriteParams b.ledger params).2 } _)
  | .binding id location var value, b, hw => by
    have hvalue := rewriteValue_meets value b.ledger .letContent location
      (fun m hm => hw m (by rw [Node.walk]; exact List.mem_cons_of_mem _ hm))
    rw [feedNode, Node.portions]
    exact hvalue.then_nothing (Assembly.meets_place
      { b with ledger := (rewriteValue b.ledger .letContent location value).2 } _)
  | .flow flow, b, hw => by
    have hsettle := b.meets_settle flow.location
    have hflow := rewriteFlow_meets flow (b.settle flow.location).ledger
      (b.settle flow.location).context
      (fun m hm => hw m (by rw [Node.walk]; exact List.mem_cons_of_mem _ hm))
    rw [hsettle.room] at hflow
    rw [feedNode, Node.portions]
    have hplace := Assembly.meets_placeFlow { b.settle flow.location with
      ledger := (rewriteFlow (b.settle flow.location).ledger (b.settle flow.location).context
        flow).2.2 }
    exact (hsettle.nothing_then hflow).then_nothing (hplace _ _)
  | .print id location expr, b, _ => by
    rw [feedNode, Node.portions]
    · exact b.meets_place _
    all_goals simp
  | .raw id location text, b, _ => by
    rw [feedNode, Node.portions]
    · exact b.meets_place _
    all_goals simp
  | .openTag id s name children selfClosing, _, hw => nomatch hw _ (Node.mem_walk _)
  | .closeTag id s name, _, hw => nomatch hw _ (Node.mem_walk _)
  | .attr id s name value, _, hw => nomatch hw _ (Node.mem_walk _)
  | .attrValue id s quotes children, _, hw => nomatch hw _ (Node.mem_walk _)
  | .comment id s children, _, hw => nomatch hw _ (Node.mem_walk _)

theorem rewriteFlow_meets : ∀ (flow : Flow) (l : Ledger) (entry : Context),
    (∀ m ∈ flow.walk, m.isWritten = true) →
    l.Meets (flow.portions l.room true) (rewriteFlow l entry flow).2.2
  | ⟨id, location, head, branches⟩, l, entry, hw => by
    rw [Flow.walk] at hw
    rw [rewriteFlow]
    dsimp only
    split
    · next hd =>
      rw [Flow.portions_of_deep hd]
      exact meets_report l ⟨id, location, head, branches⟩
    · next hd =>
      rw [Flow.portions_of_room hd]
      have hbranches := rewriteBranches_meets branches { l with depth := l.depth + 1 } entry
        location.start hw
      have hinner : l.Meets (branchesPortions ({ l with depth := l.depth + 1 } : Ledger).room true
          branches) { (rewriteBranches { l with depth := l.depth + 1 } entry location.start
            branches).2.2 with depth := l.depth } :=
        ⟨hbranches.config, rfl, hbranches.reports⟩
      exact hinner.then_nothing (meets_reconcile ..)

theorem rewriteBranches_meets : ∀ (branches : List Branch) (l : Ledger) (entry : Context)
    (offset : Nat), WrittenBranches branches →
    l.Meets (branchesPortions l.room true branches) (rewriteBranches l entry offset branches).2.2
  | [], l, entry, offset, _ => by
    rw [rewriteBranches, branchesPortions]
    exact .refl l
  | branch :: branches, l, entry, offset, hw => by
    rw [WrittenBranches, walkBranches, List.forall_mem_append] at hw
    have hbranch := rewriteBranch_meets branch l entry offset hw.1
    have hbranches := rewriteBranches_meets branches (rewriteBranch l entry offset branch).2.2 entry
      offset hw.2
    rw [hbranch.room] at hbranches
    rw [rewriteBranches, branchesPortions]
    exact hbranch.trans hbranches

theorem rewriteBranch_meets : ∀ (branch : Branch) (l : Ledger) (entry : Context) (offset : Nat),
    (∀ m ∈ branch.walk, m.isWritten = true) →
    l.Meets (branch.portions l.room true) (rewriteBranch l entry offset branch).2.2
  | ⟨id, kind, nodes⟩, l, entry, offset, hw => by
    rw [Branch.walk] at hw
    have hfed := feedNodes_meets nodes (.start l.countBranch entry true offset) none hw
    have hend := hfed.then_nothing (Assembly.meets_endBranch _)
    rw [rewriteBranch, Branch.portions, if_pos rfl, List.singleton_append]
    exact Ledger.Meets.built ⟨hend.config, hend.depth, hend.reports⟩

theorem rewriteParams_meets : ∀ (params : List Param) (l : Ledger), WrittenParams params →
    l.Meets (paramsPortions l.room params) (rewriteParams l params).2
  | [], l, _ => by
    rw [rewriteParams, paramsPortions]
    exact .refl l
  | p :: params, l, hw => by
    rw [WrittenParams, walkParams, List.forall_mem_append] at hw
    have hp := rewriteParam_meets p l hw.1
    have hparams := rewriteParams_meets params (rewriteParam l p).2 hw.2
    rw [hp.room] at hparams
    rw [rewriteParams, paramsPortions]
    exact hp.trans hparams

theorem rewriteParam_meets : ∀ (p : Param) (l : Ledger), (∀ m ∈ p.walk, m.isWritten = true) →
    l.Meets (p.portions l.room) (rewriteParam l p).2
  | ⟨id, location, name, value⟩, l, hw => by
    rw [Param.walk] at hw
    rw [rewriteParam, Param.portions]
    exact rewriteValue_meets value l .paramContent location hw

theorem rewriteValue_meets : ∀ (value : Value) (l : Ledger) (block : BlockKind) (location : Span),
    (∀ m ∈ value.walk, m.isWritten = true) →
    l.Meets (value.portions l.room) (rewriteValue l block location value).2
  | .expr expr, l, block, location, _ => by
    rw [rewriteValue, Value.portions]
    exact .refl l
  | .content kind nodes, l, block, location, hw => by
    rw [Value.walk] at hw
    rw [rewriteValue, Value.portions]
    cases Context.entry? (declaredOrHtml kind) with
    | some entry =>
      have hfed := feedNodes_meets nodes (.start l.countBlock entry false location.start) none hw
      have hend := hfed.then_nothing (Assembly.meets_endBlock _ block)
      exact Ledger.Meets.built ⟨hend.config, hend.depth, hend.reports⟩
    | none =>
      have hnodes := enterNodes_meets nodes l.countBlock hw
      exact ⟨hnodes.config, hnodes.depth, hnodes.reports⟩

theorem enterNodes_meets : ∀ (nodes : List Node) (l : Ledger), AllWritten nodes →
    l.Meets (portions l.room false nodes) (enterNodes l nodes).2
  | [], l, _ => by
    rw [enterNodes, portions]
    exact .refl l
  | n :: nodes, l, hw => by
    obtain ⟨hn, hnodes⟩ := written_cons.mp hw
    have hfirst := enterNode_meets n l hn
    have hlater := enterNodes_meets nodes (enterNode l n).2 hnodes
    rw [hfirst.room] at hlater
    rw [enterNodes, portions]
    exact hfirst.trans hlater

theorem enterNode_meets : ∀ (n : Node) (l : Ledger), (∀ m ∈ n.walk, m.isWritten = true) →
    l.Meets (n.portions l.room false) (enterNode l n).2
  | .call id location callee params, l, hw => by
    rw [enterNode, Node.portions]
    exact rewriteParams_meets params l
      (fun m hm => hw m (by rw [Node.walk]; exact List.mem_cons_of_mem _ hm))
  | .binding id location var value, l, hw => by
    rw [enterNode, Node.portions]
    exact rewriteValue_meets value l .letContent location
      (fun m hm => hw m (by rw [Node.walk]; exact List.mem_cons_of_mem _ hm))
  | .flow flow, l, hw => by
    rw [enterNode, Node.portions]
    exact enterFlow_meets flow l
      (fun m hm => hw m (by rw [Node.walk]; exact List.mem_cons_of_mem _ hm))
  | .raw .., l, _ | .print .., l, _ => by
    rw [enterNode, Node.portions]
    · exact .refl l
    all_goals simp
  | .openTag id s name children selfClosing, _, hw => nomatch hw _ (Node.mem_walk _)
  | .closeTag id s name, _, hw => nomatch hw _ (Node.mem_walk _)
  | .attr id s name value, _, hw => nomatch hw _ (Node.mem_walk _)
  | .attrValue id s quotes children, _, hw => nomatch hw _ (Node.mem_walk _)
  | .comment id s children, _, hw => nomatch hw _ (Node.mem_walk _)

theorem enterFlow_meets : ∀ (flow : Flow) (l : Ledger), (∀ m ∈ flow.walk, m.isWritten = true) →
    l.Meets (flow.portions l.room false) (enterFlow l flow).2
  | ⟨id, location, head, branches⟩, l, hw => by
    rw [Flow.walk] at hw
    rw [enterFlow, Flow.portions]
    exact enterBranches_meets branches l hw

theorem enterBranches_meets : ∀ (branches : List Branch) (l : Ledger), WrittenBranches branches →
    l.Meets (branchesPortions l.room false branches) (enterBranches l branches).2
  | [], l, _ => by
    rw [enterBranches, branchesPortions]
    exact .refl l
  | branch :: branches, l, hw => by
    rw [WrittenBranches, walkBranches, List.forall_mem_append] at hw
    have hfirst := enterBranch_meets branch l hw.1
    have hlater := enterBranches_meets branches (enterBranch l branch).2 hw.2
    rw [hfirst.room] at hlater
    rw [enterBranches, branchesPortions]
    exact hfirst.trans hlater

theorem enterBranch_meets : ∀ (branch : Branch) (l : Ledger),
    (∀ m ∈ branch.walk, m.isWritten = true) →
    l.Meets (branch.portions l.room false) (enterBranch l branch).2
  | ⟨id, kind, nodes⟩, l, hw => by
    rw [Branch.walk] at hw
    rw [enterBranch, Branch.portions, if_neg Bool.false_ne_true, List.nil_append]
    exact enterNodes_meets nodes l hw

end

/-! ## 4. Control flow that is left -/

/-- Placed control flow leads where it is said to lead. -/
theorem Assembly.placeFlow_context (b : Assembly) (f : Flow) (exit : Context) :
    (b.placeFlow f exit).context = exit := by
  unfold Assembly.placeFlow
  split
  · split
    · next h => rw [fillSlot, enter_context, h]
    · rw [enter_context]
  · rw [enter_context]
  · rw [enter_context]

/-- **Control flow that is too deep is placed as it stands**, in the context in which it was met,
which the run goes on in; one report is made of it. -/
theorem feedNode_of_deep {b : Assembly} {f : Flow}
    (h : b.ledger.depth ≥ b.ledger.config.maxDepth) :
    feedNode b (.flow f) = (((b.settle f.location).report f.location
        (.controlFlowTooDeep b.ledger.config.maxDepth)).placeFlow f
          (b.settle f.location).context).reach f.location.stop
      ∧ (feedNode b (.flow f)).context = (b.settle f.location).context := by
  have hsettle := (b.extends_settle f.location).ledger
  have hflow : rewriteFlow (b.settle f.location).ledger (b.settle f.location).context f
      = (f, (b.settle f.location).context, (b.settle f.location).ledger.report f.location
        (.controlFlowTooDeep b.ledger.config.maxDepth)) := by
    obtain ⟨id, location, head, branches⟩ := f
    rw [rewriteFlow, hsettle.config, hsettle.depth, if_pos h]
  have hfeed : feedNode b (.flow f) = (((b.settle f.location).report f.location
      (.controlFlowTooDeep b.ledger.config.maxDepth)).placeFlow f
        (b.settle f.location).context).reach f.location.stop := by
    rw [feedNode, hflow]
    rfl
  refine ⟨hfeed, ?_⟩
  rw [hfeed]
  exact Assembly.placeFlow_context ..

/-! ## 5. Templates -/

/-- What is left comes from these portions. -/
def leftStandard (ps : List Portion) : Standard where
  good p := ∀ f, p = .left f → .left f ∈ ps
  built _ _ := nofun

theorem rewriteValue_anyLimit (value : Value) {l l' : Ledger} (h : l.AnyLimit l')
    (hroom : l.depth + value.nesting ≤ l.config.maxDepth)
    (hroom' : l'.depth + value.nesting ≤ l'.config.maxDepth) (block : BlockKind) (location : Span) :
    (rewriteValue l block location value).1 = (rewriteValue l' block location value).1
      ∧ (rewriteValue l block location value).2.AnyLimit (rewriteValue l' block location value).2 :=
  rewriteValue_course (C := anyLimit) value h (.inr ⟨hroom, hroom'⟩) block location

end TemplateMarkup
