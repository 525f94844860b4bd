/-
# Runs that do exactly the same

Two runs over the same nodes may begin with ledgers that differ in what was reported before, in
what has been counted, or in how deep control flow may be nested.  A `Course` says in what two
ledgers may differ; what it leaves open, no part of a run looks at.  The two runs then put together
the same nodes, with the same names, and their ledgers go on to differ in no more than that
(`rewriteValue_course`).  So a value that is rewritten in the middle of a run comes out as it would
at the start of one (`rewriteValue_afresh`).

How deep control flow may be nested is looked at where control flow is met.  So either it is the
same for both, or both have room for all the control flow that there is (`Course.Agree`).
-/
import TemplateMarkup.Proofs.Html.Frame
import TemplateMarkup.Proofs.Html.Likeness
import TemplateMarkup.Proofs.Tree.Joined

namespace TemplateMarkup

/-! ## 1. Ledgers of the same course -/

/-- Nodes are like themselves only. -/
def exactLikeness : Likeness where
  node := Eq
  place := Eq
  name := Eq
  place_max h h' := congrArg₂ Nat.max h h'
  place_min h h' := congrArg₂ Nat.min h h'
  named h := congrArg Node.id h
  text h := congrArg Node.rawText? h
  printing h := congrArg Node.isPrinting h
  valued h := congrArg Node.isAttrValue h
  after here _ _ h := congrArg (Assembly.contextAfter? here) h
  start h := congrArg (fun n => n.location.start) h
  stop h := congrArg (fun n => n.location.stop) h
  raw _ hid h h' := by rw [hid, Span.eq_of_bounds h h']
  openTag _ hid h h' hn hchildren := by
    rw [List.forall₂_eq_eq_eq] at hchildren
    rw [hid, Span.eq_of_bounds h h', hn, hchildren]
  closeTag hid h h' hn := by rw [hid, Span.eq_of_bounds h h', hn]
  attr hid h h' hn hvalue := by
    cases hvalue with
    | none => rw [hid, Span.eq_of_bounds h h', hn]
    | some hvalue => rw [hid, Span.eq_of_bounds h h', hn, hvalue]
  attrValue _ hid h h' hchildren := by
    rw [List.forall₂_eq_eq_eq] at hchildren
    rw [hid, Span.eq_of_bounds h h', hchildren]
  comment hid h h' hchildren := by
    rw [List.forall₂_eq_eq_eq] at hchildren
    rw [hid, Span.eq_of_bounds h h', hchildren]

theorem rel_refl {α : Type} {r : α → α → Prop} (h : ∀ a, r a a) (x : Option α) :
    Option.Rel r x x := by
  cases x with
  | none => exact .none
  | some a => exact .some (h a)

theorem collects_refl (run : Option RawRun) : Option.Rel exactLikeness.Collects run run :=
  rel_refl (fun _ => ⟨rfl, fun _ => rfl, fun _ => rfl⟩) run

theorem nodes_refl (nodes : List Node) : exactLikeness.Nodes nodes nodes := by
  rw [Likeness.Nodes, exactLikeness, List.forall₂_eq_eq_eq]

/-- An assembly is the same as itself, as far as its ledger is. -/
theorem Assembly.like_refl {L : exactLikeness.Ledgers} (b : Assembly)
    (h : L.rel b.ledger b.ledger) : b.Like L b where
  ledger := h
  entry := rfl
  context := rfl
  inBranch := rfl
  out := nodes_refl b.out
  tag := rel_refl (fun t =>
    ⟨rfl, rfl, rfl, ⟨rfl, rfl⟩, rel_refl (fun _ => rfl) _, nodes_refl _, rfl, rfl⟩) b.tag
  attr := rel_refl (fun a => ⟨rfl, rfl, ⟨rfl, rfl⟩, rel_refl (fun _ => rfl) _, rfl⟩) b.attr
  value := rel_refl (fun v => ⟨rfl, rfl, nodes_refl _⟩) b.value
  comment := rel_refl (fun c => ⟨rfl, nodes_refl _⟩) b.comment
  slotFilled := rfl
  rawStart := by
    rintro _ _ rfl
    rfl
  offset := rfl

theorem Assembly.Like.nodes_eq {L : exactLikeness.Ledgers} {b b' : Assembly} (h : b.Like L b') :
    b.nodes = b'.nodes := by
  have hnodes := h.nodes
  rwa [Likeness.Nodes, exactLikeness, List.forall₂_eq_eq_eq] at hnodes

/-- In what the ledgers of two runs may differ that do the same. -/
structure Course extends Likeness.Ledgers exactLikeness where
  /-- Whether the runs may meet control flow that is nested too deep. -/
  deep : Prop
  joins {l l' : Ledger} : rel l l' → l.config.joinText = l'.config.joinText
  depth {l l' : Ledger} : rel l l' → l.depth = l'.depth
  setDepth {l l' : Ledger} (depth : Nat) : rel l l' →
    rel { l with depth := depth } { l' with depth := depth }
  countBlock {l l' : Ledger} : rel l l' → rel l.countBlock l'.countBlock
  countBranch {l l' : Ledger} : rel l l' → rel l.countBranch l'.countBranch
  tooDeep {l l' : Ledger} (s : Span) (limit : Nat) : deep → rel l l' →
    rel (l.report s (.controlFlowTooDeep limit)) (l'.report s (.controlFlowTooDeep limit))

namespace Course

/-- Both runs enter control flow that is nested `k` deep, or as much of it as each other. -/
def Agree (C : Course) (k : Nat) (l l' : Ledger) : Prop :=
  (C.deep ∧ l.config.maxDepth = l'.config.maxDepth)
    ∨ (l.depth + k ≤ l.config.maxDepth ∧ l'.depth + k ≤ l'.config.maxDepth)

variable {C : Course} {k j : Nat} {l l' m m' : Ledger}

theorem Agree.mono (h : C.Agree k l l') (hj : j ≤ k) : C.Agree j l l' :=
  h.imp_right fun ⟨hl, hl'⟩ => ⟨by omega, by omega⟩

theorem Agree.left (h : C.Agree (max j k) l l') : C.Agree j l l' := h.mono (Nat.le_max_left j k)

theorem Agree.right (h : C.Agree (max j k) l l') : C.Agree k l l' := h.mono (Nat.le_max_right j k)

/-- The depth is the same later on. -/
theorem Agree.later (h : C.Agree k l l') (hm : l.Extends m) (hm' : l'.Extends m') :
    C.Agree k m m' := by
  unfold Agree
  rwa [hm.config, hm'.config, hm.depth, hm'.depth]

/-- Both runs enter control flow, or neither does, and one level further down they agree as well. -/
theorem Agree.enter (h : C.Agree (k + 1) l l') (hdepth : l.depth = l'.depth) :
    (C.deep ∧ l.config.maxDepth = l'.config.maxDepth ∧ l.depth ≥ l.config.maxDepth
        ∧ l'.depth ≥ l'.config.maxDepth)
      ∨ (¬ l.depth ≥ l.config.maxDepth ∧ ¬ l'.depth ≥ l'.config.maxDepth
        ∧ C.Agree k { l with depth := l.depth + 1 } { l' with depth := l'.depth + 1 }) := by
  rcases h with ⟨hdeep, hmax⟩ | ⟨hl, hl'⟩
  · by_cases hd : l.depth ≥ l.config.maxDepth
    · exact .inl ⟨hdeep, hmax, hd, by omega⟩
    · exact .inr ⟨hd, by omega, .inl ⟨hdeep, hmax⟩⟩
  · exact .inr ⟨by omega, by omega, .inr ⟨by dsimp only; omega, by dsimp only; omega⟩⟩

end Course

/-! ## 2. The pass -/

section Pass

variable {C : Course}

mutual

theorem feedNodes_course : ∀ (nodes : List Node) {b b' : Assembly} (run : Option RawRun),
    b.Like C.toLedgers b' → C.Agree (nesting nodes) b.ledger b'.ledger →
    (feedNodes b run nodes).Like C.toLedgers (feedNodes b' run nodes)
  | [], b, b', run, h, _ => by
    rw [feedNodes, feedNodes]
    exact h.readCollected (collects_refl run)
  | n :: nodes, b, b', run, h, ha => by
    rw [nesting] at ha
    cases ht : n.rawText? with
    | some text =>
      rw [feedNodes_cons_text ht, feedNodes_cons_text ht]
      obtain ⟨hb, hrun⟩ := h.collect (C.joins h.ledger) run (collects_refl run) text n.location
      rw [hrun]
      refine feedNodes_course nodes _ hb (ha.right.later ?_ ?_)
      · exact (Assembly.extends_collect ..).ledger
      · exact (Assembly.extends_collect ..).ledger
    | none =>
      rw [feedNodes_cons_node ht, feedNodes_cons_node ht]
      have hread := (b.extends_readCollected run).ledger
      have hread' := (b'.extends_readCollected run).ledger
      refine feedNodes_course nodes _
        (feedNode_course n (h.readCollected (collects_refl run)) (ha.left.later hread hread'))
        (ha.right.later ?_ ?_)
      · exact hread.trans (feedNode_extends n _).ledger
      · exact hread'.trans (feedNode_extends n _).ledger

theorem feedNode_course : ∀ (n : Node) {b b' : Assembly}, b.Like C.toLedgers b' →
    C.Agree n.nesting b.ledger b'.ledger →
    (feedNode b n).Like C.toLedgers (feedNode b' n)
  | .call id location callee params, b, b', h, ha => by
    rw [Node.nesting] at ha
    obtain ⟨hparams, hl⟩ := rewriteParams_course params h.ledger ha
    rw [feedNode, feedNode]
    dsimp only
    rw [hparams]
    exact ((h.setLedger (M := C.toLedgers) hl).place rfl).reach rfl
  | .binding id location var value, b, b', h, ha => by
    rw [Node.nesting] at ha
    obtain ⟨hvalue, hl⟩ := rewriteValue_course value h.ledger ha .letContent location
    rw [feedNode, feedNode]
    dsimp only
    rw [hvalue]
    exact ((h.setLedger (M := C.toLedgers) hl).place rfl).reach rfl
  | .flow flow, b, b', h, ha => by
    rw [Node.nesting] at ha
    have hset := h.settle (s := flow.location) ⟨rfl, rfl⟩
    obtain ⟨hflow, hexit, hl⟩ := rewriteFlow_course flow hset.ledger
      (ha.later (b.extends_settle _).ledger (b'.extends_settle _).ledger)
      (b.settle flow.location).context
    have hc := hset.context
    rw [feedNode, feedNode]
    generalize b.settle flow.location = x at *
    generalize b'.settle flow.location = x' at *
    have hplace := (hset.setLedger (M := C.toLedgers) hl).placeFlow (f := (rewriteFlow x.ledger
      x.context flow).1) rfl (rewriteFlow x.ledger x.context flow).2.1
    rw [hflow, hexit, hc] at hplace
    dsimp only
    rw [hflow, hexit, hc]
    exact hplace.reach rfl
  | .raw .., b, b', h, _ | .print .., b, b', h, _ | .openTag .., b, b', h, _
  | .closeTag .., b, b', h, _ | .attr .., b, b', h, _ | .attrValue .., b, b', h, _
  | .comment .., b, b', h, _ => by
    rw [feedNode, feedNode]
    exact (h.place rfl).reach rfl
    all_goals simp

theorem rewriteFlow_course : ∀ (flow : Flow) {l l' : Ledger}, C.rel l l' →
    C.Agree (flow.nesting + 1) l l' → ∀ entry : Context,
    (rewriteFlow l entry flow).1 = (rewriteFlow l' entry flow).1
      ∧ (rewriteFlow l entry flow).2.1 = (rewriteFlow l' entry flow).2.1
      ∧ C.rel (rewriteFlow l entry flow).2.2 (rewriteFlow l' entry flow).2.2
  | ⟨id, location, head, branches⟩, l, l', h, ha, entry => by
    rw [Flow.nesting] at ha
    rw [rewriteFlow, rewriteFlow]
    dsimp only
    rcases ha.enter (C.depth h) with ⟨hdeep, hmax, hd, hd'⟩ | ⟨hd, hd', ha⟩
    · rw [if_pos hd, if_pos hd', hmax]
      exact ⟨rfl, rfl, C.tooDeep location _ hdeep h⟩
    · rw [if_neg hd, if_neg hd']
      have hstart := C.setDepth (l.depth + 1) h
      rw [C.depth h] at hstart ha ⊢
      obtain ⟨hbranches, hexits, hl⟩ :=
        rewriteBranches_course branches hstart ha entry location.start
      obtain ⟨hexit, hl'⟩ := reconcile_like (L := C.toLedgers) (C.setDepth l'.depth hl)
        (s := location) ⟨rfl, rfl⟩ head entry (rewriteBranches
          { l' with depth := l'.depth + 1 } entry location.start branches).2.1
      rw [hbranches, hexits]
      exact ⟨rfl, hexit, hl'⟩

theorem rewriteBranches_course : ∀ (branches : List Branch) {l l' : Ledger}, C.rel l l' →
    C.Agree (branchesNesting branches) l l' → ∀ (entry : Context) (offset : Nat),
    (rewriteBranches l entry offset branches).1 = (rewriteBranches l' entry offset branches).1
      ∧ (rewriteBranches l entry offset branches).2.1
        = (rewriteBranches l' entry offset branches).2.1
      ∧ C.rel (rewriteBranches l entry offset branches).2.2
        (rewriteBranches l' entry offset branches).2.2
  | [], l, l', h, _, entry, offset => by
    rw [rewriteBranches, rewriteBranches]
    exact ⟨rfl, rfl, h⟩
  | branch :: branches, l, l', h, ha, entry, offset => by
    rw [branchesNesting] at ha
    obtain ⟨hbranch, hexit, hl⟩ := rewriteBranch_course branch h ha.left entry offset
    obtain ⟨hbranches, hexits, hl'⟩ := rewriteBranches_course branches hl
      (ha.right.later (rewriteBranch_extends ..) (rewriteBranch_extends ..)) entry offset
    rw [rewriteBranches, rewriteBranches]
    dsimp only
    rw [hbranch, hexit, hbranches, hexits]
    exact ⟨rfl, rfl, hl'⟩

theorem rewriteBranch_course : ∀ (branch : Branch) {l l' : Ledger}, C.rel l l' →
    C.Agree branch.nesting l l' → ∀ (entry : Context) (offset : Nat),
    (rewriteBranch l entry offset branch).1 = (rewriteBranch l' entry offset branch).1
      ∧ (rewriteBranch l entry offset branch).2.1 = (rewriteBranch l' entry offset branch).2.1
      ∧ C.rel (rewriteBranch l entry offset branch).2.2 (rewriteBranch l' entry offset branch).2.2
  | ⟨id, kind, nodes⟩, l, l', h, ha, entry, offset => by
    rw [Branch.nesting] at ha
    have hstart := Assembly.Like.ofStart (L := C.toLedgers) (C.countBranch h) entry true
      (rfl : offset = offset)
    have hend := (feedNodes_course nodes none hstart ha).endBranch
    rw [rewriteBranch, rewriteBranch]
    dsimp only
    exact ⟨by rw [hend.nodes_eq], hend.context, hend.ledger⟩

theorem rewriteParams_course : ∀ (params : List Param) {l l' : Ledger}, C.rel l l' →
    C.Agree (paramsNesting params) l l' →
    (rewriteParams l params).1 = (rewriteParams l' params).1
      ∧ C.rel (rewriteParams l params).2 (rewriteParams l' params).2
  | [], l, l', h, _ => by
    rw [rewriteParams, rewriteParams]
    exact ⟨rfl, h⟩
  | p :: params, l, l', h, ha => by
    rw [paramsNesting] at ha
    obtain ⟨hp, hl⟩ := rewriteParam_course p h ha.left
    obtain ⟨hparams, hl'⟩ := rewriteParams_course params hl
      (ha.right.later (rewriteParam_extends ..) (rewriteParam_extends ..))
    rw [rewriteParams, rewriteParams]
    dsimp only
    rw [hp, hparams]
    exact ⟨rfl, hl'⟩

theorem rewriteParam_course : ∀ (p : Param) {l l' : Ledger}, C.rel l l' →
    C.Agree p.nesting l l' →
    (rewriteParam l p).1 = (rewriteParam l' p).1
      ∧ C.rel (rewriteParam l p).2 (rewriteParam l' p).2
  | ⟨id, location, name, value⟩, l, l', h, ha => by
    rw [Param.nesting] at ha
    obtain ⟨hvalue, hl⟩ := rewriteValue_course value h ha .paramContent location
    rw [rewriteParam, rewriteParam]
    dsimp only
    rw [hvalue]
    exact ⟨rfl, hl⟩

theorem rewriteValue_course : ∀ (value : Value) {l l' : Ledger}, C.rel l l' →
    C.Agree value.nesting l l' → ∀ (block : BlockKind) (location : Span),
    (rewriteValue l block location value).1 = (rewriteValue l' block location value).1
      ∧ C.rel (rewriteValue l block location value).2 (rewriteValue l' block location value).2
  | .expr e, l, l', h, _, block, location => by
    rw [rewriteValue, rewriteValue]
    exact ⟨rfl, h⟩
  | .content kind nodes, l, l', h, ha, block, location => by
    rw [Value.nesting] at ha
    have hcount := C.countBlock h
    rw [rewriteValue, rewriteValue]
    dsimp only
    split
    · next entry _ =>
      have hstart := Assembly.Like.ofStart (L := C.toLedgers) hcount entry false
        (rfl : location.start = location.start)
      have hend := (feedNodes_course nodes none hstart ha).endBlock block
      exact ⟨by rw [hend.nodes_eq], hend.ledger⟩
    · obtain ⟨hnodes, hl⟩ := enterNodes_course nodes hcount ha
      exact ⟨by rw [hnodes], hl⟩

theorem enterNodes_course : ∀ (nodes : List Node) {l l' : Ledger}, C.rel l l' →
    C.Agree (nesting nodes) l l' →
    (enterNodes l nodes).1 = (enterNodes l' nodes).1
      ∧ C.rel (enterNodes l nodes).2 (enterNodes l' nodes).2
  | [], l, l', h, _ => by
    rw [enterNodes, enterNodes]
    exact ⟨rfl, h⟩
  | n :: nodes, l, l', h, ha => by
    rw [nesting] at ha
    obtain ⟨hn, hl⟩ := enterNode_course n h ha.left
    obtain ⟨hnodes, hl'⟩ := enterNodes_course nodes hl
      (ha.right.later (enterNode_extends ..) (enterNode_extends ..))
    rw [enterNodes, enterNodes]
    dsimp only
    rw [hn, hnodes]
    exact ⟨rfl, hl'⟩

theorem enterNode_course : ∀ (n : Node) {l l' : Ledger}, C.rel l l' → C.Agree n.nesting l l' →
    (enterNode l n).1 = (enterNode l' n).1 ∧ C.rel (enterNode l n).2 (enterNode l' n).2
  | .call id location callee params, l, l', h, ha => by
    rw [Node.nesting] at ha
    obtain ⟨hparams, hl⟩ := rewriteParams_course params h ha
    rw [enterNode, enterNode]
    dsimp only
    rw [hparams]
    exact ⟨rfl, hl⟩
  | .binding id location var value, l, l', h, ha => by
    rw [Node.nesting] at ha
    obtain ⟨hvalue, hl⟩ := rewriteValue_course value h ha .letContent location
    rw [enterNode, enterNode]
    dsimp only
    rw [hvalue]
    exact ⟨rfl, hl⟩
  | .flow flow, l, l', h, ha => by
    rw [Node.nesting] at ha
    obtain ⟨hflow, hl⟩ := enterFlow_course flow h (ha.mono (Nat.le_succ _))
    rw [enterNode, enterNode]
    dsimp only
    rw [hflow]
    exact ⟨rfl, hl⟩
  | .raw .., l, l', h, _ | .print .., l, l', h, _ | .openTag .., l, l', h, _
  | .closeTag .., l, l', h, _ | .attr .., l, l', h, _ | .attrValue .., l, l', h, _
  | .comment .., l, l', h, _ => by
    rw [enterNode, enterNode]
    exact ⟨rfl, h⟩
    all_goals simp

theorem enterFlow_course : ∀ (flow : Flow) {l l' : Ledger}, C.rel l l' →
    C.Agree flow.nesting l l' →
    (enterFlow l flow).1 = (enterFlow l' flow).1 ∧ C.rel (enterFlow l flow).2 (enterFlow l' flow).2
  | ⟨id, location, head, branches⟩, l, l', h, ha => by
    rw [Flow.nesting] at ha
    obtain ⟨hbranches, hl⟩ := enterBranches_course branches h ha
    rw [enterFlow, enterFlow]
    dsimp only
    rw [hbranches]
    exact ⟨rfl, hl⟩

theorem enterBranches_course : ∀ (branches : List Branch) {l l' : Ledger}, C.rel l l' →
    C.Agree (branchesNesting branches) l l' →
    (enterBranches l branches).1 = (enterBranches l' branches).1
      ∧ C.rel (enterBranches l branches).2 (enterBranches l' branches).2
  | [], l, l', h, _ => by
    rw [enterBranches, enterBranches]
    exact ⟨rfl, h⟩
  | branch :: branches, l, l', h, ha => by
    rw [branchesNesting] at ha
    obtain ⟨hbranch, hl⟩ := enterBranch_course branch h ha.left
    obtain ⟨hbranches, hl'⟩ := enterBranches_course branches hl
      (ha.right.later (enterBranch_extends ..) (enterBranch_extends ..))
    rw [enterBranches, enterBranches]
    dsimp only
    rw [hbranch, hbranches]
    exact ⟨rfl, hl'⟩

theorem enterBranch_course : ∀ (branch : Branch) {l l' : Ledger}, C.rel l l' →
    C.Agree branch.nesting l l' →
    (enterBranch l branch).1 = (enterBranch l' branch).1
      ∧ C.rel (enterBranch l branch).2 (enterBranch l' branch).2
  | ⟨id, kind, nodes⟩, l, l', h, ha => by
    rw [Branch.nesting] at ha
    obtain ⟨hnodes, hl⟩ := enterNodes_course nodes h ha
    rw [enterBranch, enterBranch]
    dsimp only
    rw [hnodes]
    exact ⟨rfl, hl⟩

end

end Pass

/-! ## 3. What was reported before -/

/-- The second ledger is the first on top of `base`, which had been reported before; what has been
counted is left out. -/
structure Ledger.Atop (base : List Diagnostic) (l l' : Ledger) : Prop where
  config : l.config = l'.config
  ids : l.ids = l'.ids
  depth : l.depth = l'.depth
  diagnostics : l'.diagnostics = l.diagnostics ++ base

/-- Ledgers on top of `base`. -/
def atop (base : List Diagnostic) : Course where
  rel := Ledger.Atop base
  next h := congrArg IdSource.next h.ids
  drawn h := { h with ids := congrArg IdSource.rest h.ids }
  drawnForHtml h := { h with ids := congrArg IdSource.rest h.ids }
  countRun h := { h with }
  countChange h := { h with }
  report _ h hs := by
    obtain rfl := Span.eq_of_bounds hs.start hs.stop
    exact { h with diagnostics := congrArg (List.cons _) h.diagnostics }
  deep := True
  joins h := congrArg Config.joinText h.config
  depth := Ledger.Atop.depth
  setDepth _ h := { h with depth := rfl }
  countBlock h := { h with }
  countBranch h := { h with }
  tooDeep _ _ _ h := { h with diagnostics := congrArg (List.cons _) h.diagnostics }

/-- **A content block in the middle of a run is rewritten as a block of its own**, with the names
that are next in the run; what is reported of it stands on top of what had been reported before. -/
theorem rewriteValue_afresh {l : Ledger} (hdepth : l.depth = 0) (block : BlockKind)
    (location : Span) (kind : Option ContentKind) (nodes : List Node) :
    let r := rewriteBlock l.config (declaredOrHtml kind) block location l.ids nodes
    (rewriteValue l block location (.content kind nodes)).1 = .content kind r.result
      ∧ (rewriteValue l block location (.content kind nodes)).2.ids = r.ids
      ∧ (rewriteValue l block location (.content kind nodes)).2.diagnostics
        = r.diagnostics.reverse ++ l.diagnostics := by
  have hstart : (Ledger.start l.config l.ids).Atop l.diagnostics l :=
    ⟨rfl, rfl, hdepth.symm, (List.nil_append _).symm⟩
  obtain ⟨hvalue, hledger⟩ := rewriteValue_course (C := atop l.diagnostics) (.content kind nodes)
    hstart (.inl ⟨trivial, rfl⟩) block location
  have hkind (l : Ledger) : rewriteValue l block location (.content kind nodes)
      = (.content kind (rewriteValue l block location
          (.content (some (declaredOrHtml kind)) nodes)).1.nodes,
        (rewriteValue l block location (.content (some (declaredOrHtml kind)) nodes)).2) := by
    rw [rewriteValue, rewriteValue]
    dsimp only [declaredOrHtml, Option.getD_some]
    split <;> rfl
  rw [← hvalue, ← hledger.ids, hledger.diagnostics]
  rw [hkind (.start l.config l.ids)]
  refine ⟨rfl, rfl, ?_⟩
  exact congrArg (· ++ l.diagnostics) (List.reverse_reverse _).symm

end TemplateMarkup
