/-
# What stands where

Attributes, control flow and bindings stand in open tags and nothing else does, whatever is
reported.  Attributes and their values stand nowhere else in a block of html, as long as no value
without quotes is ended in a branch that did not begin it (`Ledger.Quiet`): after such an end the
value stays open beside the tag, and it may be finished when the tag is gone
(`Template.attr_outside_tag`).

`Assembly.Fits` follows the first through a run, for all that is nested in the nodes as well: it is
what an assembly bears of such nodes (`Assembly.Bears`).  The second is `feedNodes_inOrder` for each
block that is rewritten.
-/
import TemplateMarkup.Proofs.Html.Bearing
import TemplateMarkup.Proofs.Html.Order

namespace TemplateMarkup

/-! ## 1. Trees -/

/-- An attribute, control flow or a binding. -/
def Node.standsInTag : Node → Bool
  | .attr .. | .flow _ | .binding .. => true
  | _ => false

/-- What stands in an open tag may stand there. -/
def Node.TagFits : Node → Prop
  | .openTag _ _ _ children _ => ∀ n ∈ children, n.standsInTag = true
  | _ => True

/-- No attribute and no value stands by itself in a content block of html. -/
def Value.BlockFits : Value → Prop
  | .expr _ => True
  | .content kind nodes => declaredOrHtml kind = .html → ∀ n ∈ nodes, n.isAttrPart = false

/-- Nor in the content blocks of the node. -/
def Node.BlocksFit : Node → Prop
  | .call _ _ _ params => ∀ p ∈ params, p.value.BlockFits
  | .binding _ _ _ value => value.BlockFits
  | _ => True

/-- The node stands well, and if `quiet` so do the nodes in its content blocks. -/
def Node.Fits (quiet : Prop) (n : Node) : Prop := n.TagFits ∧ (quiet → n.BlocksFit)

/-- The node and all nodes in it stand well. -/
def Node.FitsDeep (quiet : Prop) (n : Node) : Prop := ∀ m ∈ n.walk, m.Fits quiet

/-- The nodes and all nodes in them stand well. -/
def FitDeep (quiet : Prop) (nodes : List Node) : Prop := ∀ n ∈ nodes, n.FitsDeep quiet

theorem fitDeep_iff_walk {quiet : Prop} {nodes : List Node} :
    FitDeep quiet nodes ↔ ∀ n ∈ walk nodes, n.Fits quiet := forall_mem_walk.symm

theorem walk_value_subset {p : Param} {params : List Param} (h : p ∈ params) :
    p.value.walk ⊆ walkParams params := by
  induction params with
  | nil => cases h
  | cons q params ih =>
    obtain ⟨id, s, name, value⟩ := q
    rw [walkParams, Param.walk]
    rcases List.mem_cons.mp h with rfl | h
    · exact fun k hk => List.mem_append_left _ hk
    · exact fun k hk => List.mem_append_right _ (ih h hk)

/-- What is of the source stands well, for there is no html in it. -/
theorem fits_of_isWritten {quiet : Prop} {l : List Node} (hl : WalkClosed l)
    (h : ∀ m ∈ l, m.isWritten = true) : ∀ m ∈ l, m.Fits quiet := by
  intro m hm
  have hw := h m hm
  refine ⟨?_, fun _ => ?_⟩
  · cases m <;> trivial
  · -- the nodes of its content blocks are of the source as well
    have block (v : Value) (hv : v.walk ⊆ m.walk) : v.BlockFits := by
      cases v with
      | expr e => trivial
      | content kind nodes =>
        intro _ k hk
        rw [Value.walk] at hv
        have := h k (hl m hm (hv (subset_walk nodes hk)))
        cases k <;> first | rfl | simp [Node.isWritten] at this
    cases m with
    | call id s callee params =>
      intro p hp
      refine block p.value ?_
      rw [Node.walk]
      exact fun k hk => List.mem_cons_of_mem _ (walk_value_subset hp hk)
    | binding id s var value =>
      refine block value ?_
      rw [Node.walk]
      exact fun k hk => List.mem_cons_of_mem _ hk
    | _ => trivial

/-- What is put together of nodes that stand well stands well. -/
theorem Node.builds_fits (quiet : Prop) :
    Node.Builds (Node.Fits quiet) (·.standsInTag = true) fun _ => True where
  raw _ _ _ := ⟨trivial, fun _ => trivial⟩
  openTag _ _ _ _ _ _ _ hs := ⟨hs, fun _ => trivial⟩
  closeTag _ _ _ _ := ⟨trivial, fun _ => trivial⟩
  attr _ _ _ _ _ _ := ⟨trivial, fun _ => trivial⟩
  attr_among _ _ _ _ := rfl
  attrValue _ _ _ _ _ := ⟨trivial, fun _ => trivial⟩
  attrValue_gives _ _ _ _ := trivial
  comment _ _ _ _ := ⟨trivial, fun _ => trivial⟩

theorem FitDeep.reverse {quiet : Prop} {nodes : List Node} (h : FitDeep quiet nodes) :
    FitDeep quiet nodes.reverse := fun n hn => h n (List.mem_reverse.mp hn)

/-! ## 2. Assemblies -/

/-- What stands in a tag that is open may stand there, and all parts stand well. -/
structure TagDraft.Fits (quiet : Prop) (t : TagDraft) : Prop where
  name : ∀ n, t.name = some n → n.FitsDeep quiet
  deep : FitDeep quiet t.children
  stands : ∀ n ∈ t.children, n.standsInTag = true

/-- **All parts of an assembly stand well.** -/
structure Assembly.Fits (quiet : Prop) (b : Assembly) : Prop where
  out : FitDeep quiet b.out
  tag : ∀ t, b.tag = some t → t.Fits quiet
  attr : ∀ a, b.attr = some a → ∀ n, a.name = some n → n.FitsDeep quiet
  value : ∀ v, b.value = some v → FitDeep quiet v.children
  comment : ∀ c, b.comment = some c → FitDeep quiet c.children

namespace Assembly

variable {quiet : Prop} {b : Assembly}

theorem fits_iff_bears :
    b.Fits quiet ↔ b.Bears (Node.Deep (Node.Fits quiet)) (·.standsInTag = true) := by
  refine ⟨fun h => ⟨h.out, fun t ht => ?_, h.attr, h.value, h.comment⟩,
    fun h => ⟨h.out, fun t ht => ?_, h.attr, h.value, h.comment⟩⟩
  · exact ⟨(h.tag t ht).name, (h.tag t ht).deep, (h.tag t ht).stands⟩
  · exact ⟨(h.tag t ht).name, (h.tag t ht).children, (h.tag t ht).among⟩

theorem fits_start (l : Ledger) (entry : Context) (inBranch : Bool) (offset : Nat) :
    (start l entry inBranch offset).Fits quiet := fits_iff_bears.mpr (bears_start ..)

theorem Fits.ledger (h : b.Fits quiet) (l : Ledger) :
    ({ b with ledger := l } : Assembly).Fits quiet :=
  ⟨h.out, h.tag, h.attr, h.value, h.comment⟩

theorem Fits.readCollected (h : b.Fits quiet) (run : Option RawRun) :
    (b.readCollected run).Fits quiet :=
  fits_iff_bears.mpr ((fits_iff_bears.mp h).readCollected (Node.builds_fits quiet).deep run)

theorem Fits.collect (h : b.Fits quiet) (run : Option RawRun) (text : Text) (location : Span) :
    (b.collect run text location).1.Fits quiet :=
  fits_iff_bears.mpr ((fits_iff_bears.mp h).collect (Node.builds_fits quiet).deep run text location)

/-- **A print, a call or a binding is placed where it may stand.** -/
theorem Fits.place (h : b.Fits quiet) {n : Node} (hn : n.FitsDeep quiet)
    (hs : n.isPrinting = true ∨ n.standsInTag = true) : (b.place n).Fits quiet :=
  fits_iff_bears.mpr ((fits_iff_bears.mp h).place (Node.builds_fits quiet).deep hn hs)

theorem Fits.settle (h : b.Fits quiet) (location : Span) : (b.settle location).Fits quiet :=
  fits_iff_bears.mpr ((fits_iff_bears.mp h).settle (Node.builds_fits quiet).deep location)

theorem Fits.placeFlow (h : b.Fits quiet) {f : Flow} (hf : (Node.flow f).FitsDeep quiet)
    (exit : Context) : (b.placeFlow f exit).Fits quiet :=
  fits_iff_bears.mpr ((fits_iff_bears.mp h).placeFlow (Node.builds_fits quiet).deep hf rfl
    fun _ _ => trivial)

theorem Fits.endBranch (h : b.Fits quiet) : b.endBranch.Fits quiet :=
  fits_iff_bears.mpr ((fits_iff_bears.mp h).endBranch (Node.builds_fits quiet).deep)

theorem Fits.endBlock (h : b.Fits quiet) (block : BlockKind) : (b.endBlock block).Fits quiet :=
  fits_iff_bears.mpr ((fits_iff_bears.mp h).endBlock (Node.builds_fits quiet).deep block)

end Assembly

/-! ## 3. The pass -/

theorem Param.walk_eq (p : Param) : p.walk = p.value.walk := by
  obtain ⟨id, s, name, value⟩ := p
  rw [Param.walk]

/-- All nodes in the parameters stand well. -/
def FitParams (quiet : Prop) (params : List Param) : Prop :=
  (∀ n ∈ walkParams params, n.Fits quiet) ∧ (quiet → ∀ p ∈ params, p.value.BlockFits)

/-- All nodes in the value stand well. -/
def Value.FitsDeep (quiet : Prop) (value : Value) : Prop :=
  (∀ n ∈ value.walk, n.Fits quiet) ∧ (quiet → value.BlockFits)

theorem Node.FitsDeep.call {quiet : Prop} {params : List Param} (h : FitParams quiet params)
    (id : NodeId) (s : Span) (callee : Text) : (Node.call id s callee params).FitsDeep quiet := by
  intro m hm
  rw [Node.walk, List.mem_cons] at hm
  rcases hm with rfl | hm
  · exact ⟨trivial, h.2⟩
  · exact h.1 m hm

theorem Node.FitsDeep.binding {quiet : Prop} {value : Value} (h : value.FitsDeep quiet)
    (id : NodeId) (s : Span) (var : Text) : (Node.binding id s var value).FitsDeep quiet := by
  intro m hm
  rw [Node.walk, List.mem_cons] at hm
  rcases hm with rfl | hm
  · exact ⟨trivial, h.2⟩
  · exact h.1 m hm

theorem Node.FitsDeep.flow {quiet : Prop} {f : Flow}
    (h : ∀ n ∈ walkBranches f.branches, n.Fits quiet) : (Node.flow f).FitsDeep quiet := by
  obtain ⟨id, s, head, branches⟩ := f
  intro m hm
  rw [Node.walk, List.mem_cons, Flow.walk] at hm
  rcases hm with rfl | hm
  · exact ⟨trivial, fun _ => trivial⟩
  · exact h m hm

/-- Nodes of the source that are of the source inside as well. -/
theorem isWritten_of_allWritten {nodes : List Node} (h : AllWritten nodes) :
    ∀ n ∈ nodes, n.isAttrPart = false := by
  intro n hn
  have := h n (subset_walk nodes hn)
  cases n <;> first | rfl | simp [Node.isWritten] at this

mutual

/-- **Nodes that are fed to an assembly get where they may stand.** -/
theorem feedNodes_fits {quiet : Prop} : ∀ (nodes : List Node) (b : Assembly) (run : Option RawRun),
    AllWritten nodes → (quiet → (feedNodes b run nodes).Quiet) → b.Fits quiet →
    (feedNodes b run nodes).Fits quiet
  | [], b, run, _, _, h => by
    rw [feedNodes]
    exact h.readCollected run
  | n :: nodes, b, run, hw, hq, h => by
    obtain ⟨hn, hnodes⟩ := written_cons.mp hw
    rw [feedNodes] at hq ⊢
    cases ht : n.rawText? with
    | some text =>
      simp only [ht] at hq ⊢
      exact feedNodes_fits nodes _ _ hnodes hq (h.collect _ _ _)
    | none =>
      simp only [ht] at hq ⊢
      exact feedNodes_fits nodes _ _ hnodes hq (feedNode_fits n _ ht hn
        (fun h => (feedNodes_extends nodes _ _).quiet (hq h)) (h.readCollected run))

theorem feedNode_fits {quiet : Prop} : ∀ (n : Node) (b : Assembly), n.rawText? = none →
    (∀ m ∈ n.walk, m.isWritten = true) → (quiet → (feedNode b n).Quiet) → b.Fits quiet →
    (feedNode b n).Fits quiet
  | .call id location callee params, b, _, hw, hq, h => by
    rw [feedNode] at hq ⊢
    have hparams := rewriteParams_fit params b.ledger
      (fun m hm => hw m (by rw [Node.walk]; exact List.mem_cons_of_mem _ hm))
      fun hx => (Assembly.extends_place ..).quiet ((Assembly.extends_reach ..).quiet (hq hx))
    have := (h.ledger (rewriteParams b.ledger params).2).place (.call hparams id location callee)
      (Or.inl rfl)
    exact ⟨this.out, this.tag, this.attr, this.value, this.comment⟩
  | .binding id location var value, b, _, hw, hq, h => by
    rw [feedNode] at hq ⊢
    have hvalue := rewriteValue_fits value b.ledger .letContent location
      (fun m hm => hw m (by rw [Node.walk]; exact List.mem_cons_of_mem _ hm))
      fun hx => (Assembly.extends_place ..).quiet ((Assembly.extends_reach ..).quiet (hq hx))
    have := (h.ledger (rewriteValue b.ledger .letContent location value).2).place
      (.binding hvalue id location var) (Or.inr rfl)
    exact ⟨this.out, this.tag, this.attr, this.value, this.comment⟩
  | .flow flow, b, _, hw, hq, h => by
    rw [feedNode] at hq ⊢
    have hflow := rewriteFlow_fits flow (b.settle flow.location).ledger
      (b.settle flow.location).context
      (fun m hm => hw m (by rw [Node.walk]; exact List.mem_cons_of_mem _ hm))
      fun hx => (Assembly.extends_placeFlow ..).quiet ((Assembly.extends_reach ..).quiet (hq hx))
    have := ((h.settle flow.location).ledger (rewriteFlow (b.settle flow.location).ledger
      (b.settle flow.location).context flow).2.2).placeFlow (.flow hflow)
      (rewriteFlow (b.settle flow.location).ledger (b.settle flow.location).context flow).2.1
    exact ⟨this.out, this.tag, this.attr, this.value, this.comment⟩
  | .print id location expr, b, _, _, _, h => by
    rw [feedNode]
    · have := h.place (n := .print id location expr)
        (fun m hm => by
          rw [Node.walk, List.mem_singleton] at hm
          rw [hm]
          exact ⟨trivial, fun _ => trivial⟩) (Or.inl rfl)
      exact ⟨this.out, this.tag, this.attr, this.value, this.comment⟩
    all_goals simp
  | .raw .., _, ht, _, _, _ => nomatch ht
  | .openTag id s name children selfClosing, _, _, hw, _, _ => nomatch hw _ (Node.mem_walk _)
  | .closeTag id s name, _, _, hw, _, _ => nomatch hw _ (Node.mem_walk _)
  | .attr id s name value, _, _, hw, _, _ => nomatch hw _ (Node.mem_walk _)
  | .attrValue id s quotes children, _, _, hw, _, _ => nomatch hw _ (Node.mem_walk _)
  | .comment id s children, _, _, hw, _, _ => nomatch hw _ (Node.mem_walk _)

theorem rewriteFlow_fits {quiet : Prop} : ∀ (flow : Flow) (l : Ledger) (entry : Context),
    (∀ m ∈ flow.walk, m.isWritten = true) → (quiet → (rewriteFlow l entry flow).2.2.Quiet) →
    ∀ m ∈ walkBranches (rewriteFlow l entry flow).1.branches, m.Fits quiet
  | ⟨id, location, head, branches⟩, l, entry, hw, hq => by
    rw [Flow.walk] at hw
    rw [rewriteFlow] at hq ⊢
    dsimp only at hq ⊢
    split at hq
    · next hd =>
      rw [if_pos hd]
      exact fits_of_isWritten (walkClosed_branches branches) hw
    · next hd =>
      rw [if_neg hd]
      refine rewriteBranches_fit branches _ entry location.start hw fun hx => ?_
      have hq' := (reconcile_extends _ location head entry _).quiet (hq hx)
      exact hq'

theorem rewriteBranches_fit {quiet : Prop} : ∀ (branches : List Branch) (l : Ledger)
    (entry : Context) (offset : Nat), WrittenBranches branches →
    (quiet → (rewriteBranches l entry offset branches).2.2.Quiet) →
    ∀ m ∈ walkBranches (rewriteBranches l entry offset branches).1, m.Fits quiet
  | [], l, entry, offset, _, _ => by
    rw [rewriteBranches, walkBranches]
    exact nofun
  | branch :: branches, l, entry, offset, hw, hq => by
    rw [WrittenBranches, walkBranches, List.forall_mem_append] at hw
    rw [rewriteBranches] at hq ⊢
    dsimp only at hq ⊢
    rw [walkBranches, List.forall_mem_append]
    exact ⟨rewriteBranch_fits branch l entry offset hw.1
      fun hx => (rewriteBranches_extends ..).quiet (hq hx),
      rewriteBranches_fit branches _ entry offset hw.2 hq⟩

theorem rewriteBranch_fits {quiet : Prop} : ∀ (branch : Branch) (l : Ledger) (entry : Context)
    (offset : Nat), (∀ m ∈ branch.walk, m.isWritten = true) →
    (quiet → (rewriteBranch l entry offset branch).2.2.Quiet) →
    ∀ m ∈ (rewriteBranch l entry offset branch).1.walk, m.Fits quiet
  | ⟨id, kind, nodes⟩, l, entry, offset, hw, hq => by
    rw [Branch.walk] at hw
    rw [rewriteBranch] at hq ⊢
    dsimp only at hq ⊢
    have hfits := feedNodes_fits nodes (.start l.countBranch entry true offset) none hw
      (fun hx => (Assembly.extends_endBranch _).quiet (hq hx)) (Assembly.fits_start ..)
    rw [Branch.walk]
    exact fitDeep_iff_walk.mp hfits.endBranch.out.reverse

theorem rewriteParams_fit {quiet : Prop} : ∀ (params : List Param) (l : Ledger),
    WrittenParams params → (quiet → (rewriteParams l params).2.Quiet) →
    FitParams quiet (rewriteParams l params).1
  | [], l, _, _ => by
    rw [rewriteParams]
    exact ⟨by rw [walkParams]; exact nofun, fun _ => nofun⟩
  | p :: params, l, hw, hq => by
    rw [WrittenParams, walkParams, List.forall_mem_append] at hw
    rw [rewriteParams] at hq ⊢
    dsimp only at hq ⊢
    have hp := rewriteParam_fits p l hw.1 fun hx => (rewriteParams_extends ..).quiet (hq hx)
    have hparams := rewriteParams_fit params _ hw.2 hq
    refine ⟨?_, fun hx => List.forall_mem_cons.mpr ⟨hp.2 hx, hparams.2 hx⟩⟩
    rw [walkParams, List.forall_mem_append, Param.walk_eq]
    exact ⟨hp.1, hparams.1⟩

theorem rewriteParam_fits {quiet : Prop} : ∀ (p : Param) (l : Ledger),
    (∀ m ∈ p.walk, m.isWritten = true) → (quiet → (rewriteParam l p).2.Quiet) →
    (rewriteParam l p).1.value.FitsDeep quiet
  | ⟨id, location, name, value⟩, l, hw, hq => by
    rw [Param.walk] at hw
    rw [rewriteParam] at hq ⊢
    exact rewriteValue_fits value l .paramContent location hw hq

/-- **What a content block gets is where it may stand**, and if the run is quiet no attribute is
among its nodes. -/
theorem rewriteValue_fits {quiet : Prop} : ∀ (value : Value) (l : Ledger) (block : BlockKind)
    (location : Span), (∀ m ∈ value.walk, m.isWritten = true) →
    (quiet → (rewriteValue l block location value).2.Quiet) →
    (rewriteValue l block location value).1.FitsDeep quiet
  | .expr expr, l, block, location, _, _ => by
    rw [rewriteValue]
    exact ⟨by rw [Value.walk]; exact nofun, fun _ => trivial⟩
  | .content kind nodes, l, block, location, hw, hq => by
    rw [Value.walk] at hw
    rw [rewriteValue] at hq ⊢
    dsimp only at hq ⊢
    split at hq
    · next entry hentry =>
      have hq' := fun hx => (Assembly.extends_endBlock _ block).quiet (hq hx)
      have hfits := feedNodes_fits nodes (.start l.countBlock entry false location.start) none hw hq'
        (Assembly.fits_start ..)
      refine ⟨?_, fun hx hkind => ?_⟩
      · rw [Value.walk]
        exact fitDeep_iff_walk.mp (hfits.endBlock block).out.reverse
      · rw [hkind] at hentry
        cases hentry
        have hstart : (Assembly.start l.countBlock .pcdata false location.start).InOrder :=
          ⟨Assembly.tidy_start .., Assembly.footed_start _ _ _ rfl, rfl⟩
        have horder := feedNodes_inOrder nodes hstart (isWritten_of_allWritten hw) (hq' hx)
        exact fun n hn => (horder.endBlock block).out n (List.mem_reverse.mp hn)
    · next hentry =>
      refine ⟨enterNodes_fit nodes l.countBlock hw hq, fun _ hkind => ?_⟩
      rw [hkind] at hentry
      cases hentry

theorem enterNodes_fit {quiet : Prop} : ∀ (nodes : List Node) (l : Ledger), AllWritten nodes →
    (quiet → (enterNodes l nodes).2.Quiet) → ∀ m ∈ walk (enterNodes l nodes).1, m.Fits quiet
  | [], l, _, _ => by
    rw [enterNodes, walk]
    exact nofun
  | n :: nodes, l, hw, hq => by
    obtain ⟨hn, hnodes⟩ := written_cons.mp hw
    rw [enterNodes] at hq ⊢
    dsimp only at hq ⊢
    rw [walk, List.forall_mem_append]
    exact ⟨enterNode_fits n l hn fun hx => (enterNodes_extends ..).quiet (hq hx),
      enterNodes_fit nodes _ hnodes hq⟩

theorem enterNode_fits {quiet : Prop} : ∀ (n : Node) (l : Ledger),
    (∀ m ∈ n.walk, m.isWritten = true) → (quiet → (enterNode l n).2.Quiet) →
    (enterNode l n).1.FitsDeep quiet
  | .call id location callee params, l, hw, hq => by
    rw [enterNode] at hq ⊢
    exact .call (rewriteParams_fit params l
      (fun m hm => hw m (by rw [Node.walk]; exact List.mem_cons_of_mem _ hm)) hq) _ _ _
  | .binding id location var value, l, hw, hq => by
    rw [enterNode] at hq ⊢
    exact .binding (rewriteValue_fits value l .letContent location
      (fun m hm => hw m (by rw [Node.walk]; exact List.mem_cons_of_mem _ hm)) hq) _ _ _
  | .flow flow, l, hw, hq => by
    rw [enterNode] at hq ⊢
    exact .flow (enterFlow_fits flow l
      (fun m hm => hw m (by rw [Node.walk]; exact List.mem_cons_of_mem _ hm)) hq)
  | .raw .., l, hw, _ | .print .., l, hw, _ | .openTag .., l, hw, _ | .closeTag .., l, hw, _
  | .attr .., l, hw, _ | .attrValue .., l, hw, _ | .comment .., l, hw, _ => by
    rw [enterNode]
    exact fits_of_isWritten (Node.walkClosed _) hw
    all_goals simp

theorem enterFlow_fits {quiet : Prop} : ∀ (flow : Flow) (l : Ledger),
    (∀ m ∈ flow.walk, m.isWritten = true) → (quiet → (enterFlow l flow).2.Quiet) →
    ∀ m ∈ walkBranches (enterFlow l flow).1.branches, m.Fits quiet
  | ⟨id, location, head, branches⟩, l, hw, hq => by
    rw [Flow.walk] at hw
    rw [enterFlow] at hq ⊢
    exact enterBranches_fit branches l hw hq

theorem enterBranches_fit {quiet : Prop} : ∀ (branches : List Branch) (l : Ledger),
    WrittenBranches branches → (quiet → (enterBranches l branches).2.Quiet) →
    ∀ m ∈ walkBranches (enterBranches l branches).1, m.Fits quiet
  | [], l, _, _ => by
    rw [enterBranches, walkBranches]
    exact nofun
  | branch :: branches, l, hw, hq => by
    rw [WrittenBranches, walkBranches, List.forall_mem_append] at hw
    rw [enterBranches] at hq ⊢
    dsimp only at hq ⊢
    rw [walkBranches, List.forall_mem_append]
    exact ⟨enterBranch_fits branch l hw.1 fun hx => (enterBranches_extends ..).quiet (hq hx),
      enterBranches_fit branches _ hw.2 hq⟩

theorem enterBranch_fits {quiet : Prop} : ∀ (branch : Branch) (l : Ledger),
    (∀ m ∈ branch.walk, m.isWritten = true) → (quiet → (enterBranch l branch).2.Quiet) →
    ∀ m ∈ (enterBranch l branch).1.walk, m.Fits quiet
  | ⟨id, kind, nodes⟩, l, hw, hq => by
    rw [Branch.walk] at hw
    rw [enterBranch] at hq ⊢
    rw [Branch.walk]
    exact enterNodes_fit nodes l hw hq

end

/-! ## 4. Templates -/

/-- **Whatever is reported, every node is where it may stand.**  The children of an open tag are
attributes, control flow and bindings.  No attribute and no value is a child of a block of html, of
the template or of a binding or parameter in it, unless a value was ended in a branch that did not
begin it. -/
theorem Template.rewrite_containers {src : Text} {ids ids' : IdSource} {t : Template}
    (hread : Template.read src .html ids = .ok (t, ids')) (config : Config) (fresh : IdSource) :
    (∀ n ∈ walk (t.rewrite config fresh).result.nodes, n.TagFits)
      ∧ ((∀ d ∈ (t.rewrite config fresh).diagnostics,
            d.fault ≠ .closedInOtherBlock .attributeValue) →
        (∀ n ∈ (t.rewrite config fresh).result.nodes, n.isAttrPart = false)
          ∧ ∀ n ∈ walk (t.rewrite config fresh).result.nodes, n.BlocksFit) := by
  obtain ⟨_, _, _, _, _, hkind, _⟩ := Template.body_of_read hread
  have hw := Template.written_of_read hread
  have hfits {quiet : Prop} := @rewriteValue_fits quiet (.content (some .html) t.nodes)
    (.start config fresh) .template t.location (by rw [Value.walk]; exact hw)
  obtain ⟨nodes, hvalue⟩ := exists_rewriteValue_eq (.start config fresh) .template t.location
    (some .html) t.nodes
  unfold Template.rewrite rewriteBlock
  rw [hkind]
  dsimp only [Ledger.outcome]
  rw [hvalue] at hfits ⊢
  dsimp only [Value.nodes]
  refine ⟨fun n hn => ((@hfits False False.elim).1 n ?_).1, fun hq => ?_⟩
  · rw [Value.walk]
    exact hn
  · have hall := @hfits True fun _ d hd => hq d (List.mem_reverse.mpr hd)
    rw [Value.FitsDeep, Value.walk] at hall
    exact ⟨hall.2 trivial rfl, fun n hn => (hall.1 n hn).2 trivial⟩

/-- In `<a {if $c}b>{/if}` the branch reports that it ends a tag of another block, and no value is
ended there. -/
theorem Template.rewrite_containers_of_report :
    ∃ t ids, Template.read "<a \x7bif $c\x7db>\x7b/if\x7d".toList .html (.startingAt 0) = .ok (t, ids)
      ∧ (t.rewrite {} ids).diagnostics ≠ []
      ∧ (∀ n ∈ walk (t.rewrite {} ids).result.nodes, n.TagFits)
      ∧ (∀ n ∈ (t.rewrite {} ids).result.nodes, n.isAttrPart = false)
      ∧ ∀ n ∈ walk (t.rewrite {} ids).result.nodes, n.BlocksFit := by
  have hcheck : (Template.read "<a \x7bif $c\x7db>\x7b/if\x7d".toList .html
      (.startingAt 0)).toOption.any (fun r => !(r.1.rewrite {} r.2).diagnostics.isEmpty
        && (r.1.rewrite {} r.2).diagnostics.all
          fun d => d.fault != .closedInOtherBlock .attributeValue) = true := by decide +kernel
  cases hread : Template.read "<a \x7bif $c\x7db>\x7b/if\x7d".toList .html (.startingAt 0) with
  | error r =>
    rw [hread] at hcheck
    cases hcheck
  | ok r =>
    obtain ⟨t, ids⟩ := r
    rw [hread] at hcheck
    obtain ⟨hsome, hquiet⟩ := Bool.and_eq_true_iff.mp hcheck
    have hquiet := fun d hd => bne_iff_ne.mp (List.all_eq_true.mp hquiet d hd)
    obtain ⟨htags, hblocks⟩ := Template.rewrite_containers hread {} ids
    refine ⟨t, ids, rfl, fun hnil => ?_, htags, hblocks hquiet⟩
    dsimp only at hsome
    rw [hnil] at hsome
    cases hsome

/-- In `<a b=x{if $c} y{/if}>` the branch ends the value of `b`, which stays open beside the tag
and comes out after it. -/
theorem Template.attr_outside_tag :
    ∃ t ids, Template.read "<a b=x\x7bif $c\x7d y\x7b/if\x7d>".toList .html (.startingAt 0)
        = .ok (t, ids)
      ∧ ∃ n ∈ (t.rewrite {} ids).result.nodes, n.isAttrPart = true := by
  have hcheck : (Template.read "<a b=x\x7bif $c\x7d y\x7b/if\x7d>".toList .html
      (.startingAt 0)).toOption.any
      (fun r => (r.1.rewrite {} r.2).result.nodes.any Node.isAttrPart) = true := by decide +kernel
  cases hread : Template.read "<a b=x\x7bif $c\x7d y\x7b/if\x7d>".toList .html
    (.startingAt 0) with
  | error r =>
    rw [hread] at hcheck
    cases hcheck
  | ok r =>
    rw [hread] at hcheck
    exact ⟨r.1, r.2, rfl, List.any_eq_true.mp hcheck⟩

end TemplateMarkup
