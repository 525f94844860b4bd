/-
# The values of attributes

While nothing is reported, every attribute that has a value has one that is a value, or control flow
that gives one in every branch (`Template.rewrite_supplied`): exactly one node of a branch gives the
value, none is an attribute, and no attribute stands in the control flow in front of the value.

In control flow behind the value attributes may stand (`Template.attr_behind_value`).  What a branch
has given is known to the branch alone (`slotFilled`); control flow behind the value begins in the
tag, as it would among the attributes, and a branch of it has been given nothing.
-/
import TemplateMarkup.Proofs.Html.Bearing
import TemplateMarkup.Proofs.Html.Giving

namespace TemplateMarkup

/-! ## 1. Trees -/

/-- What an attribute has for a value gives one. -/
def Node.Supplied : Node → Prop
  | .attr _ _ _ (some value) => value.Gives
  | _ => True

/-- Attributes are supplied if all that is given as a value gives one. -/
theorem Node.builds_supplied : Node.Builds Node.Supplied (fun _ => True) Node.Gives where
  raw _ _ _ := trivial
  openTag _ _ _ _ _ _ _ _ := trivial
  closeTag _ _ _ _ := trivial
  attr _ _ _ value _ hv := by
    cases value with
    | none => trivial
    | some v => exact (hv v rfl).2
  attr_among _ _ _ _ := trivial
  attrValue _ _ _ _ _ := trivial
  attrValue_gives _ _ _ _ := ⟨rfl, fun _ => rfl⟩
  comment _ _ _ _ := trivial

/-- There are no attributes in the source. -/
theorem Node.supplied_of_isWritten {n : Node} (h : n.isWritten = true) : n.Supplied := by
  cases n <;> trivial

/-- All attributes in the nodes are supplied. -/
def AllSupplied (nodes : List Node) : Prop := ∀ n ∈ walk nodes, n.Supplied

/-- All attributes in the assembly are supplied. -/
abbrev Assembly.Supplied (b : Assembly) : Prop := b.Bears (Node.Deep Node.Supplied) fun _ => True

theorem deep_call {P : Node → Prop} {id : NodeId} {s : Span} {callee : Text} {params : List Param} :
    (Node.call id s callee params).Deep P
      ↔ P (.call id s callee params) ∧ ∀ m ∈ walkParams params, P m := by
  rw [Node.Deep, Node.walk, List.forall_mem_cons]

theorem deep_binding {P : Node → Prop} {id : NodeId} {s : Span} {var : Text} {value : Value} :
    (Node.binding id s var value).Deep P
      ↔ P (.binding id s var value) ∧ ∀ m ∈ value.walk, P m := by
  rw [Node.Deep, Node.walk, List.forall_mem_cons]

theorem deep_flow {P : Node → Prop} {f : Flow} :
    (Node.flow f).Deep P ↔ P (.flow f) ∧ ∀ m ∈ walkBranches f.branches, P m := by
  obtain ⟨id, s, head, branches⟩ := f
  rw [Node.Deep, Node.walk, List.forall_mem_cons, Flow.walk]

/-! ## 2. The pass -/

mutual

/-- **Nodes that are fed to an assembly keep its attributes supplied**, if nothing is reported. -/
theorem feedNodes_supplied : ∀ (nodes : List Node) (b : Assembly) (run : Option RawRun),
    AllWritten nodes → b.Supplied → b.Coherent [] → (feedNodes b run nodes).Clean →
    (feedNodes b run nodes).Supplied
  | [], b, run, _, h, _, _ => by
    rw [feedNodes]
    exact h.readCollected Node.builds_supplied.deep run
  | n :: nodes, b, run, hw, h, hcoh, hc => by
    obtain ⟨hn, hnodes⟩ := written_cons.mp hw
    rw [feedNodes] at hc ⊢
    cases ht : n.rawText? with
    | some text =>
      simp only [ht] at hc ⊢
      have hc' := (feedNodes_extends nodes _ _).clean hc
      exact feedNodes_supplied nodes _ _ hnodes (h.collect Node.builds_supplied.deep ..)
        (hcoh.collect hc') hc
    | none =>
      simp only [ht] at hc ⊢
      have hc' := (feedNodes_extends nodes _ _).clean hc
      have hread := hcoh.readCollected ((feedNode_extends n _).clean hc')
      exact feedNodes_supplied nodes _ none hnodes
        (feedNode_supplied n _ hn (h.readCollected Node.builds_supplied.deep run) hread hc')
        (feedNode_coherent n _ hread hc') hc

theorem feedNode_supplied : ∀ (n : Node) (b : Assembly), n.Deep (·.isWritten = true) →
    b.Supplied → b.Coherent [] → (feedNode b n).Clean → (feedNode b n).Supplied
  | .call id location callee params, b, hw, h, hcoh, hc => by
    rw [feedNode] at hc ⊢
    have hc' := (Assembly.extends_place ..).clean ((Assembly.extends_reach ..).clean hc)
    have hparams := rewriteParams_supplied params b.ledger (deep_call.mp hw).2 hc'
    exact ((h.ledger _).place Node.builds_supplied.deep (deep_call.mpr ⟨trivial, hparams⟩)
      (.inr trivial)).reach _
  | .binding id location var value, b, hw, h, hcoh, hc => by
    rw [feedNode] at hc ⊢
    have hc' := (Assembly.extends_place ..).clean ((Assembly.extends_reach ..).clean hc)
    have hvalue :=
      rewriteValue_supplied value b.ledger .letContent location (deep_binding.mp hw).2 hc'
    exact ((h.ledger _).place Node.builds_supplied.deep (deep_binding.mpr ⟨trivial, hvalue⟩)
      (.inr trivial)).reach _
  | .flow flow, b, hw, h, hcoh, hc => by
    rw [feedNode] at hc ⊢
    have hc' := (Assembly.extends_placeFlow ..).clean ((Assembly.extends_reach ..).clean hc)
    have hsettle := h.settle Node.builds_supplied.deep flow.location
    obtain ⟨-, hset⟩ := hcoh.settle flow.location ((rewriteFlow_extends flow _ _).clean hc')
    have hwritten : ∀ m ∈ flow.walk, m.isWritten = true :=
      fun m hm => hw m (by rw [Node.walk]; exact List.mem_cons_of_mem _ hm)
    have hflow := rewriteFlow_supplied flow _ _ hwritten hset hc'
    have hsupply := rewriteFlow_supplies flow _ _ hwritten hc'
    generalize b.settle flow.location = b' at *
    generalize rewriteFlow b'.ledger b'.context flow = r at *
    refine ((hsettle.ledger r.2.2).placeFlow Node.builds_supplied.deep
      (deep_flow.mpr ⟨trivial, hflow⟩) trivial fun hb hx => ?_).reach _
    rw [show b'.context = .beforeAttrValue from hb, hx] at hsupply
    exact hsupply
  | .raw .., b, hw, h, _, _ | .print .., b, hw, h, _, _ | .openTag .., b, hw, h, _, _
  | .closeTag .., b, hw, h, _, _ | .attr .., b, hw, h, _, _ | .attrValue .., b, hw, h, _, _
  | .comment .., b, hw, h, _, _ => by
    rw [feedNode]
    · exact (h.place Node.builds_supplied.deep (fun m hm => Node.supplied_of_isWritten (hw m hm))
        (.inr trivial)).reach _
    all_goals simp

theorem rewriteFlow_supplied : ∀ (flow : Flow) (l : Ledger) (entry : Context),
    (∀ m ∈ flow.walk, m.isWritten = true) → entry.isSettled = true →
    (rewriteFlow l entry flow).2.2.Clean →
    ∀ m ∈ walkBranches (rewriteFlow l entry flow).1.branches, m.Supplied
  | ⟨id, location, head, branches⟩, l, entry, hw, he, hc => by
    rw [Flow.walk] at hw
    rw [rewriteFlow] at hc ⊢
    dsimp only at hc ⊢
    split at hc
    · exact absurd hc (Ledger.not_clean_report _ _ _)
    · next hd =>
      rw [if_neg hd]
      have hc' := (reconcile_extends _ location head entry _).clean hc
      exact rewriteBranches_supplied branches _ entry location.start hw he hc'

theorem rewriteBranches_supplied : ∀ (branches : List Branch) (l : Ledger) (entry : Context)
    (offset : Nat), WrittenBranches branches → entry.isSettled = true →
    (rewriteBranches l entry offset branches).2.2.Clean →
    ∀ m ∈ walkBranches (rewriteBranches l entry offset branches).1, m.Supplied
  | [], l, entry, offset, _, _, _ => by
    rw [rewriteBranches, walkBranches]
    exact fun m hm => by cases hm
  | branch :: branches, l, entry, offset, hw, he, hc => by
    rw [WrittenBranches, walkBranches, List.forall_mem_append] at hw
    rw [rewriteBranches] at hc ⊢
    dsimp only at hc ⊢
    rw [walkBranches, List.forall_mem_append]
    exact ⟨rewriteBranch_supplied branch l entry offset hw.1 he
      ((rewriteBranches_extends branches _ entry offset).clean hc),
      rewriteBranches_supplied branches _ entry offset hw.2 he hc⟩

theorem rewriteBranch_supplied : ∀ (branch : Branch) (l : Ledger) (entry : Context)
    (offset : Nat), (∀ m ∈ branch.walk, m.isWritten = true) → entry.isSettled = true →
    (rewriteBranch l entry offset branch).2.2.Clean →
    ∀ m ∈ (rewriteBranch l entry offset branch).1.walk, m.Supplied
  | ⟨id, kind, nodes⟩, l, entry, offset, hw, he, hc => by
    rw [Branch.walk] at hw
    rw [rewriteBranch] at hc ⊢
    dsimp only at hc ⊢
    have hfed := feedNodes_supplied nodes (.start l.countBranch entry true offset) none hw
      (Assembly.bears_start ..) (Assembly.coherent_start _ true offset he)
      ((Assembly.extends_endBranch _).clean hc)
    rw [Branch.walk]
    exact forall_mem_walk.mpr fun n hn =>
      (hfed.endBranch Node.builds_supplied.deep).out n (List.mem_reverse.mp hn)

theorem rewriteParams_supplied : ∀ (params : List Param) (l : Ledger), WrittenParams params →
    (rewriteParams l params).2.Clean → ∀ m ∈ walkParams (rewriteParams l params).1, m.Supplied
  | [], l, _, _ => by
    rw [rewriteParams, walkParams]
    exact fun m hm => by cases hm
  | ⟨id, location, name, value⟩ :: params, l, hw, hc => by
    rw [WrittenParams, walkParams, List.forall_mem_append, Param.walk] at hw
    rw [rewriteParams, rewriteParam] at hc ⊢
    dsimp only at hc ⊢
    rw [walkParams, List.forall_mem_append, Param.walk]
    exact ⟨rewriteValue_supplied value l .paramContent location hw.1
      ((rewriteParams_extends params _).clean hc), rewriteParams_supplied params _ hw.2 hc⟩

/-- **All attributes of a content block are supplied.** -/
theorem rewriteValue_supplied : ∀ (value : Value) (l : Ledger) (block : BlockKind)
    (location : Span), value.Written → (rewriteValue l block location value).2.Clean →
    ∀ m ∈ (rewriteValue l block location value).1.walk, m.Supplied
  | .expr expr, l, block, location, _, _ => by
    rw [rewriteValue, Value.walk]
    exact fun m hm => by cases hm
  | .content kind nodes, l, block, location, hw, hc => by
    rw [Value.Written, Value.walk] at hw
    rw [rewriteValue] at hc ⊢
    dsimp only at hc ⊢
    split at hc
    · next entry hentry =>
      have hfed := feedNodes_supplied nodes (.start l.countBlock entry false location.start) none hw
        (Assembly.bears_start ..)
        (Assembly.coherent_start _ false _ (Context.isSettled_of_entry? hentry))
        ((Assembly.extends_endBlock _ block).clean hc)
      rw [Value.walk]
      exact forall_mem_walk.mpr fun n hn =>
        (hfed.endBlock Node.builds_supplied.deep block).out n (List.mem_reverse.mp hn)
    · exact enterNodes_supplied nodes l.countBlock hw hc

theorem enterNodes_supplied : ∀ (nodes : List Node) (l : Ledger), AllWritten nodes →
    (enterNodes l nodes).2.Clean → AllSupplied (enterNodes l nodes).1
  | [], l, _, _ => by
    rw [enterNodes, AllSupplied, walk]
    exact fun m hm => by cases hm
  | n :: nodes, l, hw, hc => by
    obtain ⟨hn, hnodes⟩ := written_cons.mp hw
    rw [enterNodes] at hc ⊢
    dsimp only at hc ⊢
    rw [AllSupplied, walk, List.forall_mem_append]
    exact ⟨enterNode_supplied n l hn ((enterNodes_extends nodes _).clean hc),
      enterNodes_supplied nodes _ hnodes hc⟩

theorem enterNode_supplied : ∀ (n : Node) (l : Ledger), n.Deep (·.isWritten = true) →
    (enterNode l n).2.Clean → (enterNode l n).1.Deep Node.Supplied
  | .call id location callee params, l, hw, hc => by
    rw [enterNode] at hc ⊢
    exact deep_call.mpr ⟨trivial, rewriteParams_supplied params l (deep_call.mp hw).2 hc⟩
  | .binding id location var value, l, hw, hc => by
    rw [enterNode] at hc ⊢
    exact deep_binding.mpr
      ⟨trivial, rewriteValue_supplied value l .letContent location (deep_binding.mp hw).2 hc⟩
  | .flow flow, l, hw, hc => by
    rw [enterNode] at hc ⊢
    exact deep_flow.mpr ⟨trivial, enterFlow_supplied flow l (deep_flow.mp hw).2 hc⟩
  | .raw .., l, hw, _ | .print .., l, hw, _ | .openTag .., l, hw, _ | .closeTag .., l, hw, _
  | .attr .., l, hw, _ | .attrValue .., l, hw, _ | .comment .., l, hw, _ => by
    rw [enterNode]
    · exact fun m hm => Node.supplied_of_isWritten (hw m hm)
    all_goals simp

theorem enterFlow_supplied : ∀ (flow : Flow) (l : Ledger), WrittenBranches flow.branches →
    (enterFlow l flow).2.Clean → ∀ m ∈ walkBranches (enterFlow l flow).1.branches, m.Supplied
  | ⟨id, location, head, branches⟩, l, hw, hc => by
    rw [enterFlow] at hc ⊢
    exact enterBranches_supplied branches l hw hc

theorem enterBranches_supplied : ∀ (branches : List Branch) (l : Ledger),
    WrittenBranches branches → (enterBranches l branches).2.Clean →
    ∀ m ∈ walkBranches (enterBranches l branches).1, m.Supplied
  | [], l, _, _ => by
    rw [enterBranches, walkBranches]
    exact fun m hm => by cases hm
  | ⟨id, kind, nodes⟩ :: branches, l, hw, hc => by
    rw [WrittenBranches, walkBranches, List.forall_mem_append, Branch.walk] at hw
    rw [enterBranches, enterBranch] at hc ⊢
    dsimp only at hc ⊢
    rw [walkBranches, List.forall_mem_append, Branch.walk]
    exact ⟨enterNodes_supplied nodes l hw.1 ((enterBranches_extends branches _).clean hc),
      enterBranches_supplied branches _ hw.2 hc⟩

end

/-! ## 3. Templates -/

/-- **The value of an attribute is a value, or control flow that gives one in every branch.**  In a
branch exactly one node gives the value and none is an attribute, and so in all control flow that
gives it; no attribute stands in the control flow at any depth, unless a branch goes on with control
flow behind its value. -/
theorem Template.rewrite_supplied {src : Text} {kind : ContentKind} {ids ids' : IdSource}
    {t : Template} (hread : Template.read src kind ids = .ok (t, ids')) (config : Config)
    (fresh : IdSource) (hquiet : (t.rewrite config fresh).diagnostics = []) {id : NodeId} {s : Span}
    {name value : Node}
    (hattr : Node.attr id s name (some value) ∈ walk (t.rewrite config fresh).result.nodes) :
    value.givesValue = true ∧ (value.trailsFlow = false → value.holdsAttr = false) := by
  have hw := Template.written_of_read hread
  have hsupplied := rewriteValue_supplied (.content (some t.kind) t.nodes) (.start config fresh)
    .template t.location (by rw [Value.Written, Value.walk]; exact hw)
  obtain ⟨nodes, hvalue⟩ := exists_rewriteValue_eq (.start config fresh) .template t.location
    (some t.kind) t.nodes
  unfold Template.rewrite rewriteBlock at hattr hquiet
  dsimp only [Ledger.outcome] at hattr hquiet
  rw [hvalue] at hattr hsupplied
  rw [Value.walk] at hsupplied
  exact hsupplied (List.reverse_eq_nil_iff.mp hquiet) _ hattr

/-- The value that an attribute has. -/
def Node.given? : Node → Option Node
  | .attr _ _ _ value => value
  | _ => none

theorem Node.eq_of_given? {n value : Node} (h : n.given? = some value) :
    ∃ id s name, n = .attr id s name (some value) := by
  cases n <;> cases h
  exact ⟨_, _, _, rfl⟩

/-- In `<a b={if $c}"x"{elseif $d}{switch $e}{case 1}y{default}{$z}{/switch}{else}"w"{/if}>` the
value of `b` is given in branches of branches. -/
theorem Template.rewrite_supplied_branches :
    ∃ t ids, Template.read ("<a b=\x7bif $c\x7d\"x\"\x7belseif $d\x7d\x7bswitch $e\x7d" ++
      "\x7bcase 1\x7dy\x7bdefault\x7d\x7b$z\x7d\x7b/switch\x7d\x7belse\x7d\"w\"\x7b/if\x7d>").toList
        .html (.startingAt 0) = .ok (t, ids)
      ∧ (t.rewrite {} ids).diagnostics = []
      ∧ ∃ id s name value,
        Node.attr id s name (some value) ∈ walk (t.rewrite {} ids).result.nodes
        ∧ value.isFlow = true ∧ value.givesValue = true ∧ value.holdsAttr = false := by
  have hcheck : (Template.read ("<a b=\x7bif $c\x7d\"x\"\x7belseif $d\x7d\x7bswitch $e\x7d" ++
      "\x7bcase 1\x7dy\x7bdefault\x7d\x7b$z\x7d\x7b/switch\x7d\x7belse\x7d\"w\"\x7b/if\x7d>").toList
      .html (.startingAt 0)).toOption.any (fun r => (r.1.rewrite {} r.2).diagnostics.isEmpty
        && (walk (r.1.rewrite {} r.2).result.nodes).any fun n => n.given?.any fun value =>
          value.isFlow && !value.trailsFlow) = true := by decide +kernel
  cases hread : Template.read ("<a b=\x7bif $c\x7d\"x\"\x7belseif $d\x7d\x7bswitch $e\x7d" ++
      "\x7bcase 1\x7dy\x7bdefault\x7d\x7b$z\x7d\x7b/switch\x7d\x7belse\x7d\"w\"\x7b/if\x7d>").toList
      .html (.startingAt 0) with
  | error r =>
    rw [hread] at hcheck
    cases hcheck
  | ok r =>
    rw [hread] at hcheck
    obtain ⟨hquiet, hattrs⟩ := Bool.and_eq_true_iff.mp hcheck
    obtain ⟨n, hn, hvalue⟩ := List.any_eq_true.mp hattrs
    obtain ⟨value, hgiven, hvalue⟩ := (Option.any_eq_true ..).mp hvalue
    obtain ⟨hflow, htrails⟩ := Bool.and_eq_true_iff.mp hvalue
    obtain ⟨id, s, name, rfl⟩ := Node.eq_of_given? hgiven
    obtain ⟨hgives, hholds⟩ :=
      Template.rewrite_supplied hread {} r.2 (List.isEmpty_iff.mp hquiet) hn
    exact ⟨r.1, r.2, rfl, List.isEmpty_iff.mp hquiet, id, s, name, value, hn, hflow, hgives,
      hholds (by simpa using htrails)⟩

/-- In `<a b={if $c}"x"{if $d} y{/if}{else}"z"{/if}>` nothing is reported, and the value of `b`
holds the attribute `y`. -/
theorem Template.attr_behind_value :
    ∃ t ids, Template.read ("<a b=\x7bif $c\x7d\"x\"\x7bif $d\x7d y\x7b/if\x7d" ++
        "\x7belse\x7d\"z\"\x7b/if\x7d>").toList .html (.startingAt 0) = .ok (t, ids)
      ∧ (t.rewrite {} ids).diagnostics = []
      ∧ ∃ id s name value, Node.attr id s name (some value) ∈ walk (t.rewrite {} ids).result.nodes
        ∧ value.holdsAttr = true := by
  have hcheck : (Template.read ("<a b=\x7bif $c\x7d\"x\"\x7bif $d\x7d y\x7b/if\x7d" ++
      "\x7belse\x7d\"z\"\x7b/if\x7d>").toList .html (.startingAt 0)).toOption.any
      (fun r => (r.1.rewrite {} r.2).diagnostics.isEmpty
        && (walk (r.1.rewrite {} r.2).result.nodes).any fun n => n.given?.any Node.holdsAttr)
        = true := by decide +kernel
  cases hread : Template.read ("<a b=\x7bif $c\x7d\"x\"\x7bif $d\x7d y\x7b/if\x7d" ++
      "\x7belse\x7d\"z\"\x7b/if\x7d>").toList .html (.startingAt 0) with
  | error r =>
    rw [hread] at hcheck
    cases hcheck
  | ok r =>
    rw [hread] at hcheck
    obtain ⟨hquiet, hattrs⟩ := Bool.and_eq_true_iff.mp hcheck
    obtain ⟨n, hn, hvalue⟩ := List.any_eq_true.mp hattrs
    obtain ⟨value, hgiven, hholds⟩ := (Option.any_eq_true ..).mp hvalue
    obtain ⟨id, s, name, rfl⟩ := Node.eq_of_given? hgiven
    exact ⟨r.1, r.2, rfl, List.isEmpty_iff.mp hquiet, id, s, name, value, hn, hholds⟩

end TemplateMarkup
