/-
# The pass keeps every node

`Proofs.Html.Conservation` follows the nodes through one assembly.  Here they are followed through
the pass: each of its functions carries the inventory of what it is given over to what it gives, and
if it reports nothing, all of it.

What a function puts together anew, a call, a binding, control flow, a branch, keeps its own fields
whatever is reported.
-/
import TemplateMarkup.Proofs.Html.Conservation
import TemplateMarkup.Proofs.Template.Names

namespace TemplateMarkup

/-! ## 1. Blocks -/

/-- A block is put together from what was fed. -/
theorem Assembly.Yields.closed {b b' : Assembly} {extra : Multiset (Option Node)} {safe : Prop}
    (h : b.Yields extra safe b') (hb : b.cargo = 0) (hs : safe → b'.Closed) :
    b.ledger.Carries safe extra (inventory b'.nodes) b'.ledger := by
  obtain ⟨k, hmade, hle, heq⟩ := h
  rw [hb, zero_add] at hle heq
  exact ⟨k, hmade, b'.inventory_nodes_le.trans hle, fun hsafe => by
    rw [← (hs hsafe).cargo, heq hsafe]⟩

/-- Where branches are reconciled nothing is made. -/
theorem made_reconcile (l : Ledger) (location : Span) (head : FlowHead) (entry : Context)
    (exits : Exits) : (reconcile l location head entry exits).2.made = l.made :=
  reconcile_induct (P := fun l' => l'.made = l.made) (fun _ h => h) rfl head entry exits

@[simp] theorem Assembly.cargo_start (l : Ledger) (entry : Context) (inBranch : Bool)
    (offset : Nat) : (Assembly.start l entry inBranch offset).cargo = 0 := by
  simp [Assembly.cargo, Assembly.start]

/-! ## 2. The pass -/

mutual

/-- **Nodes are fed, and none is lost or doubled.** -/
theorem feedNodes_yields : ∀ (nodes : List Node) (b : Assembly) (run : Option RawRun),
    b.Yields (inventory nodes) (b.Coherent [] ∧ (feedNodes b run nodes).Clean)
      (feedNodes b run nodes)
  | [], b, run => by
    rw [feedNodes, inventory_nil]
    exact b.yields_readCollected run
  | n :: nodes, b, run => by
    rw [feedNodes, inventory_cons]
    cases ht : n.rawText? with
    | some text =>
      obtain ⟨id, location, rfl⟩ : ∃ id location, n = .raw id location text := by
        cases n <;> simp [Node.rawText?] at ht
        subst ht
        exact ⟨_, _, rfl⟩
      rw [Node.inventory_raw]
      refine ((b.yields_collect run text location).trans
        (feedNodes_yields nodes _ _)).mono fun hs => ?_
      have hc := (feedNodes_extends nodes _ _).clean hs.2
      exact ⟨⟨hs.1, hc⟩, hs.1.collect hc, hs.2⟩
    | none =>
      have h := ((b.yields_readCollected run).trans (feedNode_yields n _)).trans
        (feedNodes_yields nodes (feedNode (b.readCollected run) n) none)
      rw [zero_add] at h
      refine h.mono fun hs => ?_
      have hc := (feedNodes_extends nodes _ _).clean hs.2
      have hread := (feedNode_extends n _).clean hc
      have hcoh := hs.1.readCollected hread
      exact ⟨⟨⟨hs.1, hread⟩, hcoh, hc⟩, feedNode_coherent n _ hcoh hc, hs.2⟩

theorem feedNode_yields : ∀ (n : Node) (b : Assembly),
    b.Yields n.inventory (b.Coherent [] ∧ (feedNode b n).Clean) (feedNode b n)
  | .call id location callee params, b => by
    rw [feedNode]
    obtain ⟨hown, hkept⟩ := rewriteParams_keeps params b.ledger
    dsimp only
    rw [Node.inventory_call, ← hown]
    have hplace := Assembly.yields_place { b with ledger := (rewriteParams b.ledger params).2 }
      (.call id location callee (rewriteParams b.ledger params).1)
    rw [Node.inventory_call] at hplace
    exact (Assembly.Yields.moved ((hkept.add_left _).add_left b.cargo) hplace).mono
      fun hs => ⟨(Assembly.extends_place ..).clean hs.2, hs⟩
  | .binding id location var value, b => by
    rw [feedNode]
    obtain ⟨hown, hkept⟩ := rewriteValue_keeps value b.ledger .letContent location
    dsimp only
    rw [Node.inventory_binding, ← hown]
    have hplace := Assembly.yields_place
      { b with ledger := (rewriteValue b.ledger .letContent location value).2 }
      (.binding id location var (rewriteValue b.ledger .letContent location value).1)
    rw [Node.inventory_binding] at hplace
    exact (Assembly.Yields.moved ((hkept.add_left _).add_left b.cargo) hplace).mono
      fun hs => ⟨(Assembly.extends_place ..).clean hs.2, hs⟩
  | .flow flow, b => by
    rw [feedNode]
    dsimp only
    obtain ⟨hown, hkept⟩ := rewriteFlow_keeps flow (b.settle flow.location).ledger
      (b.settle flow.location).context
    have hext := rewriteFlow_extends flow (b.settle flow.location).ledger
      (b.settle flow.location).context
    generalize rewriteFlow (b.settle flow.location).ledger (b.settle flow.location).context flow = r
      at *
    have hsettle := b.yields_settle flow.location
    have hplace := Assembly.yields_placeFlow { b.settle flow.location with ledger := r.2.2 } r.1
      r.2.1
    rw [Node.inventory_flow] at hplace ⊢
    rw [← hown]
    have hmoved := Assembly.Yields.moved
      ((hkept.add_left _).add_left (b.settle flow.location).cargo) hplace
    refine (hsettle.after hmoved).mono fun hs => ?_
    have hc : r.2.2.Clean := (Assembly.extends_placeFlow ..).clean hs.2
    have hsettled := hs.1.settle flow.location (hext.clean hc)
    exact ⟨⟨hs.1, hext.clean hc⟩, ⟨hsettled.2, hc⟩, hsettled.1⟩
  | .raw .., b | .print .., b | .openTag .., b | .closeTag .., b | .attr .., b | .attrValue .., b
  | .comment .., b => by
    rw [feedNode]
    exact b.yields_place _
    all_goals simp

theorem rewriteFlow_keeps : ∀ (flow : Flow) (l : Ledger) (entry : Context),
    (rewriteFlow l entry flow).1.own = flow.own
      ∧ l.Carries (entry.isSettled = true ∧ (rewriteFlow l entry flow).2.2.Clean)
        (sift (walkBranches flow.branches))
        (sift (walkBranches (rewriteFlow l entry flow).1.branches)) (rewriteFlow l entry flow).2.2
  | ⟨id, location, head, branches⟩, l, entry => by
    rw [rewriteFlow]
    dsimp only
    split
    · exact ⟨rfl, .of_eq rfl rfl⟩
    · obtain ⟨hown, hkept⟩ :=
        rewriteBranches_keeps branches { l with depth := l.depth + 1 } entry location.start
      generalize rewriteBranches { l with depth := l.depth + 1 } entry location.start branches = r
        at *
      have hreported : r.2.2.Carries True (sift (walkBranches r.1)) (sift (walkBranches r.1))
          (reconcile { r.2.2 with depth := l.depth } location head entry r.2.1).2 :=
        .of_eq (made_reconcile { r.2.2 with depth := l.depth } location head entry r.2.1) rfl
      refine ⟨by simp only [Flow.own, hown], (hkept.trans hreported).mono fun hs => ?_⟩
      have hext := reconcile_extends { r.2.2 with depth := l.depth } location head entry r.2.1
      exact ⟨⟨hs.1, hext.clean hs.2⟩, trivial⟩

theorem rewriteBranches_keeps : ∀ (branches : List Branch) (l : Ledger) (entry : Context)
    (offset : Nat),
    (rewriteBranches l entry offset branches).1.map Branch.own = branches.map Branch.own
      ∧ l.Carries (entry.isSettled = true ∧ (rewriteBranches l entry offset branches).2.2.Clean)
        (sift (walkBranches branches))
        (sift (walkBranches (rewriteBranches l entry offset branches).1))
        (rewriteBranches l entry offset branches).2.2
  | [], l, entry, offset => by
    rw [rewriteBranches]
    exact ⟨rfl, .refl _⟩
  | branch :: branches, l, entry, offset => by
    rw [rewriteBranches]
    dsimp only
    obtain ⟨hown, hkept⟩ := rewriteBranch_keeps branch l entry offset
    obtain ⟨howns, hkepts⟩ := rewriteBranches_keeps branches
      (rewriteBranch l entry offset branch).2.2 entry offset
    rw [walkBranches, walkBranches, sift_append, sift_append]
    refine ⟨by rw [List.map_cons, List.map_cons, hown, howns], ?_⟩
    exact (hkept.mono fun hs => ⟨hs.1, (rewriteBranches_extends ..).clean hs.2⟩).add hkepts

theorem rewriteBranch_keeps : ∀ (branch : Branch) (l : Ledger) (entry : Context) (offset : Nat),
    (rewriteBranch l entry offset branch).1.own = branch.own
      ∧ l.Carries (entry.isSettled = true ∧ (rewriteBranch l entry offset branch).2.2.Clean)
        (sift branch.walk) (sift (rewriteBranch l entry offset branch).1.walk)
        (rewriteBranch l entry offset branch).2.2
  | ⟨id, kind, nodes⟩, l, entry, offset => by
    rw [rewriteBranch]
    dsimp only
    refine ⟨rfl, ?_⟩
    have h := (feedNodes_yields nodes (.start l.countBranch entry true offset) none).then
      (Assembly.yields_endBranch _)
    refine (h.closed (Assembly.cargo_start ..) (fun _ => Assembly.closed_endBranch _)).mono
      fun hs => ?_
    have hcoh := Assembly.coherent_start l.countBranch true offset hs.1
    have hc := (Assembly.extends_endBranch _).clean hs.2
    exact ⟨⟨hcoh, hc⟩, feedNodes_coherent nodes _ none hcoh hc⟩

theorem rewriteParams_keeps : ∀ (params : List Param) (l : Ledger),
    (rewriteParams l params).1.map Param.own = params.map Param.own
      ∧ l.Carries (rewriteParams l params).2.Clean (sift (walkParams params))
        (sift (walkParams (rewriteParams l params).1)) (rewriteParams l params).2
  | [], l => by
    rw [rewriteParams]
    exact ⟨rfl, .refl _⟩
  | p :: params, l => by
    rw [rewriteParams]
    dsimp only
    obtain ⟨hown, hkept⟩ := rewriteParam_keeps p l
    obtain ⟨howns, hkepts⟩ := rewriteParams_keeps params (rewriteParam l p).2
    rw [walkParams, walkParams, sift_append, sift_append]
    refine ⟨by rw [List.map_cons, List.map_cons, hown, howns], ?_⟩
    exact (hkept.mono fun hs => (rewriteParams_extends ..).clean hs).add hkepts

theorem rewriteParam_keeps : ∀ (p : Param) (l : Ledger),
    (rewriteParam l p).1.own = p.own
      ∧ l.Carries (rewriteParam l p).2.Clean (sift p.walk) (sift (rewriteParam l p).1.walk)
        (rewriteParam l p).2
  | ⟨id, location, name, value⟩, l => by
    rw [rewriteParam]
    dsimp only
    obtain ⟨hown, hkept⟩ := rewriteValue_keeps value l .paramContent location
    exact ⟨by simp only [Param.own, hown], hkept⟩

theorem rewriteValue_keeps : ∀ (value : Value) (l : Ledger) (block : BlockKind) (location : Span),
    (rewriteValue l block location value).1.own = value.own
      ∧ l.Carries (rewriteValue l block location value).2.Clean (sift value.walk)
        (sift (rewriteValue l block location value).1.walk) (rewriteValue l block location value).2
  | .expr expr, l, block, location => by
    rw [rewriteValue]
    exact ⟨rfl, .refl _⟩
  | .content kind nodes, l, block, location => by
    rw [rewriteValue]
    dsimp only
    split
    · next entry he =>
      refine ⟨rfl, ?_⟩
      have h := (feedNodes_yields nodes (.start l.countBlock entry false location.start) none).then
        (Assembly.yields_endBlock _ block)
      refine (h.closed (Assembly.cargo_start ..) (fun _ => Assembly.closed_closeDrafts _)).mono
        fun hc => ?_
      have hcoh := Assembly.coherent_start l.countBlock false location.start
        (Context.isSettled_of_entry? he)
      have hc' := (Assembly.extends_endBlock _ block).clean hc
      exact ⟨⟨hcoh, hc'⟩, feedNodes_coherent nodes _ none hcoh hc'⟩
    · exact ⟨rfl, enterNodes_keeps nodes l.countBlock⟩

theorem enterNodes_keeps : ∀ (nodes : List Node) (l : Ledger),
    l.Carries (enterNodes l nodes).2.Clean (inventory nodes) (inventory (enterNodes l nodes).1)
      (enterNodes l nodes).2
  | [], l => by
    rw [enterNodes]
    exact .refl _
  | n :: nodes, l => by
    rw [enterNodes]
    dsimp only
    rw [inventory_cons, inventory_cons]
    exact ((enterNode_keeps n l).mono fun hs => (enterNodes_extends ..).clean hs).add
      (enterNodes_keeps nodes _)

theorem enterNode_keeps : ∀ (n : Node) (l : Ledger),
    l.Carries (enterNode l n).2.Clean n.inventory (enterNode l n).1.inventory (enterNode l n).2
  | .call id location callee params, l => by
    rw [enterNode]
    obtain ⟨hown, hkept⟩ := rewriteParams_keeps params l
    dsimp only
    rw [Node.inventory_call, Node.inventory_call, hown]
    exact hkept.add_left _
  | .binding id location var value, l => by
    rw [enterNode]
    obtain ⟨hown, hkept⟩ := rewriteValue_keeps value l .letContent location
    dsimp only
    rw [Node.inventory_binding, Node.inventory_binding, hown]
    exact hkept.add_left _
  | .flow flow, l => by
    rw [enterNode]
    obtain ⟨hown, hkept⟩ := enterFlow_keeps flow l
    dsimp only
    rw [Node.inventory_flow, Node.inventory_flow, hown]
    exact hkept.add_left _
  | .raw .., l | .print .., l | .openTag .., l | .closeTag .., l | .attr .., l | .attrValue .., l
  | .comment .., l => by
    rw [enterNode]
    exact .refl _
    all_goals simp

theorem enterFlow_keeps : ∀ (flow : Flow) (l : Ledger),
    (enterFlow l flow).1.own = flow.own
      ∧ l.Carries (enterFlow l flow).2.Clean (sift (walkBranches flow.branches))
        (sift (walkBranches (enterFlow l flow).1.branches)) (enterFlow l flow).2
  | ⟨id, location, head, branches⟩, l => by
    rw [enterFlow]
    dsimp only
    obtain ⟨hown, hkept⟩ := enterBranches_keeps branches l
    exact ⟨by simp only [Flow.own, hown], hkept⟩

theorem enterBranches_keeps : ∀ (branches : List Branch) (l : Ledger),
    (enterBranches l branches).1.map Branch.own = branches.map Branch.own
      ∧ l.Carries (enterBranches l branches).2.Clean (sift (walkBranches branches))
        (sift (walkBranches (enterBranches l branches).1)) (enterBranches l branches).2
  | [], l => by
    rw [enterBranches]
    exact ⟨rfl, .refl _⟩
  | branch :: branches, l => by
    rw [enterBranches]
    dsimp only
    obtain ⟨hown, hkept⟩ := enterBranch_keeps branch l
    obtain ⟨howns, hkepts⟩ := enterBranches_keeps branches (enterBranch l branch).2
    rw [walkBranches, walkBranches, sift_append, sift_append]
    refine ⟨by rw [List.map_cons, List.map_cons, hown, howns], ?_⟩
    exact (hkept.mono fun hs => (enterBranches_extends ..).clean hs).add hkepts

theorem enterBranch_keeps : ∀ (branch : Branch) (l : Ledger),
    (enterBranch l branch).1.own = branch.own
      ∧ l.Carries (enterBranch l branch).2.Clean (sift branch.walk)
        (sift (enterBranch l branch).1.walk) (enterBranch l branch).2
  | ⟨id, kind, nodes⟩, l => by
    rw [enterBranch]
    exact ⟨rfl, enterNodes_keeps nodes l⟩

end

/-! ## 3. Templates -/

/-- Of the authored nodes none is doubled, and if `safe` none lost. -/
theorem Ledger.Carries.authored {l l' : Ledger} {safe : Prop} {before after : List Node}
    (h : l.Carries safe (inventory before) (inventory after) l') :
    Kept safe (TemplateMarkup.authored before) (TemplateMarkup.authored after) := by
  obtain ⟨k, -, hle, heq⟩ := h
  have hbefore : (inventory before + Multiset.replicate k none).filter (fun entry => entry.isSome)
      = (TemplateMarkup.authored before).map some := by
    rw [Multiset.filter_add, filter_inventory, add_eq_left, Multiset.filter_eq_nil]
    intro entry hentry
    rw [Multiset.eq_of_mem_replicate hentry]
    simp
  have hsome := Option.some_injective Node
  refine ⟨?_, fun hs => ?_⟩
  · rw [← Multiset.map_le_map_iff hsome, ← hbefore, ← filter_inventory]
    exact Multiset.filter_le_filter _ hle
  · rw [← (Multiset.map_injective hsome).eq_iff, ← hbefore, ← filter_inventory, heq hs]

/-- The nodes of a block, before and after. -/
theorem rewriteBlock_carries (config : Config) (kind : ContentKind) (block : BlockKind)
    (location : Span) (ids : IdSource) (nodes : List Node) :
    (Ledger.start config ids).Carries
      ((rewriteBlock config kind block location ids nodes).diagnostics = []) (inventory nodes)
      (inventory (rewriteBlock config kind block location ids nodes).result)
      (rewriteValue (.start config ids) block location (.content (some kind) nodes)).2 := by
  obtain ⟨rebuilt, hvalue⟩ := exists_rewriteValue_eq (.start config ids) block location (some kind)
    nodes
  obtain ⟨-, hkept⟩ := rewriteValue_keeps (.content (some kind) nodes) (.start config ids) block
    location
  have hresult : (rewriteBlock config kind block location ids nodes).result = rebuilt := by
    unfold rewriteBlock
    dsimp only [Ledger.outcome]
    rw [hvalue]
    rfl
  rw [hresult]
  rw [hvalue, Value.walk, Value.walk] at hkept
  exact hkept.mono fun hs => List.reverse_eq_nil_iff.mp hs

/-- Its authored nodes. -/
theorem rewriteBlock_keeps (config : Config) (kind : ContentKind) (block : BlockKind)
    (location : Span) (ids : IdSource) (nodes : List Node) :
    Kept ((rewriteBlock config kind block location ids nodes).diagnostics = []) (authored nodes)
      (authored (rewriteBlock config kind block location ids nodes).result) :=
  (rewriteBlock_carries config kind block location ids nodes).authored

/-- **No node of a template is lost or doubled.**  Each print, call, binding and control-flow node
of a template that was read, known by its name, occurs at most once in the rewritten template; if
nothing is reported it occurs exactly once, and its own fields are what they were. -/
theorem Template.rewrite_keeps_nodes {src : Text} {kind : ContentKind} {ids ids' : IdSource}
    {t : Template} (hread : Template.read src kind ids = .ok (t, ids'))
    (hdraws : Template.draws src ids < 2 ^ 32) (config : Config) (fresh : IdSource) {n : Node}
    (hn : n ∈ walk t.nodes) (ha : n.isAuthored = true) :
    (occurrences n.id (t.rewrite config fresh).result.nodes).length ≤ 1
      ∧ ((t.rewrite config fresh).diagnostics = [] →
        ∃ m, occurrences n.id (t.rewrite config fresh).result.nodes = [m] ∧ m.own = n.own) := by
  have hone := Template.occurrences_of_read hread hdraws hn ha
  obtain ⟨hle, heq⟩ := rewriteBlock_keeps config t.kind .template t.location fresh t.nodes
  refine ⟨?_, fun hclean => ?_⟩
  · have := length_occurrences_le hle n.id
    rwa [hone] at this
  · have hperm := occurrences_perm (heq hclean) n.id
    rw [hone, List.map_singleton, List.perm_singleton] at hperm
    obtain ⟨m, hm, hown⟩ := List.map_eq_singleton_iff.mp hperm
    exact ⟨m, hm, hown⟩

/-- In `{if $a}<b {$x}>{/if}` the print becomes the name of an attribute. -/
theorem Template.rewrite_keeps_computed_name :
    ∃ t ids n,
      Template.read "\x7bif $a\x7d<b \x7b$x\x7d>\x7b/if\x7d".toList .html (.startingAt 0)
        = .ok (t, ids)
      ∧ n ∈ walk t.nodes ∧ n.isAuthored = true ∧ (t.rewrite {} ids).diagnostics = []
      ∧ (occurrences n.id (t.rewrite {} ids).result.nodes).length ≤ 1
      ∧ ∃ m, occurrences n.id (t.rewrite {} ids).result.nodes = [m] ∧ m.own = n.own := by
  have hdraws : Template.draws "\x7bif $a\x7d<b \x7b$x\x7d>\x7b/if\x7d".toList (.startingAt 0)
      < 2 ^ 32 := by decide +kernel
  have hcheck : (Template.read "\x7bif $a\x7d<b \x7b$x\x7d>\x7b/if\x7d".toList .html
      (.startingAt 0)).toOption.any
      (fun r => (walk r.1.nodes)[2]?.any Node.isAuthored
        && (r.1.rewrite {} r.2).diagnostics.isEmpty) = true := by decide +kernel
  cases hread : Template.read "\x7bif $a\x7d<b \x7b$x\x7d>\x7b/if\x7d".toList .html
    (.startingAt 0) with
  | error r =>
    rw [hread] at hcheck
    cases hcheck
  | ok r =>
    obtain ⟨t, ids⟩ := r
    rw [hread] at hcheck
    obtain ⟨hn, hclean⟩ := Bool.and_eq_true_iff.mp hcheck
    cases hget : (walk t.nodes)[2]? with
    | none =>
      simp [hget] at hn
    | some n =>
      have ha : n.isAuthored = true := by simpa [hget] using hn
      have hmem := List.mem_of_getElem? hget
      have hclean := List.isEmpty_iff.mp hclean
      have h := Template.rewrite_keeps_nodes hread hdraws {} ids hmem ha
      exact ⟨t, ids, n, rfl, hmem, ha, hclean, h.1, h.2 hclean⟩

end TemplateMarkup
