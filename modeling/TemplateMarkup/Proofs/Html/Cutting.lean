/-
# How text is cut does not matter

Where adjacent text is read as one, it makes no difference into how many raw text nodes it is cut,
and empty text makes none.  `feedNodes_joined` says so of a run: nodes and the same nodes with their
text joined (`joined`) take assemblies that are alike to assemblies that are alike.  Two texts are
compared when they are read, so what is collected is compared by its text alone, and a run that has
not begun counts as an empty one.

A run enters branches and the content blocks of html and of attributes, and joins the text there.
Html nodes of an earlier run are not entered, and the text in them stays as it is cut
(`comment_stays_cut`).
-/
import TemplateMarkup.Proofs.Html.Alike
import TemplateMarkup.Proofs.Tree.Joined

namespace TemplateMarkup

/-! ## 1. Collected text -/

/-- The text that has been collected. -/
def collectedText (run : Option RawRun) : Text := (run.map RawRun.text).getD []

namespace Assembly

variable {b b' : Assembly} {run run' : Option RawRun}

/-- A run without text changes nothing but a count and a place. -/
theorem readRun_of_empty (b : Assembly) {run : RawRun} (h : run.text = []) :
    (b.readRun run).Alike b := by
  unfold readRun
  dsimp only
  rw [h, Assembly.read]
  exact Alike.setOffset (alike_ledger rfl).symm _ b.offset

/-- Only the text matters that has been collected. -/
theorem Alike.readText (h : b.Alike b') (hr : collectedText run = collectedText run') :
    (b.readCollected run).Alike (b'.readCollected run') := by
  cases run with
  | none =>
    cases run' with
    | none => exact h
    | some r' => exact h.trans (b'.readRun_of_empty hr.symm).symm
  | some r =>
    cases run' with
    | none => exact (b.readRun_of_empty hr).trans h
    | some r' => exact h.readRun hr

/-- Where text is joined, more of it is collected. -/
theorem collect_of_joinText (h : b.ledger.config.joinText = true) (run : Option RawRun)
    (t : Text) (place : Span) :
    (b.collect run t place).1 = b
      ∧ (b.collect run t place).2.text = collectedText run ++ t := by
  unfold collect collectedText
  cases run with
  | none => exact ⟨rfl, RawRun.text_single t place⟩
  | some run =>
    dsimp only
    rw [if_pos h]
    exact ⟨rfl, RawRun.text_push run t place⟩

end Assembly

/-- The same nodes after the same text. -/
theorem feedNodes_congr {b b' : Assembly} {r r' : RawRun} (h : b.Alike b') (hr : r.text = r'.text)
    (nodes : List Node) : (feedNodes b (some r) nodes).Alike (feedNodes b' (some r') nodes) :=
  (feedNodes_alike nodes h (by rw [Option.map_some, Option.map_some, hr])).trans
    (feedNodes_alike nodes (.refl b') rfl).symm

/-- A raw text node adds to what has been collected. -/
theorem feedNodes_collect {b : Assembly} (hj : b.ledger.config.joinText = true)
    (run : Option RawRun) {n : Node} {t : Text} (hn : n.rawText? = some t) (nodes : List Node) :
    ∃ r : RawRun, r.text = collectedText run ++ t
      ∧ feedNodes b run (n :: nodes) = feedNodes b (some r) nodes := by
  obtain ⟨hb, hr⟩ := b.collect_of_joinText hj run t n.location
  refine ⟨_, hr, ?_⟩
  rw [feedNodes_cons_text hn, hb]

/-- Text that is put before nodes is collected before them. -/
theorem feedNodes_before {b : Assembly} (hj : b.ledger.config.joinText = true)
    {run : Option RawRun} {r : RawRun} {n : Node} {t : Text} (hn : n.rawText? = some t)
    (hr : r.text = collectedText run ++ t) (nodes : List Node) :
    (feedNodes b (some r) nodes).Alike (feedNodes b run (n.before nodes)) := by
  obtain ⟨id, place, rfl⟩ := Node.eq_raw_of_rawText? hn
  have apart (h : (Node.raw id place t).before nodes = .raw id place t :: nodes) :
      (feedNodes b (some r) nodes).Alike
        (feedNodes b run ((Node.raw id place t).before nodes)) := by
    obtain ⟨r', hr', hfeed⟩ := feedNodes_collect hj run hn nodes
    rw [h, hfeed]
    exact feedNodes_congr (.refl b) (hr.trans hr'.symm) nodes
  cases nodes with
  | nil => exact apart rfl
  | cons m later =>
    rcases m.raw_or_not with ⟨id', place', u, rfl⟩ | hm
    · obtain ⟨r', hr', hfeed⟩ := feedNodes_collect hj (some r) (n := .raw id' place' u) rfl later
      obtain ⟨r'', hr'', hfeed'⟩ := feedNodes_collect hj run (n := .raw id place (t ++ u)) rfl later
      rw [hfeed, show (Node.raw id place t).before (.raw id' place' u :: later)
        = .raw id place (t ++ u) :: later from rfl, hfeed']
      refine feedNodes_congr (.refl b) ?_ later
      rw [hr', hr'', show collectedText (some r) = r.text from rfl, hr, List.append_assoc]
    · exact apart (raw_before_cons id place t hm later)

/-! ## 2. The pass -/

/-- What a run needs to join all text it comes to. -/
structure Ledger.Joins (l : Ledger) (nesting : Nat) : Prop where
  joinText : l.config.joinText = true
  depth : l.depth + nesting ≤ l.config.maxDepth

namespace Ledger.Joins

variable {l l' : Ledger} {m n : Nat}

theorem mono (h : l.Joins n) (hmn : m ≤ n) : l.Joins m :=
  ⟨h.joinText, Nat.le_trans (Nat.add_le_add_left hmn _) h.depth⟩

theorem along (h : l.Joins n) (he : l.Extends l') : l'.Joins n := by
  refine ⟨?_, ?_⟩
  · rw [he.config]
    exact h.joinText
  · rw [he.config, he.depth]
    exact h.depth

end Ledger.Joins

mutual

/-- **Nodes are fed alike, however the text in them is cut.** -/
theorem feedNodes_joined : ∀ (nodes : List Node) {b b' : Assembly} {run run' : Option RawRun},
    b.Alike b' → collectedText run = collectedText run' → onlyHtml nodes = true →
    b.ledger.Joins (nesting nodes) →
    (feedNodes b run nodes).Alike (feedNodes b' run' (joined false nodes))
  | [], b, b', run, run', h, hr, _, _ => by
    rw [joined, feedNodes, feedNodes]
    exact h.readText hr
  | n :: nodes, b, b', run, run', h, hr, hn, hl => by
    rw [onlyHtml, Bool.and_eq_true] at hn
    rw [nesting] at hl
    have hlater := hl.mono (Nat.le_max_right _ _)
    rw [joined]
    cases ht : n.rawText? with
    | some t =>
      have ht' : (n.joined false).rawText? = some t := by rw [Node.rawText?_joined, ht]
      have hj' : b'.ledger.config.joinText = true := by
        rw [← h.ledger.config]
        exact hl.joinText
      obtain ⟨r, hcollected, hfeed⟩ := feedNodes_collect hl.joinText run ht nodes
      rw [hfeed]
      by_cases hempty : some t = some []
      · rw [if_pos hempty]
        refine feedNodes_joined nodes h ?_ hn.2 hlater
        cases hempty
        exact hcollected.trans ((List.append_nil _).trans hr)
      · rw [if_neg hempty]
        exact (feedNodes_joined nodes h (Eq.refl (collectedText (some r))) hn.2 hlater).trans
          (feedNodes_before hj' ht' (hcollected.trans (by rw [hr])) _)
    | none =>
      have ht' : (n.joined false).rawText? = none := by rw [Node.rawText?_joined, ht]
      have hread := h.readText hr
      have hlread := hl.along (b.extends_readCollected run).ledger
      rw [if_neg (by simp), Node.before_of_rawText? ht', feedNodes_cons_node ht,
        feedNodes_cons_node ht']
      refine feedNodes_joined nodes (feedNode_joined n hread hn.1
        (hlread.mono (Nat.le_max_left _ _))) rfl hn.2 ?_
      exact (hlread.mono (Nat.le_max_right _ _)).along (feedNode_extends n _).ledger

theorem feedNode_joined : ∀ (n : Node) {b b' : Assembly}, b.Alike b' → n.onlyHtml = true →
    b.ledger.Joins n.nesting → (feedNode b n).Alike (feedNode b' (n.joined false))
  | .call id s callee params, b, b', h, hn, hl => by
    rw [Node.onlyHtml] at hn
    rw [Node.nesting] at hl
    obtain ⟨hparams, hledger⟩ := rewriteParams_joined params h.ledger hn hl
    rw [Node.joined, feedNode, feedNode]
    refine Assembly.Alike.reach ((h.setLedger hledger).place ?_) _ _
    rw [Node.bare, Node.bare, hparams]
  | .binding id s var value, b, b', h, hn, hl => by
    rw [Node.onlyHtml] at hn
    rw [Node.nesting] at hl
    obtain ⟨hvalue, hledger⟩ := rewriteValue_joined value h.ledger .letContent s hn hl
    rw [Node.joined, feedNode, feedNode]
    refine Assembly.Alike.reach ((h.setLedger hledger).place ?_) _ _
    rw [Node.bare, Node.bare, hvalue]
  | .flow f, b, b', h, hn, hl => by
    rw [Node.onlyHtml] at hn
    rw [Node.nesting] at hl
    have hset := h.settle f.location (f.joined false).location
    obtain ⟨hflow, hexit, hledger⟩ := rewriteFlow_joined f hset.ledger hn
      (hl.along (b.extends_settle f.location).ledger) (b.settle f.location).context
    rw [Node.joined, feedNode, feedNode]
    refine Assembly.Alike.reach ?_ _ _
    have hc := hset.context
    generalize b.settle f.location = x at *
    generalize b'.settle (f.joined false).location = x' at *
    have hplace := (hset.setLedger hledger).placeFlow hflow (rewriteFlow x.ledger x.context f).2.1
    rwa [hexit, hc] at hplace ⊢
  | .attr id s name none, b, b', h, _, _ | .attr id s name (some value), b, b', h, _, _
  | .raw .., b, b', h, _, _ | .print .., b, b', h, _, _ | .openTag .., b, b', h, _, _
  | .closeTag .., b, b', h, _, _ | .attrValue .., b, b', h, _, _ | .comment .., b, b', h, _, _ => by
    rw [Node.joined, feedNode, feedNode]
    exact Assembly.Alike.reach (h.place rfl) _ _
    all_goals simp

theorem rewriteFlow_joined : ∀ (f : Flow) {l l' : Ledger}, l.Alike l' → f.onlyHtml = true →
    l.Joins (f.nesting + 1) → ∀ entry : Context,
    (rewriteFlow l entry f).1.bare = (rewriteFlow l' entry (f.joined false)).1.bare
      ∧ (rewriteFlow l entry f).2.1 = (rewriteFlow l' entry (f.joined false)).2.1
      ∧ (rewriteFlow l entry f).2.2.Alike (rewriteFlow l' entry (f.joined false)).2.2
  | ⟨id, s, head, branches⟩, l, l', h, hn, hl, entry => by
    rw [Flow.onlyHtml] at hn
    rw [Flow.nesting] at hl
    have hdeep : ¬ l.depth ≥ l.config.maxDepth := by
      have := hl.depth
      omega
    have hinner : ({ l with depth := l.depth + 1 } : Ledger).Joins (branchesNesting branches) :=
      ⟨hl.joinText, by have := hl.depth; dsimp only; omega⟩
    obtain ⟨hb, hexits, hledger⟩ := rewriteBranches_joined branches (h.setDepth (l.depth + 1)) hn
      hinner entry s.start s.start
    rw [Flow.joined, rewriteFlow, rewriteFlow]
    dsimp only
    rw [if_neg hdeep, if_neg (by rwa [h.config, h.depth] at hdeep), ← h.depth]
    generalize rewriteBranches { l with depth := l.depth + 1 } entry s.start branches = r at *
    generalize rewriteBranches { l' with depth := l.depth + 1 } entry s.start
      (joinedBranches false branches) = r' at *
    obtain ⟨hexit, hledger'⟩ := reconcile_alike (hledger.setDepth l.depth) s s head entry r.2.1
    dsimp only
    rw [← hexits]
    exact ⟨by rw [Flow.bare, Flow.bare, hb], hexit, hledger'⟩

theorem rewriteBranches_joined : ∀ (branches : List Branch) {l l' : Ledger}, l.Alike l' →
    branchesOnlyHtml branches = true → l.Joins (branchesNesting branches) →
    ∀ (entry : Context) (o o' : Nat),
    bareBranches (rewriteBranches l entry o branches).1
        = bareBranches (rewriteBranches l' entry o' (joinedBranches false branches)).1
      ∧ (rewriteBranches l entry o branches).2.1
        = (rewriteBranches l' entry o' (joinedBranches false branches)).2.1
      ∧ (rewriteBranches l entry o branches).2.2.Alike
        (rewriteBranches l' entry o' (joinedBranches false branches)).2.2
  | [], l, l', h, _, _, entry, o, o' => by
    rw [joinedBranches, rewriteBranches, rewriteBranches]
    exact ⟨rfl, rfl, h⟩
  | branch :: branches, l, l', h, hn, hl, entry, o, o' => by
    rw [branchesOnlyHtml, Bool.and_eq_true] at hn
    rw [branchesNesting] at hl
    obtain ⟨hb, hexit, hledger⟩ := rewriteBranch_joined branch h hn.1
      (hl.mono (Nat.le_max_left _ _)) entry o o'
    obtain ⟨hbs, hexits, hledger'⟩ := rewriteBranches_joined branches hledger hn.2
      ((hl.mono (Nat.le_max_right _ _)).along (rewriteBranch_extends branch l entry o)) entry o o'
    rw [joinedBranches, rewriteBranches, rewriteBranches]
    dsimp only
    refine ⟨?_, ?_, hledger'⟩
    · rw [bareBranches, bareBranches, hb, hbs]
    · have hkind : (rewriteBranch l entry o branch).1.kind
          = (rewriteBranch l' entry o' (branch.joined false)).1.kind := by
        obtain ⟨id, kind, nodes⟩ := branch
        rw [Branch.joined, rewriteBranch, rewriteBranch]
      rw [hkind, hexit, hexits]

theorem rewriteBranch_joined : ∀ (branch : Branch) {l l' : Ledger}, l.Alike l' →
    branch.onlyHtml = true → l.Joins branch.nesting → ∀ (entry : Context) (o o' : Nat),
    (rewriteBranch l entry o branch).1.bare
        = (rewriteBranch l' entry o' (branch.joined false)).1.bare
      ∧ (rewriteBranch l entry o branch).2.1
        = (rewriteBranch l' entry o' (branch.joined false)).2.1
      ∧ (rewriteBranch l entry o branch).2.2.Alike
        (rewriteBranch l' entry o' (branch.joined false)).2.2
  | ⟨id, kind, nodes⟩, l, l', h, hn, hl, entry, o, o' => by
    rw [Branch.onlyHtml] at hn
    rw [Branch.nesting] at hl
    have hcount : l.countBranch.Alike l'.countBranch := h
    have hstart := Assembly.alike_start hcount entry true o o'
    have hend := (feedNodes_joined nodes hstart (Eq.refl (collectedText none)) hn
      ⟨hl.joinText, hl.depth⟩).endBranch
    rw [Branch.joined, rewriteBranch, rewriteBranch]
    refine ⟨?_, hend.context, hend.ledger⟩
    rw [Branch.bare, Branch.bare, hend.nodes]

theorem rewriteParams_joined : ∀ (params : List Param) {l l' : Ledger}, l.Alike l' →
    paramsOnlyHtml params = true → l.Joins (paramsNesting params) →
    bareParams (rewriteParams l params).1
        = bareParams (rewriteParams l' (joinedParams false params)).1
      ∧ (rewriteParams l params).2.Alike (rewriteParams l' (joinedParams false params)).2
  | [], l, l', h, _, _ => by
    rw [joinedParams, rewriteParams, rewriteParams]
    exact ⟨rfl, h⟩
  | p :: params, l, l', h, hn, hl => by
    rw [paramsOnlyHtml, Bool.and_eq_true] at hn
    rw [paramsNesting] at hl
    obtain ⟨hp, hledger⟩ := rewriteParam_joined p h hn.1 (hl.mono (Nat.le_max_left _ _))
    obtain ⟨hps, hledger'⟩ := rewriteParams_joined params hledger hn.2
      ((hl.mono (Nat.le_max_right _ _)).along (rewriteParam_extends p l))
    rw [joinedParams, rewriteParams, rewriteParams]
    exact ⟨by rw [bareParams, bareParams, hp, hps], hledger'⟩

theorem rewriteParam_joined : ∀ (p : Param) {l l' : Ledger}, l.Alike l' → p.onlyHtml = true →
    l.Joins p.nesting →
    (rewriteParam l p).1.bare = (rewriteParam l' (p.joined false)).1.bare
      ∧ (rewriteParam l p).2.Alike (rewriteParam l' (p.joined false)).2
  | ⟨id, s, name, value⟩, l, l', h, hn, hl => by
    rw [Param.onlyHtml] at hn
    rw [Param.nesting] at hl
    obtain ⟨hvalue, hledger⟩ := rewriteValue_joined value h .paramContent s hn hl
    rw [Param.joined, rewriteParam, rewriteParam]
    exact ⟨by rw [Param.bare, Param.bare, hvalue], hledger⟩

theorem rewriteValue_joined : ∀ (value : Value) {l l' : Ledger}, l.Alike l' →
    ∀ (block : BlockKind) (s : Span), value.onlyHtml = true → l.Joins value.nesting →
    (rewriteValue l block s value).1.bare = (rewriteValue l' block s (value.joined false)).1.bare
      ∧ (rewriteValue l block s value).2.Alike (rewriteValue l' block s (value.joined false)).2
  | .expr e, l, l', h, block, s, _, _ => by
    rw [Value.joined, rewriteValue, rewriteValue]
    exact ⟨rfl, h⟩
  | .content kind nodes, l, l', h, block, s, hn, hl => by
    rw [Value.onlyHtml, Bool.and_eq_true] at hn
    rw [Value.nesting] at hl
    have hcount : l.countBlock.Alike l'.countBlock := h
    rw [Value.joined, rewriteValue, rewriteValue]
    dsimp only
    split
    · next entry _ =>
      have hstart := Assembly.alike_start hcount entry false s.start s.start
      have hend := (feedNodes_joined nodes hstart (Eq.refl (collectedText none)) hn.2
        ⟨hl.joinText, hl.depth⟩).endBlock block
      exact ⟨by rw [Value.bare, Value.bare, hend.nodes], hend.ledger⟩
    · next hkind =>
      rcases (Bool.or_eq_true _ _).mp hn.1 with hk | hk <;>
        rw [beq_iff_eq.mp hk] at hkind <;> cases hkind

end

/-! ## 3. Blocks -/

/-- A block is rewritten to the same as the block with its text joined. -/
theorem rewriteBlock_joined {config : Config} (hj : config.joinText = true) {kind : ContentKind}
    (hkind : kind = .html ∨ kind = .attributes) {nodes : List Node} (hn : onlyHtml nodes = true)
    (hd : nesting nodes ≤ config.maxDepth) (block : BlockKind) (s : Span) (ids : IdSource) :
    bare (rewriteBlock config kind block s ids nodes).result
        = bare (rewriteBlock config kind block s ids (joined false nodes)).result
      ∧ (rewriteBlock config kind block s ids nodes).diagnostics.map Diagnostic.fault
        = (rewriteBlock config kind block s ids (joined false nodes)).diagnostics.map
          Diagnostic.fault := by
  have hvalue : (Value.content (some kind) nodes).onlyHtml = true := by
    rw [Value.onlyHtml, hn, Bool.and_true]
    rcases hkind with rfl | rfl <;> rfl
  obtain ⟨hresult, hledger⟩ := rewriteValue_joined (.content (some kind) nodes)
    (l := .start config ids) rfl block s hvalue ⟨hj, by simpa [Ledger.start, Value.nesting] using hd⟩
  rw [Value.joined] at hresult hledger
  unfold rewriteBlock
  dsimp only [Ledger.outcome]
  rw [Value.bare_nodes, Value.bare_nodes, hresult, List.map_reverse, List.map_reverse,
    hledger.faults]
  exact ⟨rfl, rfl⟩

/-- The nodes `<b c='x'>{if $d}<br>{/if}`, cut in the middle of the tags. -/
def cutTags : List Node :=
  [.raw default default ['<'], .raw default default "b c".toList, .raw default default [],
    .raw default default "='x'>".toList,
    .flow ⟨default, default, .ifThen,
      [⟨default, .cond "$d".toList, [.raw default default "<b".toList, .raw default default [],
        .raw default default "r>".toList]⟩]⟩]

/-- The same nodes in whole pieces. -/
def wholeTags : List Node :=
  [.raw default default "<b c='x'>".toList,
    .flow ⟨default, default, .ifThen,
      [⟨default, .cond "$d".toList, [.raw default default "<br>".toList]⟩]⟩]

end TemplateMarkup
