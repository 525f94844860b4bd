/-
# Html inlaid in other text

A block of text, css, js or of a uri holds no html of its own, but the content of a `{let}` or of a
`{param}` in it may be html, or attributes.  `inlaid` lists these blocks in source order: the run
looks for them in branches and in content of the kinds that hold no html, and not in the blocks
themselves.  `inlay` puts other nodes in their places and keeps all that is around them, names and
locations included.

Such a block is entered and never altered: what comes of it is the same tree, with each inlaid block
as it is when rewritten by itself, one after the other (`rewriteBlock_of_inlaid`).
-/
import TemplateMarkup.Proofs.Html.Course

namespace TemplateMarkup

/-! ## 1. Inlaid blocks -/

/-- Content of the kind is read as html, from a tag's outside or from its inside. -/
def ContentKind.holdsHtml : ContentKind → Bool
  | html | attributes => true
  | text | css | js | uri | trustedResourceUri => false

theorem ContentKind.isSome_entry? (kind : ContentKind) :
    (Context.entry? kind).isSome = kind.holdsHtml := by
  cases kind <;> rfl

/-- A content block of html or of attributes. -/
structure InlaidBlock where
  /-- Whether it is a binding's or a parameter's. -/
  block : BlockKind
  /-- Where the binding or the parameter stands. -/
  location : Span
  kind : ContentKind
  nodes : List Node

mutual

/-- The blocks that are inlaid in the node. -/
def Node.inlaid : Node → List InlaidBlock
  | .call _ _ _ params => paramsInlaid params
  | .binding _ location _ value => value.inlaid .letContent location
  | .flow f => f.inlaid
  | _ => []

/-- The blocks that are inlaid in the nodes, in source order. -/
def inlaid : List Node → List InlaidBlock
  | [] => []
  | n :: nodes => n.inlaid ++ inlaid nodes

/-- The value itself, if it is html, and else the blocks that are inlaid in it. -/
def Value.inlaid (block : BlockKind) (location : Span) : Value → List InlaidBlock
  | .expr _ => []
  | .content kind nodes =>
    if (declaredOrHtml kind).holdsHtml then [⟨block, location, declaredOrHtml kind, nodes⟩]
    else TemplateMarkup.inlaid nodes

/-- The blocks that are inlaid in the parameters. -/
def paramsInlaid : List Param → List InlaidBlock
  | [] => []
  | p :: params => p.inlaid ++ paramsInlaid params

/-- The blocks that are inlaid in the parameter. -/
def Param.inlaid : Param → List InlaidBlock
  | ⟨_, location, _, value⟩ => value.inlaid .paramContent location

/-- The blocks that are inlaid in the control flow. -/
def Flow.inlaid : Flow → List InlaidBlock
  | ⟨_, _, _, branches⟩ => branchesInlaid branches

/-- The blocks that are inlaid in the branches. -/
def branchesInlaid : List Branch → List InlaidBlock
  | [] => []
  | branch :: branches => branch.inlaid ++ branchesInlaid branches

/-- The blocks that are inlaid in the branch. -/
def Branch.inlaid : Branch → List InlaidBlock
  | ⟨_, _, nodes⟩ => TemplateMarkup.inlaid nodes

end

mutual

/-- The node with the first of `new` in its inlaid blocks, and what is left of `new`. -/
def Node.inlay (new : List (List Node)) : Node → Node × List (List Node)
  | .call id location callee params =>
    let (params, new) := inlayParams new params
    (.call id location callee params, new)
  | .binding id location var value =>
    let (value, new) := value.inlay new
    (.binding id location var value, new)
  | .flow f =>
    let (f, new) := f.inlay new
    (.flow f, new)
  | n => (n, new)

/-- The nodes with the first of `new` in their inlaid blocks, in order, and what is left of
`new`. -/
def inlay (new : List (List Node)) : List Node → List Node × List (List Node)
  | [] => ([], new)
  | n :: nodes =>
    let (first, new) := n.inlay new
    let (later, new) := inlay new nodes
    (first :: later, new)

/-- The value with the first of `new` in its inlaid blocks, and what is left of `new`. -/
def Value.inlay (new : List (List Node)) : Value → Value × List (List Node)
  | .expr e => (.expr e, new)
  | .content kind nodes =>
    if (declaredOrHtml kind).holdsHtml then (.content kind (new.headD nodes), new.tail)
    else
      let (nodes, new) := TemplateMarkup.inlay new nodes
      (.content kind nodes, new)

/-- The parameters with the first of `new` in their inlaid blocks, and what is left of `new`. -/
def inlayParams (new : List (List Node)) : List Param → List Param × List (List Node)
  | [] => ([], new)
  | p :: params =>
    let (first, new) := p.inlay new
    let (later, new) := inlayParams new params
    (first :: later, new)

/-- The parameter with the first of `new` in its inlaid blocks, and what is left of `new`. -/
def Param.inlay (new : List (List Node)) : Param → Param × List (List Node)
  | ⟨id, location, name, value⟩ =>
    let (value, new) := value.inlay new
    (⟨id, location, name, value⟩, new)

/-- The control flow with the first of `new` in its inlaid blocks, and what is left of `new`. -/
def Flow.inlay (new : List (List Node)) : Flow → Flow × List (List Node)
  | ⟨id, location, head, branches⟩ =>
    let (branches, new) := inlayBranches new branches
    (⟨id, location, head, branches⟩, new)

/-- The branches with the first of `new` in their inlaid blocks, and what is left of `new`. -/
def inlayBranches (new : List (List Node)) : List Branch → List Branch × List (List Node)
  | [] => ([], new)
  | branch :: branches =>
    let (first, new) := branch.inlay new
    let (later, new) := inlayBranches new branches
    (first :: later, new)

/-- The branch with the first of `new` in its inlaid blocks, and what is left of `new`. -/
def Branch.inlay (new : List (List Node)) : Branch → Branch × List (List Node)
  | ⟨id, kind, nodes⟩ =>
    let (nodes, new) := TemplateMarkup.inlay new nodes
    (⟨id, kind, nodes⟩, new)

end

/-- Gives structure to the html of inlaid blocks, each by itself, one after the other. -/
def rewriteInlaid (config : Config) (ids : IdSource) :
    List InlaidBlock → Rewritten (List (List Node))
  | [] => ⟨[], ids, [], {}⟩
  | b :: blocks =>
    let first := rewriteBlock config b.kind b.block b.location ids b.nodes
    let later := rewriteInlaid config first.ids blocks
    ⟨first.result :: later.result, later.ids, first.diagnostics ++ later.diagnostics,
      first.stats.add later.stats⟩

/-! ## 2. Nothing in the place of nothing -/

mutual

/-- Nodes in which no block is inlaid stay as they are, and take none of the new nodes. -/
theorem inlay_of_inlaid : ∀ {nodes : List Node} (new : List (List Node)), inlaid nodes = [] →
    inlay new nodes = (nodes, new)
  | [], new, _ => by rw [inlay]
  | n :: nodes, new, h => by
    rw [inlaid, List.append_eq_nil_iff] at h
    simp only [inlay, n.inlay_of_inlaid new h.1, inlay_of_inlaid new h.2]

theorem Node.inlay_of_inlaid : ∀ (n : Node) (new : List (List Node)), n.inlaid = [] →
    n.inlay new = (n, new)
  | .call id location callee params, new, h => by
    rw [Node.inlaid] at h
    rw [Node.inlay, inlayParams_of_inlaid new h]
  | .binding id location var value, new, h => by
    rw [Node.inlaid] at h
    rw [Node.inlay, value.inlay_of_inlaid new h]
  | .flow f, new, h => by
    rw [Node.inlaid] at h
    rw [Node.inlay, f.inlay_of_inlaid new h]
  | .raw .., new, h | .print .., new, h | .openTag .., new, h | .closeTag .., new, h
  | .attr .., new, h | .attrValue .., new, h | .comment .., new, h => by
    rw [Node.inlay]
    all_goals simp

theorem Value.inlay_of_inlaid {block : BlockKind} {location : Span} : ∀ (value : Value)
    (new : List (List Node)), value.inlaid block location = [] → value.inlay new = (value, new)
  | .expr e, new, _ => by rw [Value.inlay]
  | .content kind nodes, new, h => by
    rw [Value.inlaid] at h
    rw [Value.inlay]
    split at h
    · cases h
    · next hkind => rw [if_neg hkind, TemplateMarkup.inlay_of_inlaid new h]

theorem inlayParams_of_inlaid : ∀ {params : List Param} (new : List (List Node)),
    paramsInlaid params = [] → inlayParams new params = (params, new)
  | [], new, _ => by rw [inlayParams]
  | p :: params, new, h => by
    rw [paramsInlaid, List.append_eq_nil_iff] at h
    simp only [inlayParams, p.inlay_of_inlaid new h.1, inlayParams_of_inlaid new h.2]

theorem Param.inlay_of_inlaid : ∀ (p : Param) (new : List (List Node)), p.inlaid = [] →
    p.inlay new = (p, new)
  | ⟨id, location, name, value⟩, new, h => by
    rw [Param.inlaid] at h
    rw [Param.inlay, value.inlay_of_inlaid new h]

theorem Flow.inlay_of_inlaid : ∀ (f : Flow) (new : List (List Node)), f.inlaid = [] →
    f.inlay new = (f, new)
  | ⟨id, location, head, branches⟩, new, h => by
    rw [Flow.inlaid] at h
    rw [Flow.inlay, inlayBranches_of_inlaid new h]

theorem inlayBranches_of_inlaid : ∀ {branches : List Branch} (new : List (List Node)),
    branchesInlaid branches = [] → inlayBranches new branches = (branches, new)
  | [], new, _ => by rw [inlayBranches]
  | branch :: branches, new, h => by
    rw [branchesInlaid, List.append_eq_nil_iff] at h
    simp only [inlayBranches, branch.inlay_of_inlaid new h.1, inlayBranches_of_inlaid new h.2]

theorem Branch.inlay_of_inlaid : ∀ (branch : Branch) (new : List (List Node)),
    branch.inlaid = [] → branch.inlay new = (branch, new)
  | ⟨id, kind, nodes⟩, new, h => by
    rw [Branch.inlaid] at h
    rw [Branch.inlay, TemplateMarkup.inlay_of_inlaid new h]

end

/-! ## 3. The run -/

/-- Between the two ledgers a run rewrites the inlaid blocks to `new`, and does nothing else but
count. -/
structure Ledger.Inlays (l : Ledger) (blocks : List InlaidBlock) (new : List (List Node))
    (l' : Ledger) : Prop where
  config : l'.config = l.config
  depth : l'.depth = l.depth
  result : (rewriteInlaid l.config l.ids blocks).result = new
  ids : l'.ids = (rewriteInlaid l.config l.ids blocks).ids
  diagnostics : l'.diagnostics
    = (rewriteInlaid l.config l.ids blocks).diagnostics.reverse ++ l.diagnostics

theorem rewriteInlaid_append (config : Config) : ∀ (blocks blocks' : List InlaidBlock)
    (ids : IdSource),
    let first := rewriteInlaid config ids blocks
    let later := rewriteInlaid config first.ids blocks'
    let both := rewriteInlaid config ids (blocks ++ blocks')
    both.result = first.result ++ later.result ∧ both.ids = later.ids
      ∧ both.diagnostics = first.diagnostics ++ later.diagnostics
  | [], blocks', ids => ⟨rfl, rfl, rfl⟩
  | b :: blocks, blocks', ids => by
    obtain ⟨hresult, hids, hdiagnostics⟩ := rewriteInlaid_append config blocks blocks'
      (rewriteBlock config b.kind b.block b.location ids b.nodes).ids
    refine ⟨congrArg (List.cons _) hresult, hids, ?_⟩
    rw [List.cons_append, rewriteInlaid, rewriteInlaid]
    dsimp only at hdiagnostics ⊢
    rw [hdiagnostics, List.append_assoc]

namespace Ledger.Inlays

variable {l l' l'' : Ledger} {blocks blocks' : List InlaidBlock} {new new' : List (List Node)}

theorem nothing (l : Ledger) : l.Inlays [] [] l := ⟨rfl, rfl, rfl, rfl, rfl⟩

theorem append (h : l.Inlays blocks new l') (h' : l'.Inlays blocks' new' l'') :
    l.Inlays (blocks ++ blocks') (new ++ new') l'' := by
  obtain ⟨hresult, hids, hdiagnostics⟩ := rewriteInlaid_append l.config blocks blocks' l.ids
  rw [← h.ids, ← h.config] at hresult hids hdiagnostics
  refine ⟨h'.config.trans h.config, h'.depth.trans h.depth, ?_, ?_, ?_⟩
  · rw [← h.config, hresult, h'.result, h.config, h.result]
  · rw [h'.ids, ← h.config, hids]
  · rw [h'.diagnostics, h.diagnostics, ← h.config, hdiagnostics, List.reverse_append,
      List.append_assoc, h.config]

end Ledger.Inlays

mutual

theorem enterNodes_inlays : ∀ (nodes : List Node) {l : Ledger}, l.depth = 0 →
    ∃ new, l.Inlays (inlaid nodes) new (enterNodes l nodes).2
      ∧ ∀ spare, inlay (new ++ spare) nodes = ((enterNodes l nodes).1, spare)
  | [], l, _ => by
    rw [inlaid, enterNodes]
    exact ⟨[], .nothing l, fun spare => by rw [inlay, List.nil_append]⟩
  | n :: nodes, l, hl => by
    obtain ⟨new, h, hn⟩ := enterNode_inlays n hl
    obtain ⟨new', h', hnodes⟩ := enterNodes_inlays nodes (h.depth.trans hl)
    rw [inlaid, enterNodes]
    refine ⟨new ++ new', h.append h', fun spare => ?_⟩
    simp only [inlay, List.append_assoc, hn, hnodes]

theorem enterNode_inlays : ∀ (n : Node) {l : Ledger}, l.depth = 0 →
    ∃ new, l.Inlays n.inlaid new (enterNode l n).2
      ∧ ∀ spare, n.inlay (new ++ spare) = ((enterNode l n).1, spare)
  | .call id location callee params, l, hl => by
    obtain ⟨new, h, hparams⟩ := rewriteParams_inlays params hl
    rw [Node.inlaid, enterNode]
    exact ⟨new, h, fun spare => by rw [Node.inlay, hparams]⟩
  | .binding id location var value, l, hl => by
    obtain ⟨new, h, hvalue⟩ := rewriteValue_inlays value hl .letContent location
    rw [Node.inlaid, enterNode]
    exact ⟨new, h, fun spare => by rw [Node.inlay, hvalue]⟩
  | .flow f, l, hl => by
    obtain ⟨new, h, hf⟩ := enterFlow_inlays f hl
    rw [Node.inlaid, enterNode]
    exact ⟨new, h, fun spare => by rw [Node.inlay, hf]⟩
  | .raw .., l, _ | .print .., l, _ | .openTag .., l, _ | .closeTag .., l, _ | .attr .., l, _
  | .attrValue .., l, _ | .comment .., l, _ => by
    rw [Node.inlaid, enterNode]
    · refine ⟨[], .nothing l, fun spare => ?_⟩
      rw [Node.inlay, List.nil_append]
      all_goals simp
    all_goals simp

theorem rewriteParams_inlays : ∀ (params : List Param) {l : Ledger}, l.depth = 0 →
    ∃ new, l.Inlays (paramsInlaid params) new (rewriteParams l params).2
      ∧ ∀ spare, inlayParams (new ++ spare) params = ((rewriteParams l params).1, spare)
  | [], l, _ => by
    rw [paramsInlaid, rewriteParams]
    exact ⟨[], .nothing l, fun spare => by rw [inlayParams, List.nil_append]⟩
  | p :: params, l, hl => by
    obtain ⟨new, h, hp⟩ := rewriteParam_inlays p hl
    obtain ⟨new', h', hparams⟩ := rewriteParams_inlays params (h.depth.trans hl)
    rw [paramsInlaid, rewriteParams]
    refine ⟨new ++ new', h.append h', fun spare => ?_⟩
    simp only [inlayParams, List.append_assoc, hp, hparams]

theorem rewriteParam_inlays : ∀ (p : Param) {l : Ledger}, l.depth = 0 →
    ∃ new, l.Inlays p.inlaid new (rewriteParam l p).2
      ∧ ∀ spare, p.inlay (new ++ spare) = ((rewriteParam l p).1, spare)
  | ⟨id, location, name, value⟩, l, hl => by
    obtain ⟨new, h, hvalue⟩ := rewriteValue_inlays value hl .paramContent location
    rw [Param.inlaid, rewriteParam]
    exact ⟨new, h, fun spare => by rw [Param.inlay, hvalue]⟩

theorem rewriteValue_inlays : ∀ (value : Value) {l : Ledger}, l.depth = 0 →
    ∀ (block : BlockKind) (location : Span),
    ∃ new, l.Inlays (value.inlaid block location) new (rewriteValue l block location value).2
      ∧ ∀ spare, value.inlay (new ++ spare) = ((rewriteValue l block location value).1, spare)
  | .expr e, l, _, block, location => by
    rw [Value.inlaid, rewriteValue]
    exact ⟨[], .nothing l, fun spare => by rw [Value.inlay, List.nil_append]⟩
  | .content kind nodes, l, hl, block, location => by
    have hentry := ContentKind.isSome_entry? (declaredOrHtml kind)
    cases hkind : (declaredOrHtml kind).holdsHtml with
    | true =>
      obtain ⟨hvalue, hids, hdiagnostics⟩ := rewriteValue_afresh hl block location kind nodes
      have hlater := rewriteValue_extends (.content kind nodes) l block location
      refine ⟨[(rewriteBlock l.config (declaredOrHtml kind) block location l.ids nodes).result],
        ⟨hlater.config, hlater.depth, ?_, ?_, ?_⟩, fun spare => ?_⟩
      · rw [Value.inlaid, if_pos hkind]
        rfl
      · rw [Value.inlaid, if_pos hkind]
        exact hids
      · rw [Value.inlaid, if_pos hkind, rewriteInlaid, rewriteInlaid]
        dsimp only
        rw [List.append_nil]
        exact hdiagnostics
      · rw [Value.inlay, if_pos hkind, hvalue]
        rfl
    | false =>
      obtain ⟨new, h, hnodes⟩ := enterNodes_inlays nodes (l := l.countBlock) hl
      rw [hkind, Option.isSome_eq_false_iff, Option.isNone_iff_eq_none] at hentry
      have hclosed : (declaredOrHtml kind).holdsHtml ≠ true := by rw [hkind]; decide
      rw [Value.inlaid, if_neg hclosed, rewriteValue]
      simp only [hentry]
      exact ⟨new, { h with }, fun spare => by rw [Value.inlay, if_neg hclosed, hnodes]⟩

theorem enterFlow_inlays : ∀ (f : Flow) {l : Ledger}, l.depth = 0 →
    ∃ new, l.Inlays f.inlaid new (enterFlow l f).2
      ∧ ∀ spare, f.inlay (new ++ spare) = ((enterFlow l f).1, spare)
  | ⟨id, location, head, branches⟩, l, hl => by
    obtain ⟨new, h, hbranches⟩ := enterBranches_inlays branches hl
    rw [Flow.inlaid, enterFlow]
    exact ⟨new, h, fun spare => by rw [Flow.inlay, hbranches]⟩

theorem enterBranches_inlays : ∀ (branches : List Branch) {l : Ledger}, l.depth = 0 →
    ∃ new, l.Inlays (branchesInlaid branches) new (enterBranches l branches).2
      ∧ ∀ spare, inlayBranches (new ++ spare) branches = ((enterBranches l branches).1, spare)
  | [], l, _ => by
    rw [branchesInlaid, enterBranches]
    exact ⟨[], .nothing l, fun spare => by rw [inlayBranches, List.nil_append]⟩
  | branch :: branches, l, hl => by
    obtain ⟨new, h, hbranch⟩ := enterBranch_inlays branch hl
    obtain ⟨new', h', hbranches⟩ := enterBranches_inlays branches (h.depth.trans hl)
    rw [branchesInlaid, enterBranches]
    refine ⟨new ++ new', h.append h', fun spare => ?_⟩
    simp only [inlayBranches, List.append_assoc, hbranch, hbranches]

theorem enterBranch_inlays : ∀ (branch : Branch) {l : Ledger}, l.depth = 0 →
    ∃ new, l.Inlays branch.inlaid new (enterBranch l branch).2
      ∧ ∀ spare, branch.inlay (new ++ spare) = ((enterBranch l branch).1, spare)
  | ⟨id, kind, nodes⟩, l, hl => by
    obtain ⟨new, h, hnodes⟩ := enterNodes_inlays nodes hl
    rw [Branch.inlaid, enterBranch]
    exact ⟨new, h, fun spare => by rw [Branch.inlay, hnodes]⟩

end

/-! ## 4. Blocks that hold no html -/

/-- **A block that holds no html is entered and not altered.**  The blocks that are inlaid in it are
rewritten one after the other, each by itself, and stand where they stood; names, locations and all
other text are kept, and nothing else is reported.  If none is inlaid nothing changes, nothing is
reported, and no name is drawn. -/
theorem rewriteBlock_of_inlaid (config : Config) {kind : ContentKind}
    (hkind : kind ∈ [.text, .css, .js, .uri, .trustedResourceUri]) (block : BlockKind)
    (location : Span) (ids : IdSource) (nodes : List Node) :
    let inner := rewriteInlaid config ids (inlaid nodes)
    let r := rewriteBlock config kind block location ids nodes
    inlay inner.result nodes = (r.result, []) ∧ r.ids = inner.ids
      ∧ r.diagnostics = inner.diagnostics
      ∧ (inlaid nodes = [] → r.result = nodes ∧ r.ids = ids ∧ r.diagnostics = []) := by
  intro inner r
  have hclosed : kind.holdsHtml = false := by
    revert hkind
    cases kind <;> decide
  have hvalue : (Value.content (some kind) nodes).inlaid block location = inlaid nodes := by
    rw [Value.inlaid, if_neg]
    simp [declaredOrHtml, hclosed]
  have hput (new : List (List Node)) : (Value.content (some kind) nodes).inlay new
      = (.content (some kind) (inlay new nodes).1, (inlay new nodes).2) := by
    rw [Value.inlay, if_neg]
    simp [declaredOrHtml, hclosed]
  obtain ⟨new, h, hnew⟩ :=
    rewriteValue_inlays (.content (some kind) nodes) (l := .start config ids) rfl block location
  rw [hvalue] at h
  have hresult : inlay inner.result nodes = (r.result, []) := by
    have hall := hnew []
    rw [List.append_nil, hput, ← h.result] at hall
    obtain ⟨hnodes, hspare⟩ := Prod.mk.inj hall
    refine Prod.ext ?_ hspare
    exact congrArg Value.nodes hnodes
  have hids : r.ids = inner.ids := h.ids
  have hdiagnostics : r.diagnostics = inner.diagnostics := by
    refine (congrArg List.reverse h.diagnostics).trans ?_
    rw [Ledger.start, List.append_nil, List.reverse_reverse]
  refine ⟨hresult, hids, hdiagnostics, fun hnone => ?_⟩
  have hinner : inner = ⟨[], ids, [], {}⟩ := by
    dsimp only [inner]
    rw [hnone, rewriteInlaid]
  rw [hinner] at hresult hids hdiagnostics
  rw [inlay_of_inlaid [] hnone] at hresult
  exact ⟨(Prod.mk.inj hresult).1.symm, hids, hdiagnostics⟩

/-- The nodes `{if $x}{let $y kind="text"}{let $z}<b>{/let}{/let}{/if}`. -/
def nestedLets : List Node :=
  [.flow ⟨default, default, .ifThen, [⟨default, .cond "$x".toList, [.binding default default
    "$y".toList (.content (some .text) [.binding default default "$z".toList
      (.content none [.raw default default "<b>".toList])])]⟩]⟩]

/-- The inner `{let}` is html, since its kind is not declared: the tag and its name draw a name
each. -/
theorem rewriteBlock_of_inlaid_nestedLets :
    let inner := rewriteInlaid {} (.startingAt 5) (inlaid nestedLets)
    let r := rewriteBlock {} .text .template default (.startingAt 5) nestedLets
    ContentKind.text ∈ [.text, .css, .js, .uri, .trustedResourceUri]
      ∧ (inlaid nestedLets).length = 1 ∧ inlay inner.result nestedLets = (r.result, [])
      ∧ r.ids = .startingAt 7 ∧ r.diagnostics = [] := by
  intro inner r
  obtain ⟨hresult, hids, hdiagnostics, -⟩ :=
    rewriteBlock_of_inlaid {} (show ContentKind.text ∈ _ by decide) .template default
      (.startingAt 5) nestedLets
  refine ⟨by decide, by decide, hresult, hids.trans ?_, hdiagnostics.trans ?_⟩ <;> decide +kernel

end TemplateMarkup
