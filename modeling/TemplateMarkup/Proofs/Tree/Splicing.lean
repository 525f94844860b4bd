/-
# Branches in place of control flow

`splice` puts a branch in the place of each `{if}` and `{switch}`, or nothing, as `choose` says, and
joins raw text that comes to stand side by side.  Loops stay, with their bodies spliced.  Control
flow is numbered in the order of the source, which flattening and rewriting keep, so `choose` means
the same choice for the nodes that are read and for the nodes that they are rewritten to.

What is spliced is built from its end, as what is spelled is, and can be spelled piece by piece
(`spell_splice`).
-/
import TemplateMarkup.Proofs.Tree.Spelling

namespace TemplateMarkup

/-! ## 1. Splicing -/

mutual

/-- How many nodes of control flow there are in the node.  Content blocks are not looked into. -/
def Node.flowCount : Node → Nat
  | .flow f => f.flowCount + 1
  | .openTag _ _ _ children _ => flowCount children
  | .attr _ _ _ (some value) => value.flowCount
  | .attrValue _ _ _ children => flowCount children
  | .comment _ _ children => flowCount children
  | _ => 0

/-- How many nodes of control flow there are in the nodes. -/
def flowCount : List Node → Nat
  | [] => 0
  | n :: nodes => n.flowCount + flowCount nodes

/-- How many nodes of control flow there are in the branches. -/
def Flow.flowCount : Flow → Nat
  | ⟨_, _, _, branches⟩ => branchesFlowCount branches

/-- How many nodes of control flow there are in the branches. -/
def branchesFlowCount : List Branch → Nat
  | [] => 0
  | b :: branches => b.flowCount + branchesFlowCount branches

/-- How many nodes of control flow there are in the branch. -/
def Branch.flowCount : Branch → Nat
  | ⟨_, _, nodes⟩ => TemplateMarkup.flowCount nodes

end

/-- The node before nodes.  Raw text joins the text they begin with. -/
def Node.before (n : Node) (nodes : List Node) : List Node :=
  match n, nodes with
  | .raw id location t, .raw _ _ u :: rest => .raw id location (t ++ u) :: rest
  | n, nodes => n :: nodes

/-- The attribute before nodes, with the first of `given` as its value.  The others follow it. -/
def Node.giveFirst (id : NodeId) (location : Span) (name : Node) (given after : List Node) :
    List Node :=
  .attr id location name given.head? :: (given.tail ++ after)

section Splicing

variable (choose : Nat → Nat)

mutual

/-- The node spliced, before what is spliced already; `k` numbers its control flow.  Content blocks
are left alone. -/
def Node.splice (k : Nat) : Node → List Node → List Node
  | .flow f, after => f.splice k after
  | .openTag id location name children selfClosing, after =>
    .openTag id location name (splice k children []) selfClosing :: after
  | .attr id location name (some value), after =>
    Node.giveFirst id location name (value.splice k []) after
  | .attrValue id location quotes children, after =>
    .attrValue id location quotes (splice k children []) :: after
  | .comment id location children, after => .comment id location (splice k children []) :: after
  | n, after => n.before after
termination_by structural n => n

/-- The nodes spliced, before what is spliced already. -/
def splice (k : Nat) : List Node → List Node → List Node
  | [], after => after
  | n :: nodes, after => n.splice k (splice (k + n.flowCount) nodes after)
termination_by structural nodes => nodes

/-- A loop with its body spliced, or the branch that is chosen. -/
def Flow.splice (k : Nat) : Flow → List Node → List Node
  | ⟨id, location, head, branches⟩, after =>
    if head.isLoop then .flow ⟨id, location, head, splicedBodies (k + 1) branches⟩ :: after
    else spliceBranch (choose k) (k + 1) branches after
termination_by structural f => f

/-- The bodies of a loop spliced. -/
def splicedBodies (k : Nat) : List Branch → List Branch
  | [] => []
  | ⟨id, kind, nodes⟩ :: branches =>
    ⟨id, kind, splice k nodes []⟩ :: splicedBodies (k + flowCount nodes) branches
termination_by structural branches => branches

/-- The nodes of the branch at a place spliced; no branch, if there are not so many. -/
def spliceBranch (place k : Nat) : List Branch → List Node → List Node
  | [], after => after
  | ⟨_, _, nodes⟩ :: branches, after =>
    match place with
    | 0 => splice k nodes after
    | place + 1 => spliceBranch place (k + flowCount nodes) branches after
termination_by structural branches => branches

end

end Splicing

/-! ## 2. Text in front -/

theorem Node.raw_or_not (n : Node) : (∃ id loc t, n = .raw id loc t) ∨ n.rawText? = none := by
  cases n <;> first | exact .inr rfl | exact .inl ⟨_, _, _, rfl⟩

theorem Node.before_of_rawText? {n : Node} (h : n.rawText? = none) (nodes : List Node) :
    n.before nodes = n :: nodes := by
  cases n <;> first | rfl | cases h

theorem raw_before_cons (id : NodeId) (loc : Span) (t : Text) {m : Node} (h : m.rawText? = none)
    (nodes : List Node) :
    (Node.raw id loc t).before (m :: nodes) = .raw id loc t :: m :: nodes := by
  cases m <;> first | rfl | cases h

theorem bare_raw_before_before (id id' : NodeId) (loc loc' : Span) (t u : Text)
    (nodes : List Node) : bare ((Node.raw id loc (t ++ u)).before nodes)
      = bare ((Node.raw id loc t).before ((Node.raw id' loc' u).before nodes)) := by
  cases nodes with
  | nil => simp [Node.before, Node.bare]
  | cons m nodes => cases m <;> simp [Node.before, Node.bare]

/-- Two lists that are the same when bare are so with the same node before them. -/
theorem bare_before {n m : Node} {nodes nodes' : List Node} (hn : n.bare = m.bare)
    (h : bare nodes = bare nodes') : bare (n.before nodes) = bare (m.before nodes') := by
  have hsame {n m : Node} (hn : n.bare = m.bare) : n.rawText? = m.rawText? := by
    rw [← Node.rawText?_bare n, hn, Node.rawText?_bare]
  rcases n.raw_or_not with ⟨id, loc, t, rfl⟩ | hn'
  · rcases m.raw_or_not with ⟨id', loc', t', rfl⟩ | hm'
    · obtain rfl : t = t' := Option.some.inj (hsame hn)
      cases nodes with
      | nil =>
        cases nodes' with
        | nil => simp [Node.before, Node.bare]
        | cons k nodes' => simp at h
      | cons k nodes =>
        cases nodes' with
        | nil => simp at h
        | cons k' nodes' =>
          simp only [bare_cons, List.cons.injEq] at h
          rcases k.raw_or_not with ⟨id, loc, u, rfl⟩ | hk
          · rcases k'.raw_or_not with ⟨id', loc', u', rfl⟩ | hk'
            · obtain rfl : u = u' := Option.some.inj (hsame h.1)
              simp [Node.before, Node.bare, h.2]
            · have := (hsame h.1).trans hk'
              cases this
          · rw [raw_before_cons _ _ _ hk, raw_before_cons _ _ _ ((hsame h.1).symm.trans hk)]
            simp [Node.bare, h.1, h.2]
    · have := (hsame hn).trans hm'
      cases this
  · rw [Node.before_of_rawText? hn', Node.before_of_rawText? ((hsame hn).symm.trans hn'), bare_cons,
      bare_cons, hn, h]

theorem bare_giveFirst {name name' : Node} {given given' after after' : List Node}
    (hname : name.bare = name'.bare) (hgiven : bare given = bare given')
    (h : bare after = bare after') (id id' : NodeId) (loc loc' : Span) :
    bare (Node.giveFirst id loc name given after)
      = bare (Node.giveFirst id' loc' name' given' after') := by
  unfold Node.giveFirst
  cases given with
  | nil =>
    cases given' with
    | nil => simp [Node.bare, hname, h]
    | cons v given' => simp at hgiven
  | cons v given =>
    cases given' with
    | nil => simp at hgiven
    | cons v' given' =>
      simp only [bare_cons, List.cons.injEq] at hgiven
      simp [Node.bare, hname, hgiven.1, hgiven.2, h]

/-- Text before nodes.  It joins the text they begin with. -/
def leadText (t : Text) (nodes : List Node) : List Node :=
  if t.isEmpty then nodes else (Node.raw default default t).before nodes

theorem bare_leadText (t : Text) {nodes nodes' : List Node} (h : bare nodes = bare nodes') :
    bare (leadText t nodes) = bare (leadText t nodes') := by
  unfold leadText
  split
  · exact h
  · exact bare_before rfl h

namespace Spelled

theorem toNodes_after (n : Node) (h : n.rawText? = none) (s : Spelled) :
    (s.after n h).toNodes = n :: s.toNodes := by
  rw [Spelled.toNodes, Spelled.after, List.isEmpty_nil, if_pos rfl]

theorem toNodes_done : done.toNodes = [] := by
  rw [toNodes, done, List.isEmpty_nil, if_pos rfl]

theorem toNodes_lead (t : Text) (s : Spelled) : (s.lead t).toNodes = leadText t s.toNodes := by
  obtain ⟨text, nodes, hapart⟩ := s
  cases t with
  | nil => rfl
  | cons c t =>
    cases text with
    | cons d text => rfl
    | nil =>
      rw [lead, leadText, toNodes, toNodes]
      simp only [List.append_nil, List.isEmpty_cons, Bool.false_eq_true, if_false,
        List.isEmpty_nil, if_true]
      cases nodes with
      | nil => rfl
      | cons n nodes => rw [raw_before_cons _ _ _ (hapart n rfl)]

end Spelled

/-! ## 3. Spelling out what is spliced -/

theorem spell_true_cons (n : Node) (nodes : List Node) (s : Spelled) :
    spell true (n :: nodes) s = n.spell true (spell true nodes s) := by
  rw [spell, Bool.true_or]

theorem spell_true_append (nodes nodes' : List Node) (s : Spelled) :
    spell true (nodes ++ nodes') s = spell true nodes (spell true nodes' s) := by
  induction nodes with
  | nil => rw [List.nil_append, spell]
  | cons n nodes ih => rw [List.cons_append, spell_true_cons, spell_true_cons, ih]

/-- Spelling out does not care whether text has been joined. -/
theorem spell_before (n : Node) (nodes : List Node) (s : Spelled) :
    spell true (n.before nodes) s = n.spell true (spell true nodes s) := by
  rcases n.raw_or_not with ⟨id, loc, t, rfl⟩ | hn
  · cases nodes with
    | nil => rw [Node.before, spell_true_cons]; simp
    | cons m nodes =>
      rcases m.raw_or_not with ⟨id', loc', u, rfl⟩ | hm
      · rw [Node.before, spell_true_cons, spell_true_cons, Node.spell, Node.spell, Node.spell,
          Spelled.lead_lead]
      · rw [raw_before_cons _ _ _ hm, spell_true_cons]
  · rw [Node.before_of_rawText? hn, spell_true_cons]

section Spelling

variable (choose : Nat → Nat)

mutual

/-- What has been spliced already is spelled out first. -/
theorem Node.spell_splice : ∀ (n : Node) (k : Nat) (after : List Node) (s : Spelled),
    spell true (n.splice choose k after) s = spell true (n.splice choose k []) (spell true after s)
  | .flow f, k, after, s => by
    rw [Node.splice, Node.splice]
    exact f.spell_splice k after s
  | .openTag .., k, after, s | .attrValue .., k, after, s | .comment .., k, after, s => by
    rw [Node.splice, Node.splice, spell_true_cons, spell_true_cons, spell]
  | .attr _ _ _ (some _), k, after, s => by
    rw [Node.splice, Node.splice, Node.giveFirst, Node.giveFirst, spell_true_cons,
      spell_true_append, spell_true_cons, List.append_nil]
  | .raw .., k, after, s | .print .., k, after, s | .call .., k, after, s
  | .binding .., k, after, s | .closeTag .., k, after, s | .attr _ _ _ none, k, after, s => by
    rw [Node.splice, Node.splice, spell_before, spell_before, spell]
    all_goals simp

theorem spell_splice : ∀ (nodes : List Node) (k : Nat) (after : List Node) (s : Spelled),
    spell true (splice choose k nodes after) s
      = spell true (splice choose k nodes []) (spell true after s)
  | [], k, after, s => by rw [splice, splice, spell]
  | n :: nodes, k, after, s => by
    rw [splice, splice, n.spell_splice, spell_splice nodes, n.spell_splice k (splice _ _ nodes [])]

theorem Flow.spell_splice : ∀ (f : Flow) (k : Nat) (after : List Node) (s : Spelled),
    spell true (f.splice choose k after) s = spell true (f.splice choose k []) (spell true after s)
  | ⟨id, loc, head, branches⟩, k, after, s => by
    rw [Flow.splice, Flow.splice]
    split
    · rw [spell_true_cons, spell_true_cons, spell]
    · exact spell_spliceBranch branches _ _ after s

theorem spell_spliceBranch : ∀ (branches : List Branch) (place k : Nat) (after : List Node)
    (s : Spelled), spell true (spliceBranch choose place k branches after) s
      = spell true (spliceBranch choose place k branches []) (spell true after s)
  | [], place, k, after, s => by rw [spliceBranch, spliceBranch, spell]
  | ⟨_, _, nodes⟩ :: branches, 0, k, after, s => by
    rw [spliceBranch, spliceBranch]
    exact spell_splice nodes k after s
  | ⟨_, _, nodes⟩ :: branches, place + 1, k, after, s => by
    rw [spliceBranch, spliceBranch]
    exact spell_spliceBranch branches place _ after s

end

/-- Text in front is spliced as it stands. -/
theorem bare_splice_leadText (t : Text) (nodes after : List Node) (k : Nat) :
    bare (splice choose k (leadText t nodes) after)
      = bare (leadText t (splice choose k nodes after)) := by
  unfold leadText
  split
  · rfl
  · cases nodes with
    | nil => simp [Node.before, splice, Node.splice]
    | cons m nodes =>
      rcases m.raw_or_not with ⟨id, loc, u, rfl⟩ | hm
      · rw [Node.before, splice, Node.splice, splice, Node.splice]
        · exact bare_raw_before_before ..
        all_goals simp
      · rw [raw_before_cons _ _ _ hm, splice, Node.splice]
        · rfl
        all_goals simp

end Spelling

/-! ## 4. Names and places -/

section Bare

variable {choose : Nat → Nat}

mutual

theorem Node.flowCount_bare : ∀ n : Node, n.bare.flowCount = n.flowCount
  | .flow f => by rw [Node.bare, Node.flowCount, Node.flowCount, f.flowCount_bare]
  | .openTag _ _ _ children _ | .attrValue _ _ _ children | .comment _ _ children => by
    rw [Node.bare, Node.flowCount, Node.flowCount, flowCount_bare children]
  | .attr _ _ _ (some value) => by
    rw [Node.bare, Node.flowCount, Node.flowCount, value.flowCount_bare]
  | .raw .. | .print .. | .call .. | .binding .. | .closeTag .. | .attr _ _ _ none => by
    simp [Node.bare, Node.flowCount]

theorem flowCount_bare : ∀ nodes : List Node, flowCount (bare nodes) = flowCount nodes
  | [] => by rw [bare_nil]
  | n :: nodes => by rw [bare_cons, flowCount, flowCount, n.flowCount_bare, flowCount_bare nodes]

theorem Flow.flowCount_bare : ∀ f : Flow, f.bare.flowCount = f.flowCount
  | ⟨_, _, _, branches⟩ => by
    rw [Flow.bare, Flow.flowCount, Flow.flowCount, branchesFlowCount_bare branches]

theorem branchesFlowCount_bare : ∀ branches : List Branch,
    branchesFlowCount (bareBranches branches) = branchesFlowCount branches
  | [] => by rw [bareBranches]
  | ⟨_, _, nodes⟩ :: branches => by
    rw [bareBranches, branchesFlowCount, branchesFlowCount, Branch.bare, Branch.flowCount,
      Branch.flowCount, flowCount_bare nodes, branchesFlowCount_bare branches]

end

mutual

/-- Splicing does not look at names and places. -/
theorem bare_splice_node_bare : ∀ (n : Node) (k : Nat) {after after' : List Node},
    bare after = bare after' →
    bare (n.splice choose k after) = bare (n.bare.splice choose k after')
  | .flow f, k, after, after', h => by
    rw [Node.bare, Node.splice, Node.splice]
    exact bare_splice_flow_bare f k h
  | .openTag _ _ name children _, k, after, after', h => by
    rw [Node.bare, Node.splice, Node.splice, bare_cons, bare_cons, h, Node.bare, Node.bare,
      Node.bare_bare, bare_splice_bare children k rfl]
  | .attr _ _ name (some value), k, after, after', h => by
    rw [Node.bare, Node.splice, Node.splice]
    exact bare_giveFirst (Node.bare_bare name).symm (bare_splice_node_bare value k rfl) h ..
  | .attrValue _ _ _ children, k, after, after', h
  | .comment _ _ children, k, after, after', h => by
    rw [Node.bare, Node.splice, Node.splice, bare_cons, bare_cons, h, Node.bare, Node.bare,
      bare_splice_bare children k rfl]
  | .raw id loc t, k, after, after', h | .print id loc t, k, after, after', h
  | .call id loc callee params, k, after, after', h | .binding id loc var value, k, after, after', h
  | .closeTag id loc name, k, after, after', h | .attr id loc name none, k, after, after', h => by
    rw [Node.bare, Node.splice, Node.splice]
    · exact bare_before (by simp [Node.bare]) h
    all_goals simp

theorem bare_splice_bare : ∀ (nodes : List Node) (k : Nat) {after after' : List Node},
    bare after = bare after' →
    bare (splice choose k nodes after) = bare (splice choose k (bare nodes) after')
  | [], k, after, after', h => by
    rw [bare_nil, splice, splice]
    exact h
  | n :: nodes, k, after, after', h => by
    rw [bare_cons, splice, splice, n.flowCount_bare]
    exact bare_splice_node_bare n k (bare_splice_bare nodes _ h)

theorem bare_splice_flow_bare : ∀ (f : Flow) (k : Nat) {after after' : List Node},
    bare after = bare after' →
    bare (f.splice choose k after) = bare (f.bare.splice choose k after')
  | ⟨_, _, head, branches⟩, k, after, after', h => by
    rw [Flow.bare, Flow.splice, Flow.splice]
    split
    · rw [bare_cons, bare_cons, h, Node.bare, Node.bare, Flow.bare, Flow.bare,
        bare_splicedBodies_bare branches]
    · exact bare_spliceBranch_bare branches _ _ h

theorem bare_splicedBodies_bare : ∀ (branches : List Branch) (k : Nat),
    bareBranches (splicedBodies choose k branches)
      = bareBranches (splicedBodies choose k (bareBranches branches))
  | [], k => by rw [bareBranches]
  | ⟨_, _, nodes⟩ :: branches, k => by
    rw [bareBranches, Branch.bare, splicedBodies, splicedBodies, bareBranches, bareBranches,
      Branch.bare, Branch.bare, flowCount_bare, bare_splice_bare nodes k rfl,
      bare_splicedBodies_bare branches]

theorem bare_spliceBranch_bare : ∀ (branches : List Branch) (place k : Nat)
    {after after' : List Node}, bare after = bare after' →
    bare (spliceBranch choose place k branches after)
      = bare (spliceBranch choose place k (bareBranches branches) after')
  | [], place, k, after, after', h => by
    rw [bareBranches, spliceBranch, spliceBranch]
    exact h
  | ⟨_, _, nodes⟩ :: branches, 0, k, after, after', h => by
    rw [bareBranches, Branch.bare, spliceBranch, spliceBranch]
    exact bare_splice_bare nodes k h
  | ⟨_, _, nodes⟩ :: branches, place + 1, k, after, after', h => by
    rw [bareBranches, Branch.bare, spliceBranch, spliceBranch, flowCount_bare]
    exact bare_spliceBranch_bare branches place _ h

end

theorem bare_splice_congr {nodes nodes' : List Node} (h : bare nodes = bare nodes')
    (choose : Nat → Nat) :
    bare (splice choose 0 nodes []) = bare (splice choose 0 nodes' []) := by
  rw [bare_splice_bare nodes 0 rfl, h, ← bare_splice_bare nodes' 0 rfl]

end Bare

end TemplateMarkup
