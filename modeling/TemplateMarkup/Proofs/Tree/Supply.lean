/-
# What gives an attribute its value

The value of an attribute is a value, or control flow each of whose branches gives one: exactly one
of the nodes of a branch gives the value, and none is an attribute (`Node.givesValue`).  Attributes
may still stand deeper in its control flow (`Node.holdsAttr`).  They do only in control flow behind
the value, if all nodes in front of the value are `Node.Idle`; so there is none if no branch goes on
with control flow behind its value (`Node.trailsFlow`, `Node.Gives`).

An assembly has its latest node first, so a branch that has given its value is described from its
end (`Given`).
-/
import TemplateMarkup.Tree.Node

namespace TemplateMarkup

/-! ## 1. Givers and attributes -/

/-- An attribute. -/
def Node.isAttr : Node → Bool
  | .attr .. => true
  | _ => false

mutual

/-- The node gives a value: it is one, or it is control flow of which every branch gives one. -/
def Node.givesValue : Node → Bool
  | .attrValue .. => true
  | .flow ⟨_, _, _, branches⟩ => !branches.isEmpty && branchesGiveValue branches
  | _ => false

/-- In every branch one node gives the value, and none is an attribute. -/
def branchesGiveValue : List Branch → Bool
  | [] => true
  | ⟨_, _, nodes⟩ :: branches =>
    countGivers nodes == 1 && !nodes.any Node.isAttr && branchesGiveValue branches

/-- The number of nodes that give a value. -/
def countGivers : List Node → Nat
  | [] => 0
  | n :: nodes => (if n.givesValue then 1 else 0) + countGivers nodes

end

mutual

/-- The node is an attribute, or one stands in its control flow at any depth. -/
def Node.holdsAttr : Node → Bool
  | .attr .. => true
  | .flow ⟨_, _, _, branches⟩ => branchesHoldAttr branches
  | _ => false

/-- An attribute stands in the branches. -/
def branchesHoldAttr : List Branch → Bool
  | [] => false
  | ⟨_, _, nodes⟩ :: branches => holdAttr nodes || branchesHoldAttr branches

/-- An attribute stands among the nodes. -/
def holdAttr : List Node → Bool
  | [] => false
  | n :: nodes => n.holdsAttr || holdAttr nodes

end

mutual

/-- In the control flow, at any depth, a branch goes on with control flow behind its value. -/
def Node.trailsFlow : Node → Bool
  | .flow ⟨_, _, _, branches⟩ => branchesTrailFlow branches
  | _ => false

/-- A branch goes on with control flow behind its value. -/
def branchesTrailFlow : List Branch → Bool
  | [] => false
  | ⟨_, _, nodes⟩ :: branches => trailFlow false nodes || branchesTrailFlow branches

/-- The nodes go on with control flow behind the value; `given` tells whether it has been given. -/
def trailFlow (given : Bool) : List Node → Bool
  | [] => false
  | n :: nodes => given && n.isFlow || n.trailsFlow || trailFlow (given || n.givesValue) nodes

end

theorem Node.holdsAttr_of_isFlow_eq_false {n : Node} (h : n.isFlow = false) :
    n.holdsAttr = n.isAttr := by
  cases n <;> first | rfl | cases h

/-! ## 2. Branches -/

/-- The node gives no value, and no attribute stands in it. -/
def Node.Idle (n : Node) : Prop := n.givesValue = false ∧ n.holdsAttr = false

/-- The node may stand behind a value. -/
def Node.Trails (n : Node) : Prop := n.givesValue = false ∧ n.isAttr = false

/-- **The node gives a value**, and no attribute stands in it unless control flow stands behind a
value in it. -/
def Node.Gives (n : Node) : Prop :=
  n.givesValue = true ∧ (n.trailsFlow = false → n.holdsAttr = false)

/-- The nodes, the latest first, have given one value. -/
def Given (out : List Node) : Prop :=
  ∃ after value before, out = after ++ value :: before ∧ (∀ n ∈ after, n.Trails) ∧ value.Gives
    ∧ ∀ n ∈ before, n.Idle

theorem Node.Idle.trails {n : Node} (h : n.Idle) : n.Trails := by
  refine ⟨h.1, ?_⟩
  have hattr := h.2
  cases n <;> first | rfl | cases hattr

/-- The value is given. -/
theorem given_cons {value : Node} {out : List Node} (hv : value.Gives) (h : ∀ n ∈ out, n.Idle) :
    Given (value :: out) :=
  ⟨[], value, out, rfl, nofun, hv, h⟩

/-- More may stand behind it. -/
theorem Given.cons {n : Node} {out : List Node} (h : Given out) (hn : n.Trails) :
    Given (n :: out) := by
  obtain ⟨after, value, before, rfl, hafter, hvalue, hbefore⟩ := h
  exact ⟨n :: after, value, before, rfl, List.forall_mem_cons.mpr ⟨hn, hafter⟩, hvalue, hbefore⟩

theorem countGivers_append : ∀ nodes later : List Node,
    countGivers (nodes ++ later) = countGivers nodes + countGivers later
  | [], later => by rw [List.nil_append, countGivers, Nat.zero_add]
  | n :: nodes, later => by
    rw [List.cons_append, countGivers, countGivers, countGivers_append nodes later, Nat.add_assoc]

theorem countGivers_eq_zero : ∀ {nodes : List Node}, (∀ n ∈ nodes, n.givesValue = false) →
    countGivers nodes = 0
  | [], _ => by rw [countGivers]
  | n :: nodes, h => by
    obtain ⟨hn, hnodes⟩ := List.forall_mem_cons.mp h
    rw [countGivers, hn, countGivers_eq_zero hnodes]
    rfl

theorem holdAttr_append : ∀ nodes later : List Node,
    holdAttr (nodes ++ later) = (holdAttr nodes || holdAttr later)
  | [], later => by rw [List.nil_append, holdAttr, Bool.false_or]
  | n :: nodes, later => by
    rw [List.cons_append, holdAttr, holdAttr, holdAttr_append nodes later, Bool.or_assoc]

theorem holdAttr_eq_false : ∀ {nodes : List Node}, (∀ n ∈ nodes, n.holdsAttr = false) →
    holdAttr nodes = false
  | [], _ => by rw [holdAttr]
  | n :: nodes, h => by
    obtain ⟨hn, hnodes⟩ := List.forall_mem_cons.mp h
    rw [holdAttr, hn, holdAttr_eq_false hnodes]
    rfl

/-- Idle nodes give no value to what comes after them. -/
theorem trailFlow_idle_append {later : List Node} : ∀ {nodes : List Node},
    (∀ n ∈ nodes, n.Idle) → trailFlow false (nodes ++ later) = false →
    trailFlow false later = false
  | [], _, h => h
  | n :: nodes, hn, h => by
    obtain ⟨hidle, hnodes⟩ := List.forall_mem_cons.mp hn
    rw [List.cons_append, trailFlow, hidle.1] at h
    exact trailFlow_idle_append hnodes (Bool.or_eq_false_iff.mp h).2

/-- Behind the value no control flow stands. -/
theorem isFlow_of_trailFlow : ∀ {nodes : List Node}, trailFlow true nodes = false →
    ∀ n ∈ nodes, n.isFlow = false
  | [], _ => nofun
  | n :: nodes, h => by
    rw [trailFlow] at h
    obtain ⟨hn, hnodes⟩ := Bool.or_eq_false_iff.mp h
    refine List.forall_mem_cons.mpr ⟨?_, isFlow_of_trailFlow hnodes⟩
    simpa using (Bool.or_eq_false_iff.mp hn).1

/-- **A branch that has given one value.** -/
theorem Given.branch {out : List Node} (h : Given out) :
    countGivers out.reverse = 1 ∧ out.reverse.any Node.isAttr = false
      ∧ (trailFlow false out.reverse = false → holdAttr out.reverse = false) := by
  obtain ⟨after, value, before, rfl, hafter, hvalue, hbefore⟩ := h
  have hidle : ∀ n ∈ before.reverse, n.Idle := fun n hn => hbefore n (List.mem_reverse.mp hn)
  have htrails : ∀ n ∈ after.reverse, n.Trails := fun n hn => hafter n (List.mem_reverse.mp hn)
  have hnodes : (after ++ value :: before).reverse
      = before.reverse ++ value :: after.reverse := by simp
  rw [hnodes]
  refine ⟨?_, ?_, fun htrail => ?_⟩
  · rw [countGivers_append, countGivers, countGivers_eq_zero fun n hn => (hidle n hn).1,
      countGivers_eq_zero fun n hn => (htrails n hn).1, hvalue.1]
    rfl
  · rw [List.any_eq_false]
    intro n hn
    rw [Bool.not_eq_true]
    rcases List.mem_append.mp hn with hn | hn
    · exact (hidle n hn).trails.2
    · rcases List.mem_cons.mp hn with rfl | hn
      · have hgives := hvalue.1
        cases n <;> first | rfl | cases hgives
      · exact (htrails n hn).2
  · have hrest := trailFlow_idle_append hidle htrail
    rw [trailFlow, hvalue.1] at hrest
    obtain ⟨hin, hbehind⟩ := Bool.or_eq_false_iff.mp hrest
    have hflow := isFlow_of_trailFlow hbehind
    rw [holdAttr_append, holdAttr, holdAttr_eq_false fun n hn => (hidle n hn).2,
      hvalue.2 (Bool.or_eq_false_iff.mp hin).2, holdAttr_eq_false fun n hn => ?_]
    · rfl
    · rw [Node.holdsAttr_of_isFlow_eq_false (hflow n hn)]
      exact (htrails n hn).2

/-! ## 3. Control flow -/

section Flows

variable (id : NodeId) (location : Span) (head : FlowHead)

/-- If no node in the branches gives a value, the control flow gives none. -/
theorem givesValue_flow {branches : List Branch}
    (h : ∀ branch ∈ branches, ∀ n ∈ branch.nodes, n.givesValue = false) :
    (Node.flow ⟨id, location, head, branches⟩).givesValue = false := by
  cases branches with
  | nil => rfl
  | cons branch branches =>
    obtain ⟨id', kind, nodes⟩ := branch
    rw [Node.givesValue, branchesGiveValue, countGivers_eq_zero (h _ List.mem_cons_self)]
    rfl

/-- If all nodes in the branches are idle, so is the control flow. -/
theorem idle_flow {branches : List Branch}
    (h : ∀ branch ∈ branches, ∀ n ∈ branch.nodes, n.Idle) :
    (Node.flow ⟨id, location, head, branches⟩).Idle := by
  refine ⟨givesValue_flow id location head fun branch hb n hn => (h branch hb n hn).1, ?_⟩
  rw [Node.holdsAttr]
  induction branches with
  | nil => rw [branchesHoldAttr]
  | cons branch branches ih =>
    obtain ⟨hfirst, hrest⟩ := List.forall_mem_cons.mp h
    obtain ⟨id', kind, nodes⟩ := branch
    rw [branchesHoldAttr, holdAttr_eq_false fun n hn => (hfirst n hn).2, ih hrest]
    rfl

/-- **Control flow each of whose branches gives a value gives one.** -/
theorem gives_flow {branches : List Branch} (hne : branches ≠ [])
    (h : ∀ branch ∈ branches, Given branch.nodes.reverse) :
    (Node.flow ⟨id, location, head, branches⟩).Gives := by
  have key : branchesGiveValue branches = true
      ∧ (branchesTrailFlow branches = false → branchesHoldAttr branches = false) := by
    clear hne
    induction branches with
    | nil => exact ⟨by rw [branchesGiveValue], fun _ => by rw [branchesHoldAttr]⟩
    | cons branch branches ih =>
      obtain ⟨hfirst, hrest⟩ := List.forall_mem_cons.mp h
      obtain ⟨id', kind, nodes⟩ := branch
      obtain ⟨hcount, hattr, hholds⟩ := hfirst.branch
      obtain ⟨hgive, hhold⟩ := ih hrest
      dsimp only at hcount hattr hholds
      rw [List.reverse_reverse] at hcount hattr hholds
      refine ⟨by rw [branchesGiveValue, hcount, hattr, hgive]; rfl, fun htrail => ?_⟩
      rw [branchesTrailFlow] at htrail
      obtain ⟨hin, hlater⟩ := Bool.or_eq_false_iff.mp htrail
      rw [branchesHoldAttr, hholds hin, hhold hlater]
      rfl
  refine ⟨?_, fun htrail => ?_⟩
  · rw [Node.givesValue, key.1, Bool.and_true, Bool.not_eq_true', List.isEmpty_eq_false_iff]
    exact hne
  · rw [Node.trailsFlow] at htrail
    rw [Node.holdsAttr]
    exact key.2 htrail

end Flows

end TemplateMarkup
