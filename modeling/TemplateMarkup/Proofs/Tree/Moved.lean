/-
# Trees that stand further on

`Node.moved k` is a node whose text stands `k` bytes further on in its source: every place in it is
moved by `k`.  Names are forgotten on the way, since the same text read twice is numbered twice; so
two trees that say the same in places `k` bytes apart are two trees with
`movedNodes 0 l = movedNodes k l'`.
-/
import TemplateMarkup.Tree.Node

namespace TemplateMarkup

/-! ## 1. Places -/

namespace Span

/-- The place `k` bytes further on. -/
def moved (k : Nat) (s : Span) : Span where
  start := s.start + k
  stop := s.stop + k
  start_le_stop := by have := s.start_le_stop; omega

@[simp] theorem moved_start (k : Nat) (s : Span) : (s.moved k).start = s.start + k := rfl

@[simp] theorem moved_stop (k : Nat) (s : Span) : (s.moved k).stop = s.stop + k := rfl

@[simp] theorem moved_zero (s : Span) : s.moved 0 = s := rfl

/-- What covers two places moves with them. -/
theorem moved_union (k : Nat) (s t : Span) :
    (s.union t).moved k = (s.moved k).union (t.moved k) := by
  simp only [union, moved, mk.injEq]
  constructor <;> omega

end Span

/-! ## 2. Nodes -/

mutual

/-- The node `k` bytes further on, without names. -/
def Node.moved (k : Nat) : Node → Node
  | .raw _ s t => .raw default (s.moved k) t
  | .print _ s e => .print default (s.moved k) e
  | .call _ s callee params => .call default (s.moved k) callee (movedParams k params)
  | .binding _ s var value => .binding default (s.moved k) var (value.moved k)
  | .flow f => .flow (f.moved k)
  | .openTag _ s name children selfClosing =>
    .openTag default (s.moved k) (name.moved k) (movedNodes k children) selfClosing
  | .closeTag _ s name => .closeTag default (s.moved k) (name.moved k)
  | .attr _ s name none => .attr default (s.moved k) (name.moved k) none
  | .attr _ s name (some value) =>
    .attr default (s.moved k) (name.moved k) (some (value.moved k))
  | .attrValue _ s quotes children =>
    .attrValue default (s.moved k) quotes (movedNodes k children)
  | .comment _ s children => .comment default (s.moved k) (movedNodes k children)

/-- The nodes `k` bytes further on. -/
def movedNodes (k : Nat) : List Node → List Node
  | [] => []
  | n :: nodes => n.moved k :: movedNodes k nodes

/-- The value `k` bytes further on. -/
def Value.moved (k : Nat) : Value → Value
  | .expr e => .expr e
  | .content kind nodes => .content kind (movedNodes k nodes)

/-- The parameters `k` bytes further on. -/
def movedParams (k : Nat) : List Param → List Param
  | [] => []
  | p :: params => p.moved k :: movedParams k params

/-- The parameter `k` bytes further on. -/
def Param.moved (k : Nat) : Param → Param
  | ⟨_, s, name, value⟩ => ⟨default, s.moved k, name, value.moved k⟩

/-- The control flow `k` bytes further on. -/
def Flow.moved (k : Nat) : Flow → Flow
  | ⟨_, s, head, branches⟩ => ⟨default, s.moved k, head, movedBranches k branches⟩

/-- The branches `k` bytes further on. -/
def movedBranches (k : Nat) : List Branch → List Branch
  | [] => []
  | b :: branches => b.moved k :: movedBranches k branches

/-- The branch `k` bytes further on. -/
def Branch.moved (k : Nat) : Branch → Branch
  | ⟨_, kind, nodes⟩ => ⟨default, kind, movedNodes k nodes⟩

end

theorem movedNodes_eq_map (k : Nat) (nodes : List Node) :
    movedNodes k nodes = nodes.map (Node.moved k) := by
  induction nodes with
  | nil => rw [movedNodes, List.map_nil]
  | cons n nodes ih => rw [movedNodes, List.map_cons, ih]

theorem movedParams_eq_map (k : Nat) (params : List Param) :
    movedParams k params = params.map (Param.moved k) := by
  induction params with
  | nil => rw [movedParams, List.map_nil]
  | cons p params ih => rw [movedParams, List.map_cons, ih]

theorem movedBranches_eq_map (k : Nat) (branches : List Branch) :
    movedBranches k branches = branches.map (Branch.moved k) := by
  induction branches with
  | nil => rw [movedBranches, List.map_nil]
  | cons b branches ih => rw [movedBranches, List.map_cons, ih]

@[simp] theorem movedNodes_reverse (k : Nat) (nodes : List Node) :
    movedNodes k nodes.reverse = (movedNodes k nodes).reverse := by
  simp only [movedNodes_eq_map, List.map_reverse]

@[simp] theorem movedParams_reverse (k : Nat) (params : List Param) :
    movedParams k params.reverse = (movedParams k params).reverse := by
  simp only [movedParams_eq_map, List.map_reverse]

@[simp] theorem movedBranches_reverse (k : Nat) (branches : List Branch) :
    movedBranches k branches.reverse = (movedBranches k branches).reverse := by
  simp only [movedBranches_eq_map, List.map_reverse]

/-- Text keeps what it says. -/
@[simp] theorem Node.rawText?_moved (k : Nat) (n : Node) : (n.moved k).rawText? = n.rawText? := by
  cases n with
  | attr id s name value => cases value <;> simp [Node.moved, Node.rawText?]
  | _ => simp [Node.moved, Node.rawText?]

/-! ## 3. Trees that say the same -/

/-- The first nodes are the second ones, `k` bytes further on and under other names. -/
def NodesAhead (k : Nat) (nodes nodes' : List Node) : Prop := movedNodes 0 nodes = movedNodes k nodes'

section

variable {k : Nat} {nodes nodes' : List Node}

theorem nodesAhead_nil : NodesAhead k [] [] := by
  simp only [NodesAhead, movedNodes]

theorem nodesAhead_cons {n n' : Node} (hn : n.moved 0 = n'.moved k) (h : NodesAhead k nodes nodes') :
    NodesAhead k (n :: nodes) (n' :: nodes') := by
  unfold NodesAhead at h ⊢
  rw [movedNodes, movedNodes, hn, h]

theorem NodesAhead.reverse (h : NodesAhead k nodes nodes') : NodesAhead k nodes.reverse nodes'.reverse := by
  unfold NodesAhead at h ⊢
  rw [movedNodes_reverse, movedNodes_reverse, h]

/-- They hold the same texts. -/
theorem NodesAhead.rawTexts (h : NodesAhead k nodes nodes') :
    nodes.map Node.rawText? = nodes'.map Node.rawText? := by
  unfold NodesAhead at h
  rw [movedNodes_eq_map, movedNodes_eq_map] at h
  have htexts := congrArg (List.map Node.rawText?) h
  rw [List.map_map, List.map_map] at htexts
  have hkeep (j : Nat) : Node.rawText? ∘ Node.moved j = Node.rawText? :=
    funext (Node.rawText?_moved j)
  rwa [hkeep, hkeep] at htexts

end

end TemplateMarkup
