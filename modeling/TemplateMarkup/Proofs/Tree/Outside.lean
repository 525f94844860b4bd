/-
# Trees outside a block

A template is cut into blocks: the content of each binding and of each parameter, and the branches
of control flow.  `fill` puts other nodes into one block and keeps everything around it, and
`outside` is what is left of a tree when the block is emptied and the names are forgotten, so two
trees are the same `outside` a block if they differ in names and in the nodes of that block only.

A block is told by the name of the binding, parameter or branch it belongs to.  The first branch of
an `{if}` or `{switch}` is no block here: the html after it goes on where that branch ends.
-/
import TemplateMarkup.Html.Placing

namespace TemplateMarkup

/-! ## 1. Filling -/

section Filling

variable (i : NodeId) (new : List Node)

mutual

/-- The node with `new` in the block that is named `i`. -/
def Node.fill : Node → Node
  | .call id location callee params => .call id location callee (fillParams params)
  | .binding id location var value => .binding id location var (value.fill id)
  | .flow f => .flow f.fill
  | .openTag id location name children selfClosing =>
    .openTag id location name.fill (fill children) selfClosing
  | .closeTag id location name => .closeTag id location name.fill
  | .attr id location name none => .attr id location name.fill none
  | .attr id location name (some value) => .attr id location name.fill (some value.fill)
  | .attrValue id location quotes children => .attrValue id location quotes (fill children)
  | .comment id location children => .comment id location (fill children)
  | n => n

/-- The nodes with `new` in the block that is named `i`. -/
def fill : List Node → List Node
  | [] => []
  | n :: nodes => n.fill :: fill nodes

/-- The value with `new` in the block that is named `i`; its own name is `owner`. -/
def Value.fill (owner : NodeId) : Value → Value
  | .expr e => .expr e
  | .content kind nodes => .content kind (if owner = i then new else TemplateMarkup.fill nodes)

/-- The parameters with `new` in the block that is named `i`. -/
def fillParams : List Param → List Param
  | [] => []
  | p :: params => p.fill :: fillParams params

/-- The parameter with `new` in the block that is named `i`. -/
def Param.fill : Param → Param
  | ⟨id, location, name, value⟩ => ⟨id, location, name, value.fill id⟩

/-- The control flow with `new` in the block that is named `i`. -/
def Flow.fill : Flow → Flow
  | ⟨id, location, head, branches⟩ => ⟨id, location, head, fillBranches head.isLoop branches⟩

/-- The branches with `new` in the block that is named `i`; the first of them is a block only if
`isBlock` says so. -/
def fillBranches (isBlock : Bool) : List Branch → List Branch
  | [] => []
  | branch :: branches => branch.fill isBlock :: fillBranches true branches

/-- The branch with `new` in the block that is named `i`. -/
def Branch.fill (isBlock : Bool) : Branch → Branch
  | ⟨id, kind, nodes⟩ =>
    ⟨id, kind, if isBlock = true ∧ id = i then new else TemplateMarkup.fill nodes⟩

end

/-- The template with `new` in the block that is named `i`. -/
def Template.fill (t : Template) : Template := { t with nodes := TemplateMarkup.fill i new t.nodes }

end Filling

/-! ## 2. The blocks of a name -/

/-- What is known of a block from outside: that it is the content of a binding or of a parameter,
or a branch, where that or its control flow stands, and its kind. -/
inductive Block
  | content (block : BlockKind) (location : Span) (kind : Option ContentKind)
  | branch (location : Span) (kind : BranchKind)

section Named

variable (i : NodeId)

mutual

/-- The blocks of the node that are named `i`, in source order. -/
def Node.blocksNamed : Node → List Block
  | .call _ _ _ params => paramBlocksNamed params
  | .binding id location _ value => value.blocksNamed id .letContent location
  | .flow f => f.blocksNamed
  | .openTag _ _ name children _ => name.blocksNamed ++ blocksNamed children
  | .closeTag _ _ name => name.blocksNamed
  | .attr _ _ name none => name.blocksNamed
  | .attr _ _ name (some value) => name.blocksNamed ++ value.blocksNamed
  | .attrValue _ _ _ children => blocksNamed children
  | .comment _ _ children => blocksNamed children
  | _ => []

/-- The blocks of the nodes that are named `i`. -/
def blocksNamed : List Node → List Block
  | [] => []
  | n :: nodes => n.blocksNamed ++ blocksNamed nodes

/-- The blocks of the value that are named `i`. -/
def Value.blocksNamed (owner : NodeId) (block : BlockKind) (location : Span) : Value → List Block
  | .expr _ => []
  | .content kind nodes =>
    if owner = i then [.content block location kind] else TemplateMarkup.blocksNamed nodes

/-- The blocks of the parameters that are named `i`. -/
def paramBlocksNamed : List Param → List Block
  | [] => []
  | p :: params => p.blocksNamed ++ paramBlocksNamed params

/-- The blocks of the parameter that are named `i`. -/
def Param.blocksNamed : Param → List Block
  | ⟨id, location, _, value⟩ => value.blocksNamed id .paramContent location

/-- The blocks of the control flow that are named `i`. -/
def Flow.blocksNamed : Flow → List Block
  | ⟨_, location, head, branches⟩ => branchBlocksNamed location head.isLoop branches

/-- The blocks of the branches that are named `i`. -/
def branchBlocksNamed (location : Span) (isBlock : Bool) : List Branch → List Block
  | [] => []
  | branch :: branches =>
    branch.blocksNamed location isBlock ++ branchBlocksNamed location true branches

/-- The blocks of the branch that are named `i`. -/
def Branch.blocksNamed (location : Span) (isBlock : Bool) : Branch → List Block
  | ⟨id, kind, nodes⟩ =>
    if isBlock = true ∧ id = i then [.branch location kind] else TemplateMarkup.blocksNamed nodes

end

end Named

/-! ## 3. Outside of a block -/

mutual

/-- The node without names. -/
def Node.unnamed : Node → Node
  | .raw _ location t => .raw default location t
  | .print _ location e => .print default location e
  | .call _ location callee params => .call default location callee (unnamedParams params)
  | .binding _ location var value => .binding default location var value.unnamed
  | .flow f => .flow f.unnamed
  | .openTag _ location name children selfClosing =>
    .openTag default location name.unnamed (unnamed children) selfClosing
  | .closeTag _ location name => .closeTag default location name.unnamed
  | .attr _ location name none => .attr default location name.unnamed none
  | .attr _ location name (some value) => .attr default location name.unnamed (some value.unnamed)
  | .attrValue _ location quotes children => .attrValue default location quotes (unnamed children)
  | .comment _ location children => .comment default location (unnamed children)

/-- The nodes without names. -/
def unnamed : List Node → List Node
  | [] => []
  | n :: nodes => n.unnamed :: unnamed nodes

/-- The value without names. -/
def Value.unnamed : Value → Value
  | .expr e => .expr e
  | .content kind nodes => .content kind (TemplateMarkup.unnamed nodes)

/-- The parameters without names. -/
def unnamedParams : List Param → List Param
  | [] => []
  | p :: params => p.unnamed :: unnamedParams params

/-- The parameter without names. -/
def Param.unnamed : Param → Param
  | ⟨_, location, name, value⟩ => ⟨default, location, name, value.unnamed⟩

/-- The control flow without names. -/
def Flow.unnamed : Flow → Flow
  | ⟨_, location, head, branches⟩ => ⟨default, location, head, unnamedBranches branches⟩

/-- The branches without names. -/
def unnamedBranches : List Branch → List Branch
  | [] => []
  | b :: branches => b.unnamed :: unnamedBranches branches

/-- The branch without names. -/
def Branch.unnamed : Branch → Branch
  | ⟨_, kind, nodes⟩ => ⟨default, kind, TemplateMarkup.unnamed nodes⟩

end

section Outside

variable (i : NodeId)

/-- What the node is outside of the block that is named `i`, but for names. -/
def Node.outside (n : Node) : Node := (n.fill i []).unnamed

/-- What the nodes are outside of the block that is named `i`, but for names. -/
def outside (nodes : List Node) : List Node := unnamed (fill i [] nodes)

/-- What the value is outside of the block that is named `i`, but for names. -/
def Value.outside (owner : NodeId) (value : Value) : Value := (value.fill i [] owner).unnamed

/-- What the parameters are outside of the block that is named `i`, but for names. -/
def outsideParams (params : List Param) : List Param := unnamedParams (fillParams i [] params)

/-- What the parameter is outside of the block that is named `i`, but for names. -/
def Param.outside (p : Param) : Param := (p.fill i []).unnamed

/-- What the control flow is outside of the block that is named `i`, but for names. -/
def Flow.outside (f : Flow) : Flow := (f.fill i []).unnamed

/-- What the branches are outside of the block that is named `i`, but for names. -/
def outsideBranches (isBlock : Bool) (branches : List Branch) : List Branch :=
  unnamedBranches (fillBranches i [] isBlock branches)

/-- What the branch is outside of the block that is named `i`, but for names. -/
def Branch.outside (isBlock : Bool) (b : Branch) : Branch := (b.fill i [] isBlock).unnamed

@[simp] theorem outside_nil : outside i [] = [] := by simp only [outside, fill, unnamed]

@[simp] theorem outside_cons (n : Node) (nodes : List Node) :
    outside i (n :: nodes) = n.outside i :: outside i nodes := by
  simp only [outside, fill, unnamed, Node.outside]

theorem outside_eq_map (nodes : List Node) : outside i nodes = nodes.map (Node.outside i) := by
  induction nodes with
  | nil => rw [outside_nil, List.map_nil]
  | cons n nodes ih => rw [outside_cons, List.map_cons, ih]

theorem Node.outside_call (id : NodeId) (location : Span) (callee : Text) (params : List Param) :
    (Node.call id location callee params).outside i
      = .call default location callee (outsideParams i params) := by
  simp only [Node.outside, Node.fill, Node.unnamed, outsideParams]

theorem Node.outside_binding (id : NodeId) (location : Span) (var : Text) (value : Value) :
    (Node.binding id location var value).outside i
      = .binding default location var (value.outside i id) := by
  simp only [Node.outside, Node.fill, Node.unnamed, Value.outside]

theorem Node.outside_flow (f : Flow) : (Node.flow f).outside i = .flow (f.outside i) := by
  simp only [Node.outside, Node.fill, Node.unnamed, Flow.outside]

theorem Value.outside_content (owner : NodeId) (kind : Option ContentKind) (nodes : List Node) :
    (Value.content kind nodes).outside i owner
      = .content kind (if owner = i then [] else TemplateMarkup.outside i nodes) := by
  simp only [Value.outside, Value.fill, Value.unnamed]
  split
  · rw [TemplateMarkup.unnamed]
  · rw [TemplateMarkup.outside]

theorem outsideParams_cons (p : Param) (params : List Param) :
    outsideParams i (p :: params) = p.outside i :: outsideParams i params := by
  simp only [outsideParams, fillParams, unnamedParams, Param.outside]

theorem Param.outside_mk (id : NodeId) (location : Span) (name : Text) (value : Value) :
    (Param.mk id location name value).outside i = ⟨default, location, name, value.outside i id⟩ := by
  simp only [Param.outside, Param.fill, Param.unnamed, Value.outside]

theorem Flow.outside_mk (id : NodeId) (location : Span) (head : FlowHead)
    (branches : List Branch) : (Flow.mk id location head branches).outside i
      = ⟨default, location, head, outsideBranches i head.isLoop branches⟩ := by
  simp only [Flow.outside, Flow.fill, Flow.unnamed, outsideBranches]

theorem outsideBranches_cons (isBlock : Bool) (branch : Branch) (branches : List Branch) :
    outsideBranches i isBlock (branch :: branches)
      = branch.outside i isBlock :: outsideBranches i true branches := by
  simp only [outsideBranches, fillBranches, unnamedBranches, Branch.outside]

theorem Branch.outside_mk (isBlock : Bool) (id : NodeId) (kind : BranchKind) (nodes : List Node) :
    (Branch.mk id kind nodes).outside i isBlock
      = ⟨default, kind,
        if isBlock = true ∧ id = i then [] else TemplateMarkup.outside i nodes⟩ := by
  simp only [Branch.outside, Branch.fill, Branch.unnamed]
  split
  · rw [TemplateMarkup.unnamed]
  · rw [TemplateMarkup.outside]

end Outside

section Refilling

variable (i : NodeId) (new other : List Node)

mutual

/-- **What is in the block does not matter to what is put there.** -/
theorem Node.fill_fill : ∀ n : Node, (n.fill i new).fill i other = n.fill i other
  | .raw .. | .print .. => by simp only [Node.fill]
  | .call _ _ _ params => by simp only [Node.fill, fillParams_fillParams params]
  | .binding id _ _ value => by simp only [Node.fill, value.fill_fill id]
  | .flow f => by simp only [Node.fill, f.fill_fill]
  | .openTag _ _ name children _ => by simp only [Node.fill, name.fill_fill, fill_fill children]
  | .closeTag _ _ name => by simp only [Node.fill, name.fill_fill]
  | .attr _ _ name none => by simp only [Node.fill, name.fill_fill]
  | .attr _ _ name (some value) => by simp only [Node.fill, name.fill_fill, value.fill_fill]
  | .attrValue _ _ _ children | .comment _ _ children => by
    simp only [Node.fill, fill_fill children]

theorem fill_fill : ∀ nodes : List Node, fill i other (fill i new nodes) = fill i other nodes
  | [] => by simp only [fill]
  | n :: nodes => by simp only [fill, n.fill_fill, fill_fill nodes]

theorem Value.fill_fill (owner : NodeId) : ∀ value : Value,
    (value.fill i new owner).fill i other owner = value.fill i other owner
  | .expr _ => by simp only [Value.fill]
  | .content _ nodes => by
    simp only [Value.fill]
    split
    · rfl
    · rw [TemplateMarkup.fill_fill nodes]

theorem fillParams_fillParams : ∀ params : List Param,
    fillParams i other (fillParams i new params) = fillParams i other params
  | [] => by simp only [fillParams]
  | ⟨id, _, _, value⟩ :: params => by
    simp only [fillParams, Param.fill, value.fill_fill id, fillParams_fillParams params]

theorem Flow.fill_fill : ∀ f : Flow, (f.fill i new).fill i other = f.fill i other
  | ⟨_, _, head, branches⟩ => by
    simp only [Flow.fill, fillBranches_fillBranches head.isLoop branches]

theorem fillBranches_fillBranches (isBlock : Bool) : ∀ branches : List Branch,
    fillBranches i other isBlock (fillBranches i new isBlock branches)
      = fillBranches i other isBlock branches
  | [] => by simp only [fillBranches]
  | ⟨_, _, nodes⟩ :: branches => by
    simp only [fillBranches, Branch.fill, fillBranches_fillBranches true branches]
    split
    · rfl
    · rw [fill_fill nodes]

end

/-- **A filled tree is the same outside of the block.** -/
theorem outside_fill (nodes : List Node) : outside i (fill i new nodes) = outside i nodes := by
  rw [outside, fill_fill, outside]

end Refilling

end TemplateMarkup
