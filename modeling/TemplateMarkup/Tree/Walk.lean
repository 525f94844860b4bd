/-
# Visiting every node

`walk` lists every node of a tree, each before its descendants and in source order, and
`countNodes` counts those with a property.
-/
import TemplateMarkup.Tree.Node

namespace TemplateMarkup

mutual

/-- The node and all its descendants, parents first. -/
def Node.walk : Node → List Node
  | .raw id s t => [.raw id s t]
  | .print id s e => [.print id s e]
  | .call id s callee params => .call id s callee params :: walkParams params
  | .binding id s var value => .binding id s var value :: value.walk
  | .flow f => .flow f :: f.walk
  | .openTag id s name children selfClosing =>
    .openTag id s name children selfClosing :: (name.walk ++ walk children)
  | .closeTag id s name => .closeTag id s name :: name.walk
  | .attr id s name none => .attr id s name none :: name.walk
  | .attr id s name (some value) =>
    .attr id s name (some value) :: (name.walk ++ value.walk)
  | .attrValue id s quotes children => .attrValue id s quotes children :: walk children
  | .comment id s children => .comment id s children :: walk children

/-- The nodes and all their descendants, parents first. -/
def walk : List Node → List Node
  | [] => []
  | n :: nodes => n.walk ++ walk nodes

/-- The nodes inside a value. -/
def Value.walk : Value → List Node
  | .expr _ => []
  | .content _ nodes => TemplateMarkup.walk nodes

/-- The nodes inside the parameters of a call. -/
def walkParams : List Param → List Node
  | [] => []
  | p :: params => p.walk ++ walkParams params

/-- The nodes inside a parameter. -/
def Param.walk : Param → List Node
  | ⟨_, _, _, value⟩ => value.walk

/-- The nodes inside the branches of a control-flow node. -/
def Flow.walk : Flow → List Node
  | ⟨_, _, _, branches⟩ => walkBranches branches

/-- The nodes inside branches. -/
def walkBranches : List Branch → List Node
  | [] => []
  | b :: branches => b.walk ++ walkBranches branches

/-- The nodes inside a branch. -/
def Branch.walk : Branch → List Node
  | ⟨_, _, nodes⟩ => TemplateMarkup.walk nodes

end

/-- The number of nodes with property `p`, descendants included. -/
def countNodes (p : Node → Bool) (nodes : List Node) : Nat := (walk nodes).countP p

end TemplateMarkup
