/-
# The outline of a tree

An outline keeps of a tree what each node is and how the nodes are nested, and leaves out what
they say.  It is a tree of labels: the branches of control flow and the parameters of calls
have labels of their own, though they are no nodes.

`Outline.lines` lists an outline depth first, each label with its depth, and `render` prints
that list, two spaces for each step down.
-/
import TemplateMarkup.Tree.Node

namespace TemplateMarkup

/-! ## 1. Labels -/

/-- What a line of an outline stands for. -/
inductive Label
  | rawText
  | print
  | call
  | letValue
  | letContent
  | ifThen
  | switch
  | forEach
  | openTag
  | closeTag
  | attr
  | attrValue
  | comment
  | paramValue
  | paramContent
  | ifCond
  | ifElse
  | switchCase
  | switchDefault
  | forNonempty
  | forIfempty
deriving DecidableEq

namespace Label

/-- The label as it is printed. -/
def name : Label → String
  | rawText => "RAW_TEXT_NODE"
  | print => "PRINT_NODE"
  | call => "CALL_BASIC_NODE"
  | letValue => "LET_VALUE_NODE"
  | letContent => "LET_CONTENT_NODE"
  | ifThen => "IF_NODE"
  | switch => "SWITCH_NODE"
  | forEach => "FOR_NODE"
  | openTag => "HTML_OPEN_TAG_NODE"
  | closeTag => "HTML_CLOSE_TAG_NODE"
  | attr => "HTML_ATTRIBUTE_NODE"
  | attrValue => "HTML_ATTRIBUTE_VALUE_NODE"
  | comment => "HTML_COMMENT_NODE"
  | paramValue => "CALL_PARAM_VALUE_NODE"
  | paramContent => "CALL_PARAM_CONTENT_NODE"
  | ifCond => "IF_COND_NODE"
  | ifElse => "IF_ELSE_NODE"
  | switchCase => "SWITCH_CASE_NODE"
  | switchDefault => "SWITCH_DEFAULT_NODE"
  | forNonempty => "FOR_NONEMPTY_NODE"
  | forIfempty => "FOR_IFEMPTY_NODE"

end Label

/-- The label of a control-flow node. -/
def FlowHead.label : FlowHead → Label
  | ifThen => .ifThen
  | switch _ => .switch
  | forEach _ _ => .forEach

/-- The label of a branch under a control-flow node. -/
def FlowHead.branchLabel : FlowHead → BranchKind → Label
  | ifThen, .default => .ifElse
  | ifThen, _ => .ifCond
  | switch _, .default => .switchDefault
  | switch _, _ => .switchCase
  | forEach _ _, .default => .forIfempty
  | forEach _ _, _ => .forNonempty

/-- The label of a node. -/
def Node.label : Node → Label
  | .raw .. => .rawText
  | .print .. => .print
  | .call .. => .call
  | .binding _ _ _ (.expr _) => .letValue
  | .binding _ _ _ (.content ..) => .letContent
  | .flow f => f.head.label
  | .openTag .. => .openTag
  | .closeTag .. => .closeTag
  | .attr .. => .attr
  | .attrValue .. => .attrValue
  | .comment .. => .comment

/-! ## 2. Outlines -/

/-- A tree of labels. -/
inductive Outline
  | item (label : Label) (children : List Outline)

mutual

/-- The outline of a node. -/
def Node.outline : Node → Outline
  | .raw .. => .item .rawText []
  | .print .. => .item .print []
  | .call _ _ _ params => .item .call (paramOutlines params)
  | .binding _ _ _ value =>
    match value with
    | .expr _ => .item .letValue []
    | .content _ nodes => .item .letContent (outlines nodes)
  | .flow f => .item f.head.label f.branchOutlines
  | .openTag _ _ name children _ => .item .openTag (name.outline :: outlines children)
  | .closeTag _ _ name => .item .closeTag [name.outline]
  | .attr _ _ name none => .item .attr [name.outline]
  | .attr _ _ name (some value) => .item .attr [name.outline, value.outline]
  | .attrValue _ _ _ children => .item .attrValue (outlines children)
  | .comment _ _ children => .item .comment (outlines children)

/-- The outlines of the nodes, in order. -/
def outlines : List Node → List Outline
  | [] => []
  | n :: nodes => n.outline :: outlines nodes

/-- The outline of a call's parameter. -/
def Param.outline : Param → Outline
  | ⟨_, _, _, .expr _⟩ => .item .paramValue []
  | ⟨_, _, _, .content _ nodes⟩ => .item .paramContent (outlines nodes)

/-- The outlines of a call's parameters. -/
def paramOutlines : List Param → List Outline
  | [] => []
  | p :: params => p.outline :: paramOutlines params

/-- The outlines of the branches of a control-flow node. -/
def Flow.branchOutlines : Flow → List Outline
  | ⟨_, _, head, branches⟩ => branchOutlinesUnder head branches

/-- The outlines of branches under a given head. -/
def branchOutlinesUnder (head : FlowHead) : List Branch → List Outline
  | [] => []
  | b :: branches => b.outlineUnder head :: branchOutlinesUnder head branches

/-- The outline of a branch under a given head. -/
def Branch.outlineUnder (head : FlowHead) : Branch → Outline
  | ⟨_, kind, nodes⟩ => .item (head.branchLabel kind) (outlines nodes)

end

/-! ## 3. Lines -/

mutual

/-- The labels of an outline depth first, each with its depth. -/
def Outline.lines (depth : Nat) : Outline → List (Nat × Label)
  | .item label children => (depth, label) :: linesOfAll (depth + 1) children

/-- The labels of the outlines depth first, each with its depth. -/
def linesOfAll (depth : Nat) : List Outline → List (Nat × Label)
  | [] => []
  | o :: outlines => o.lines depth ++ linesOfAll depth outlines

end

/-- One line: two spaces for each step down, then the label. -/
def renderLine (line : Nat × Label) : Text :=
  List.replicate (2 * line.1) ' ' ++ line.2.name.toList ++ ['\n']

/-- The printed outline of a list of nodes. -/
def shape (nodes : List Node) : Text := (linesOfAll 0 (outlines nodes)).flatMap renderLine

end TemplateMarkup
