/-
# The source text of a tree

`source` writes nodes back as template text.  Html is written in one form: exactly one space
before an attribute in a tag, nothing else between a tag's name and its end, and `/>` with no
space before it.  At the root of an `attributes` block the first attribute has no space before
it, and every later one has.

Whether an attribute needs its space is one bit, `spaced`, that is handed along a list of
nodes: it holds inside a tag, and after anything that may have given an attribute
(`Node.givesAttribute`).  Each branch of control flow starts with the bit that the
control-flow node was given.
-/
import TemplateMarkup.Tree.Node

namespace TemplateMarkup

/-! ## 1. Which nodes give attributes -/

mutual

/-- The node is an attribute, or control flow that has one in some branch. -/
def Node.givesAttribute : Node → Bool
  | .attr .. => true
  | .flow f => f.givesAttribute
  | _ => false

/-- Some branch has an attribute. -/
def Flow.givesAttribute : Flow → Bool
  | ⟨_, _, _, branches⟩ => someBranchGivesAttribute branches

/-- Some of the branches has an attribute. -/
def someBranchGivesAttribute : List Branch → Bool
  | [] => false
  | b :: branches => b.givesAttribute || someBranchGivesAttribute branches

/-- The branch has an attribute. -/
def Branch.givesAttribute : Branch → Bool
  | ⟨_, _, nodes⟩ => someGivesAttribute nodes

/-- Some of the nodes gives an attribute. -/
def someGivesAttribute : List Node → Bool
  | [] => false
  | n :: nodes => n.givesAttribute || someGivesAttribute nodes

end

/-! ## 2. Commands -/

/-- A command, from what stands between its braces. -/
def braced (inner : Text) : Text := '{' :: inner ++ ['}']

/-- A declared kind, as it follows a name in a command. -/
def kindClause : Option ContentKind → Text
  | none => []
  | some kind => " kind=\"".toList ++ kind.name.toList ++ ['"']

/-- The command that opens a control-flow node before its first branch. -/
def FlowHead.opening : FlowHead → Text
  | ifThen => []
  | switch expr => braced ("switch ".toList ++ expr)
  | forEach var expr => braced ("for $".toList ++ var ++ " in ".toList ++ expr)

/-- The command that closes a control-flow node. -/
def FlowHead.closing (head : FlowHead) : Text := braced ('/' :: head.command.toList)

/-- The command before a branch; `isFirst` tells the first branch from the later ones. -/
def FlowHead.branchOpening (isFirst : Bool) : FlowHead → BranchKind → Text
  | ifThen, .cond expr => braced ((if isFirst then "if " else "elseif ").toList ++ expr)
  | ifThen, _ => braced "else".toList
  | switch _, .cond expr => braced ("case ".toList ++ expr)
  | switch _, _ => braced "default".toList
  | forEach _ _, .default => braced "ifempty".toList
  | forEach _ _, _ => []

/-- A value between its quotes. -/
def Quotes.around (quotes : Quotes) (inner : Text) : Text :=
  quotes.char?.toList ++ inner ++ quotes.char?.toList

/-! ## 3. Nodes -/

mutual

/-- The source text of a node; `spaced` tells whether an attribute needs a space before it. -/
def Node.source (spaced : Bool) : Node → Text
  | .raw _ _ text => text
  | .print _ _ expr => braced expr
  | .call _ _ callee [] => braced ("call ".toList ++ callee ++ " /".toList)
  | .call _ _ callee (p :: params) =>
    braced ("call ".toList ++ callee) ++ (p.source ++ paramsSource params)
      ++ braced "/call".toList
  | .binding _ _ var value =>
    match value with
    | .expr expr => braced ("let $".toList ++ var ++ " : ".toList ++ expr ++ " /".toList)
    | .content kind nodes =>
      braced ("let $".toList ++ var ++ kindClause kind) ++ sourceAfter false nodes
        ++ braced "/let".toList
  | .flow f => f.source spaced
  | .openTag _ _ name children selfClosing =>
    '<' :: name.source false ++ sourceAfter true children
      ++ (if selfClosing then "/>" else ">").toList
  | .closeTag _ _ name => "</".toList ++ name.source false ++ ['>']
  | .attr _ _ name value =>
    (if spaced then [' '] else []) ++ name.source false
      ++ match value with
        | none => []
        | some value => '=' :: value.source false
  | .attrValue _ _ quotes children => quotes.around (sourceAfter false children)
  | .comment _ _ children => "<!--".toList ++ sourceAfter false children ++ "-->".toList

/-- The source text of a list of nodes; `spaced` tells whether an attribute at its start needs
a space before it. -/
def sourceAfter (spaced : Bool) : List Node → Text
  | [] => []
  | n :: nodes => n.source spaced ++ sourceAfter (spaced || n.givesAttribute) nodes

/-- The source text of a call's parameter. -/
def Param.source : Param → Text
  | ⟨_, _, name, .expr expr⟩ =>
    braced ("param ".toList ++ name ++ ": ".toList ++ expr ++ " /".toList)
  | ⟨_, _, name, .content kind nodes⟩ =>
    braced ("param ".toList ++ name ++ kindClause kind) ++ sourceAfter false nodes
      ++ braced "/param".toList

/-- The source text of a call's parameters. -/
def paramsSource : List Param → Text
  | [] => []
  | p :: params => p.source ++ paramsSource params

/-- The source text of a control-flow node. -/
def Flow.source (spaced : Bool) : Flow → Text
  | ⟨_, _, head, branches⟩ =>
    head.opening ++ branchesSource spaced head true branches ++ head.closing

/-- The source text of branches under a given head. -/
def branchesSource (spaced : Bool) (head : FlowHead) (isFirst : Bool) : List Branch → Text
  | [] => []
  | b :: branches => b.source spaced head isFirst ++ branchesSource spaced head false branches

/-- The source text of a branch under a given head. -/
def Branch.source (spaced : Bool) (head : FlowHead) (isFirst : Bool) : Branch → Text
  | ⟨_, kind, nodes⟩ => head.branchOpening isFirst kind ++ sourceAfter spaced nodes

end

/-- The source text of a list of nodes. -/
def source (nodes : List Node) : Text := sourceAfter false nodes

end TemplateMarkup
