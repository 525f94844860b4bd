/-
# The tree of a template

The nodes of a template body, before and after its html has been given structure.  The five
html nodes (`openTag` to `comment`) come from that step alone; reading a template gives text,
`{print}`, `{call}`, `{let}` and control flow.

A tag's or an attribute's name is a node: raw text when the name is written out, a print or a
call when it is computed.  Which element with a body of its own kind a name stands for
(`Node.rcdata?`) is read off that node.
-/
import TemplateMarkup.Text.Basic
import TemplateMarkup.Span

namespace TemplateMarkup

/-! ## 1. Names of nodes -/

/-- The name of a node, one of 2^32. -/
structure NodeId where
  val : UInt32
deriving DecidableEq, Inhabited

/-- Where fresh names come from: they count up, and start over at zero after the last. -/
structure IdSource where
  next : NodeId
deriving DecidableEq, Inhabited

namespace IdSource

/-- The source whose first name is `n`. -/
def startingAt (n : UInt32) : IdSource := ⟨⟨n⟩⟩

/-- The source after its next name has been taken. -/
def rest (ids : IdSource) : IdSource := ⟨⟨ids.next.val + 1⟩⟩

end IdSource

/-! ## 2. Kinds -/

/-- What a template or a content block holds. -/
inductive ContentKind
  | html
  | attributes
  | text
  | css
  | js
  | uri
  | trustedResourceUri
deriving DecidableEq, Inhabited

namespace ContentKind

/-- The kind as a template declares it. -/
def name : ContentKind → String
  | html => "html"
  | attributes => "attributes"
  | text => "text"
  | css => "css"
  | js => "js"
  | uri => "uri"
  | trustedResourceUri => "trusted_resource_uri"

/-- Every kind. -/
def all : List ContentKind := [html, attributes, text, css, js, uri, trustedResourceUri]

/-- The kind of a declared name. -/
def ofName? (t : Text) : Option ContentKind := all.find? fun k => k.name.toList == t

end ContentKind

/-- How an attribute value is quoted. -/
inductive Quotes
  | bare
  | single
  | double
deriving DecidableEq, Inhabited

/-- The character that stands on both sides of the value. -/
def Quotes.char? : Quotes → Option Char
  | bare => none
  | single => some '\''
  | double => some '"'

/-- The elements whose body is text up to their own close tag. -/
inductive Rcdata
  | script
  | style
  | title
  | textarea
  | xmp
deriving DecidableEq, Inhabited

namespace Rcdata

/-- The element's name in lower case. -/
def name : Rcdata → String
  | script => "script"
  | style => "style"
  | title => "title"
  | textarea => "textarea"
  | xmp => "xmp"

/-- Every such element. -/
def all : List Rcdata := [script, style, title, textarea, xmp]

/-- The element that a name stands for, in any letter case. -/
def ofName? (t : Text) : Option Rcdata := all.find? fun e => Text.sameLetters e.name.toList t

end Rcdata

/-- When a branch is taken. -/
inductive BranchKind
  /-- On a condition, or for the listed cases. -/
  | cond (expr : Text)
  /-- When no other branch is. -/
  | default
  /-- Once for each element of a list. -/
  | loopBody
deriving DecidableEq, Inhabited

/-- What chooses among the branches of a control-flow node. -/
inductive FlowHead
  | ifThen
  | switch (expr : Text)
  | forEach (var expr : Text)
deriving DecidableEq, Inhabited

/-- The command that opens such a node. -/
def FlowHead.command : FlowHead → String
  | ifThen => "if"
  | switch _ => "switch"
  | forEach _ _ => "for"

/-- Whether the branches are a loop's. -/
def FlowHead.isLoop : FlowHead → Bool
  | forEach _ _ => true
  | _ => false

/-! ## 3. Nodes -/

mutual

/-- A node of a template. -/
inductive Node
  | raw (id : NodeId) (location : Span) (text : Text)
  | print (id : NodeId) (location : Span) (expr : Text)
  | call (id : NodeId) (location : Span) (callee : Text) (params : List Param)
  /-- A variable that the nodes after it may name. -/
  | binding (id : NodeId) (location : Span) (var : Text) (value : Value)
  | flow (flow : Flow)
  /-- The children are attributes, and control flow and bindings among them. -/
  | openTag (id : NodeId) (location : Span) (name : Node) (children : List Node)
      (selfClosing : Bool)
  | closeTag (id : NodeId) (location : Span) (name : Node)
  /-- The value is an `attrValue`, or control flow whose branches each produce one. -/
  | attr (id : NodeId) (location : Span) (name : Node) (value : Option Node)
  | attrValue (id : NodeId) (location : Span) (quotes : Quotes) (children : List Node)
  | comment (id : NodeId) (location : Span) (children : List Node)

/-- What a binding or a parameter stands for: an expression, or content whose kind may be
declared. -/
inductive Value
  | expr (expr : Text)
  | content (kind : Option ContentKind) (nodes : List Node)

/-- A parameter of a call. -/
structure Param where
  id : NodeId
  location : Span
  name : Text
  value : Value

/-- One of the branches of a control-flow node. -/
structure Branch where
  id : NodeId
  kind : BranchKind
  nodes : List Node

/-- A control-flow node, with its branches in source order. -/
structure Flow where
  id : NodeId
  location : Span
  head : FlowHead
  branches : List Branch

end

instance : Inhabited Node := ⟨.raw default default []⟩

/-- Content whose kind is not declared is html. -/
def declaredOrHtml (kind : Option ContentKind) : ContentKind := kind.getD .html

namespace Node

/-- The node's name. -/
def id : Node → NodeId
  | raw id .. | print id .. | call id .. | binding id .. | openTag id .. | closeTag id ..
  | attr id .. | attrValue id .. | comment id .. => id
  | flow f => f.id

/-- Where the node stands in the source. -/
def location : Node → Span
  | raw _ s .. | print _ s .. | call _ s .. | binding _ s .. | openTag _ s .. | closeTag _ s ..
  | attr _ s .. | attrValue _ s .. | comment _ s .. => s
  | flow f => f.location

/-- The text of a raw text node. -/
def rawText? : Node → Option Text
  | raw _ _ t => some t
  | _ => none

/-- Print and call nodes: they produce output, and may stand for a name or a value in a tag. -/
def isPrinting : Node → Bool
  | print .. | call .. => true
  | _ => false

/-- Control flow. -/
def isFlow : Node → Bool
  | flow _ => true
  | _ => false

/-- The element that a tag of this name opens or closes, where the name is written out. -/
def rcdata? (name : Node) : Option Rcdata := name.rawText?.bind Rcdata.ofName?

end Node

/-! ## 4. Templates -/

/-- A declared parameter of a template. -/
structure ParamDecl where
  name : Text
  type : Text
deriving DecidableEq

/-- A template: its header and its body. -/
structure Template where
  id : NodeId
  location : Span
  name : Text
  kind : ContentKind
  params : List ParamDecl
  nodes : List Node

/-- The templates of a file, and the namespace they are in. -/
structure TemplateFile where
  namespaceName : Option Text
  templates : List Template

end TemplateMarkup
