/-
# Faults in html

What can be wrong with the html of a template, each with its message.  No fault stops the
reading: it is reported with its place, and the reader goes on.
-/
import TemplateMarkup.Span

namespace TemplateMarkup

/-- The html that is named in a message. -/
inductive Construct
  | tag
  | attr
  | attributeValue
  | comment
deriving DecidableEq

/-- The construct as messages name it. -/
def Construct.name : Construct → String
  | tag => "html tag"
  | attr => "html attribute"
  | attributeValue => "attribute value"
  | comment => "html comment"

/-- The blocks whose end is checked. -/
inductive BlockKind
  | template
  | letContent
  | paramContent
deriving DecidableEq, Inhabited

/-- The block as messages name it. -/
def BlockKind.name : BlockKind → String
  | template => "template"
  | letContent => "let content"
  | paramContent => "param content"

/-- What is wrong.  Contexts are given by the names that messages use. -/
inductive Fault
  | illegalTagName
  | illegalAttrName
  /-- A close tag of an element with a text body, outside that element. -/
  | unexpectedCloseTag
  /-- A block that ends in a raw context it did not begin in. -/
  | blockChangesContext (block : BlockKind) (before after : String)
  /-- Branches of a command that end in different contexts. -/
  | branchesDisagree (command first other : String)
  /-- A loop body that ends in another context than it began in. -/
  | loopChangesContext (before after : String)
  /-- A branch that does not close what it opened. -/
  | unclosedInBranch (construct : Construct)
  /-- The end of something that was opened in another block. -/
  | closedInOtherBlock (construct : Construct)
  | expectedBlankAfterName
  | controlFlowInTagName
  | expectedTagName
  | closeTagWithAttributes
  /-- More than a value in a branch that stands for one. -/
  | contentAfterValue
  | controlFlowTooDeep (limit : Nat)
deriving DecidableEq

/-- The message of a fault. -/
def Fault.message : Fault → String
  | illegalTagName => "Illegal tag name character."
  | illegalAttrName => "Illegal attribute name character."
  | unexpectedCloseTag => "Unexpected close tag for context-changing tag."
  | blockChangesContext block before after =>
    block.name ++ " changes context from '" ++ before ++ "' to '" ++ after
      ++ "'. Did you forget to close the " ++ after ++ "?"
  | branchesDisagree command first other =>
    "The branches of this \x7b" ++ command ++ "\x7d end in different contexts ('" ++ first
      ++ "' and '" ++ other ++ "'). Every branch must end in the same context."
  | loopChangesContext before after =>
    "\x7bfor\x7d loop body changes context from '" ++ before ++ "' to '" ++ after
      ++ "'. A loop body must end in the context it starts in."
  | unclosedInBranch construct =>
    "Expected the " ++ construct.name ++ " to be closed before the end of this branch."
  | closedInOtherBlock construct =>
    "Found the end of an " ++ construct.name ++ " that was started in another block."
  | expectedBlankAfterName =>
    "Expected whitespace, '=', '/' or '>' after an html tag or attribute name."
  | controlFlowInTagName => "Control flow is not allowed in html tag names."
  | expectedTagName => "Expected an html tag name."
  | closeTagWithAttributes => "Html close tags cannot have attributes."
  | contentAfterValue =>
    "A branch that produces an attribute value cannot contain anything after the value."
  | controlFlowTooDeep limit =>
    "Control flow is nested more than " ++ limit.repr ++ " levels deep inside html."

/-- A fault and its place. -/
structure Diagnostic where
  location : Span
  fault : Fault
deriving DecidableEq

/-- The diagnostic on one line: its place in bytes, and the message. -/
def Diagnostic.line (d : Diagnostic) : String :=
  d.location.start.repr ++ ".." ++ d.location.stop.repr ++ ": " ++ d.fault.message

end TemplateMarkup
