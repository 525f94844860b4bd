/-
# Contexts

Where in html the reader stands: in content, in an element whose body is text, in a tag, in an
attribute.  A context is a small value with nothing hidden in it, so every branch of control
flow can be read from the same one.

Contexts that differ only in how far a tag has been read have one `ContextClass`; branches have
to agree on the class.
-/
import TemplateMarkup.Tree.Node
import TemplateMarkup.Text.Blank

namespace TemplateMarkup

/-! ## 1. Characters -/

/-- Characters that may start a tag name. -/
def startsTagName (c : Char) : Bool := c.isAlpha

/-- Characters of a tag name after the first. -/
def inTagName (c : Char) : Bool := c.isAlphanum || c == '-' || c == '_' || c == ':' || c == '.'

/-- Characters that may start an attribute name. -/
def startsAttrName (c : Char) : Bool := c.isAlpha || c == '_' || c == '$'

/-- Characters of an attribute name after the first, separators aside. -/
def inAttrName (c : Char) : Bool := c.isAlphanum || c == '_' || c == '$'

/-- Characters that join the parts of an attribute name: they may not stand side by side or at
its end. -/
def separatesAttrName (c : Char) : Bool := c == '-' || c == ':'

/-- Characters that end a tag name or an attribute name. -/
def endsName (c : Char) : Bool := isAsciiBlank c || c == '/' || c == '>'

/-! ## 2. Contexts -/

/-- How much of a name has been read. -/
inductive NamePart
  | empty
  /-- Characters of the name. -/
  | static
  /-- A print or a call that stands for the name. -/
  | dynamic
deriving DecidableEq, Inhabited

/-- Where in html the reader stands. -/
inductive Context
  | pcdata
  /-- In an element whose body ends at its own close tag only. -/
  | rcdata (element : Rcdata)
  | comment
  /-- In `<!…>` or `<?…>`, which is kept as text. -/
  | declaration
  | cdata
  | tagName (name : NamePart)
  | beforeAttrName
  /-- In an attribute name: `afterSeparator` after a `-` or `:`, and `discard` if the attribute
  is dropped. -/
  | attrName (name : NamePart) (afterSeparator discard : Bool)
  | beforeAttrValue
  | attrValue (quotes : Quotes)
deriving DecidableEq, Inhabited

/-- Contexts as control flow sees them. -/
inductive ContextClass
  | pcdata
  | rcdata (element : Rcdata)
  | comment
  | declaration
  | cdata
  | tag
  | beforeAttrValue
  | attrValue (quotes : Quotes)
deriving DecidableEq

namespace Context

/-- The context in which content of a kind starts; kinds that hold no html have none. -/
def entry? : ContentKind → Option Context
  | .html => some pcdata
  | .attributes => some beforeAttrName
  | _ => none

/-- The context as messages name it. -/
def name : Context → String
  | pcdata => "pcdata"
  | rcdata element => element.name
  | comment => "html comment"
  | declaration => "html declaration"
  | cdata => "cdata"
  | tagName _ => "html tag name"
  | beforeAttrName => "html tag"
  | attrName .. => "attribute name"
  | beforeAttrValue => "before attribute value"
  | attrValue .bare => "unquoted attribute value"
  | attrValue .single => "single quoted attribute value"
  | attrValue .double => "double quoted attribute value"

/-- Text up to a fixed mark.  A block may not end in such a context unless it began in it. -/
def isRaw : Context → Bool
  | rcdata _ | comment | declaration | cdata => true
  | _ => false

/-- The class of a context. -/
def kind : Context → ContextClass
  | pcdata => .pcdata
  | rcdata element => .rcdata element
  | comment => .comment
  | declaration => .declaration
  | cdata => .cdata
  | tagName _ | beforeAttrName | attrName .. => .tag
  | beforeAttrValue => .beforeAttrValue
  | attrValue quotes => .attrValue quotes

/-- The attribute whose name is being read is dropped. -/
def discards : Context → Bool
  | attrName _ _ discard => discard
  | _ => false

end Context

end TemplateMarkup
