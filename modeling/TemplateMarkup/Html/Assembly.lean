/-
# Assemblies

An assembly is the html of one block or branch while it is put together: the nodes that are
finished, the tag, attribute, value and comment that are not (the *drafts*), and the context
that has been reached.  At most one of each draft is open, and only the operations of this
module open, fill and close them.

All lists of nodes in an assembly have the latest first.
-/
import TemplateMarkup.Html.Context
import TemplateMarkup.Html.Ledger

namespace TemplateMarkup

/-! ## 1. Drafts -/

/-- A tag whose end has not been read. -/
structure TagDraft where
  close : Bool
  /-- The offset of its `<`. -/
  start : Nat
  /-- The name as far as it has been read. -/
  nameText : Text
  nameLocation : Span
  /-- The finished name. -/
  name : Option Node
  /-- Attributes, and what stands among them. -/
  children : List Node
  /-- The element whose body this close tag ends. -/
  element : Option Rcdata
  /-- Attributes of this close tag have been reported. -/
  warned : Bool

/-- The context around a tag. -/
def TagDraft.outside (tag : TagDraft) : Context :=
  match tag.element with
  | some element => .rcdata element
  | none => .pcdata

/-- An attribute whose end has not been read. -/
structure AttrDraft where
  start : Nat
  nameText : Text
  nameLocation : Span
  name : Option Node
  /-- The attribute is dropped when it ends. -/
  discard : Bool

/-- An attribute value whose end has not been read. -/
structure ValueDraft where
  quotes : Quotes
  start : Nat
  children : List Node

/-- A comment whose end has not been read. -/
structure CommentDraft where
  start : Nat
  children : List Node

/-- The html of a block or branch while it is put together. -/
structure Assembly where
  ledger : Ledger
  /-- The context at the start. -/
  entry : Context
  /-- The context that has been reached. -/
  context : Context
  inBranch : Bool
  /-- The finished nodes. -/
  out : List Node
  tag : Option TagDraft
  attr : Option AttrDraft
  value : Option ValueDraft
  comment : Option CommentDraft
  /-- A branch that stands for an attribute value has produced one. -/
  slotFilled : Bool
  /-- Where the last raw context was entered. -/
  rawStart : Option Nat
  /-- The source offset that has been reached. -/
  offset : Nat

namespace Assembly

/-- Nothing has been read of a block or branch at `offset`. -/
def start (ledger : Ledger) (entry : Context) (inBranch : Bool) (offset : Nat) : Assembly where
  ledger := ledger
  entry := entry
  context := entry
  inBranch := inBranch
  out := []
  tag := none
  attr := none
  value := none
  comment := none
  slotFilled := false
  rawStart := if entry.isRaw then some offset else none
  offset := offset

/-! ## 2. Context and ledger -/

/-- Goes on in another context, from a source offset on. -/
def enter (b : Assembly) (next : Context) (offset : Nat) : Assembly :=
  if b.context = next then b
  else
    { b with
      context := next
      rawStart := if next.isRaw && !b.context.isRaw then some offset else b.rawStart
      ledger := b.ledger.countChange }

@[simp] theorem enter_context (b : Assembly) (next : Context) (offset : Nat) :
    (b.enter next offset).context = next := by
  unfold enter
  split
  · next h => exact h
  · rfl

/-- One more diagnostic. -/
def report (b : Assembly) (location : Span) (fault : Fault) : Assembly :=
  { b with ledger := b.ledger.report location fault }

/-! ## 3. Containers -/

/-- The nodes beside which content goes: those of the value or comment that is open, if the
context is in it, else the finished nodes. -/
def content (b : Assembly) : List Node :=
  match b.context, b.value, b.comment with
  | .attrValue _, some value, _ => value.children
  | .comment, _, some comment => comment.children
  | _, _, _ => b.out

/-- Replaces the nodes beside which content goes. -/
def setContent (b : Assembly) (nodes : List Node) : Assembly :=
  match b.context, b.value, b.comment with
  | .attrValue _, some value, _ => { b with value := some { value with children := nodes } }
  | .comment, _, some comment => { b with comment := some { comment with children := nodes } }
  | _, _, _ => { b with out := nodes }

/-- One more node of content. -/
def addContent (b : Assembly) (node : Node) : Assembly := b.setContent (node :: b.content)

/-- More text of content: it joins the text before it, and has a name of its own only if there
is none. -/
def addText (b : Assembly) (text : Text) (location : Span) : Assembly :=
  match b.content with
  | .raw id before t :: nodes =>
    b.setContent (.raw id (before.union location) (t ++ text) :: nodes)
  | nodes =>
    { b with ledger := b.ledger.drawn }.setContent
      (.raw b.ledger.ids.next location text :: nodes)

/-- One more finished node. -/
def addOut (b : Assembly) (node : Node) : Assembly := { b with out := node :: b.out }

/-- One more node among the attributes of the open tag, or of the block if no tag is open. -/
def addAmongAttrs (b : Assembly) (node : Node) : Assembly :=
  match b.tag with
  | some tag => { b with tag := some { tag with children := node :: tag.children } }
  | none => b.addOut node

/-! ## 4. Tags -/

/-- Opens a tag; `location` is that of its `<` or `</`. -/
def openTag (b : Assembly) (close : Bool) (location : Span) : Assembly :=
  { b with
    tag := some {
      close := close
      start := location.start
      nameText := []
      nameLocation := Span.point location.stop
      name := none
      children := []
      element := match b.context with
        | .rcdata element => some element
        | _ => none
      warned := false } }

/-- More characters of the open tag's name. -/
def addTagName (b : Assembly) (text : Text) (location : Span) : Assembly :=
  match b.tag with
  | none => b
  | some tag =>
    let all := if tag.nameText.isEmpty then location else tag.nameLocation.union location
    { b with tag := some { tag with nameText := tag.nameText ++ text, nameLocation := all } }

/-- The characters of the open tag's name become its name. -/
def finishTagName (b : Assembly) : Assembly :=
  match b.tag with
  | none => b
  | some tag =>
    if tag.name.isNone && !tag.nameText.isEmpty then
      let name := Node.raw b.ledger.ids.next tag.nameLocation tag.nameText
      { b with
        ledger := b.ledger.drawn
        tag := some { tag with nameText := [], name := some name } }
    else b

/-- Gives up the open tag: what has been read of it becomes content. -/
def abortTag (b : Assembly) : Assembly :=
  match b.tag with
  | none => b
  | some tag =>
    let literal := (if tag.close then ['<', '/'] else ['<']) ++ tag.nameText
    let location := Span.upTo tag.start tag.nameLocation.stop
    let b := { b with tag := none }.enter tag.outside tag.start
    let b := b.addText literal location
    match tag.name with
    | some name => b.addOut name
    | none => b

/-- A finished close tag.  What stood among its attributes comes after it. -/
def addCloseTag (b : Assembly) (tag : TagDraft) (name : Node) (location : Span) : Assembly :=
  let id := b.ledger.ids.next
  let b := { b with ledger := b.ledger.drawnForHtml }
  let b := if name.rcdata?.isSome && tag.element.isNone then
      b.report location .unexpectedCloseTag
    else b
  let b := if !tag.children.isEmpty && !tag.warned then
      b.report location .closeTagWithAttributes
    else b
  { b with out := tag.children ++ Node.closeTag id location name :: b.out }.enter .pcdata tag.start

/-- A finished open tag.  `bodyFollows` tells whether the body of an element of text follows. -/
def addOpenTag (b : Assembly) (tag : TagDraft) (name : Node) (location : Span)
    (selfClosing bodyFollows : Bool) : Assembly :=
  let id := b.ledger.ids.next
  let next := match name.rcdata? with
    | some element => if bodyFollows && !selfClosing then .rcdata element else .pcdata
    | none => .pcdata
  { b with
    ledger := b.ledger.drawnForHtml
    out := Node.openTag id location name tag.children.reverse selfClosing :: b.out }.enter
    next tag.start

/-- Closes the open tag at a source offset; a tag without a name is given up. -/
def closeTag (b : Assembly) (selfClosing : Bool) (stop : Nat) (bodyFollows : Bool) : Assembly :=
  match b.tag with
  | none => b
  | some tag =>
    match tag.name with
    | none => b.abortTag
    | some name =>
      let location := Span.upTo tag.start stop
      let b := { b with tag := none }
      if tag.close then b.addCloseTag tag name location
      else b.addOpenTag tag name location selfClosing bodyFollows

/-! ## 5. Attributes -/

/-- Why an attribute may not start here: in a close tag, or after the value that a branch stands
for. -/
def attrFault? (b : Assembly) : Option Fault :=
  match b.tag with
  | some tag => if tag.close then some .closeTagWithAttributes else none
  | none => if b.entry = .beforeAttrValue && b.slotFilled then some .contentAfterValue else none

/-- Reports an attribute that may not start here, for a close tag only once. -/
def reportAttr (b : Assembly) (location : Span) : Assembly :=
  match b.attrFault?, b.tag with
  | none, _ => b
  | some fault, none => b.report location fault
  | some fault, some tag =>
    if tag.warned then b
    else { b.report location fault with tag := some { tag with warned := true } }

/-- Opens an attribute. -/
def openAttr (b : Assembly) (location : Span) (name : Option Node) (discard : Bool) : Assembly :=
  { b.reportAttr location with
    attr := some {
      start := location.start
      nameText := []
      nameLocation := location
      name := name
      discard := discard || b.attrFault?.isSome } }

/-- More characters of the open attribute's name. -/
def addAttrName (b : Assembly) (text : Text) (location : Span) : Assembly :=
  match b.attr with
  | none => b
  | some attr =>
    if attr.discard then b
    else
      let all := if attr.nameText.isEmpty then location else attr.nameLocation.union location
      { b with attr := some { attr with nameText := attr.nameText ++ text, nameLocation := all } }

/-- The open attribute is dropped when it ends. -/
def discardAttr (b : Assembly) : Assembly :=
  { b with attr := b.attr.map fun attr => { attr with discard := true } }

/-- The characters of the open attribute's name become its name. -/
def finishAttrName (b : Assembly) : Assembly :=
  match b.attr with
  | none => b
  | some attr =>
    if attr.name.isNone && !attr.nameText.isEmpty then
      let name := Node.raw b.ledger.ids.next attr.nameLocation attr.nameText
      { b with
        ledger := b.ledger.drawn
        attr := some { attr with nameText := [], name := some name } }
    else b

/-- A finished attribute, unless it is dropped or has no name. -/
def addAttr (b : Assembly) (attr : AttrDraft) (value : Option Node) (stop : Nat) : Assembly :=
  if attr.discard then b
  else
    match attr.name with
    | none => b
    | some name =>
      let node := Node.attr b.ledger.ids.next (Span.upTo attr.start stop) name value
      { b with ledger := b.ledger.drawnForHtml }.addAmongAttrs node

/-- Ends the open attribute without a value. -/
def endAttr (b : Assembly) (stop : Nat) : Assembly :=
  let b := b.finishAttrName
  match b.attr with
  | none => b
  | some attr => { b with attr := none }.addAttr attr none stop

/-- Closes the open attribute without a value, and goes on in the tag. -/
def closeAttr (b : Assembly) (stop : Nat) : Assembly := (b.endAttr stop).enter .beforeAttrName stop

/-! ## 6. Values and comments -/

/-- Gives a value, or control flow that produces one, to the attribute that waits for it.  In a
branch that stands for a value there is none, and the value is what the branch gives. -/
def giveValue (b : Assembly) (value : Node) (stop : Nat) : Assembly :=
  match b.attr with
  | some attr => { b with attr := none }.addAttr attr (some value) stop
  | none => { b.addOut value with slotFilled := true }

/-- Gives a value, and goes on in the tag. -/
def fillSlot (b : Assembly) (value : Node) (stop : Nat) : Assembly :=
  (b.giveValue value stop).enter .beforeAttrName stop

/-- Ends the open value. -/
def endValue (b : Assembly) (stop : Nat) : Assembly :=
  match b.value with
  | none => b
  | some value =>
    let node := Node.attrValue b.ledger.ids.next (Span.upTo value.start stop) value.quotes
      value.children.reverse
    { b with ledger := b.ledger.drawnForHtml, value := none }.giveValue node stop

/-- Closes the open value, and goes on in the tag. -/
def closeValue (b : Assembly) (stop : Nat) : Assembly :=
  match b.value with
  | none => b
  | some _ => (b.endValue stop).enter .beforeAttrName stop

/-- Ends the open comment. -/
def endComment (b : Assembly) (stop : Nat) : Assembly :=
  match b.comment with
  | none => b
  | some comment =>
    let node := Node.comment b.ledger.ids.next (Span.upTo comment.start stop)
      comment.children.reverse
    { b with ledger := b.ledger.drawnForHtml, comment := none }.addOut node

end Assembly

end TemplateMarkup
