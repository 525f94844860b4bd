/-
# Placing nodes that are not text

Prints, calls, bindings and html from an earlier run are placed by the context: as content, as
a computed name, as a value, or among the attributes of a tag.  Control flow first settles the
name that is being read (`settle`), because a branch may not begin inside a name.

At the end of a block or branch the drafts that are still open are closed (`closeDrafts`); a
branch reports the innermost of them that it opened itself.
-/
import TemplateMarkup.Html.Reading

namespace TemplateMarkup

namespace Assembly

/-! ## 1. Content -/

/-- The context after a node of html from an earlier run, which still moves into and out of
elements whose body is text. -/
def contextAfter? (here : Context) (node : Node) : Option Context :=
  match node, here with
  | .openTag _ _ name _ false, .pcdata => name.rcdata?.map Context.rcdata
  | .closeTag _ _ name, .rcdata element =>
    if name.rcdata? = some element then some .pcdata else none
  | _, _ => none

/-- Places a node as content. -/
def placeContent (b : Assembly) (node : Node) : Assembly :=
  match contextAfter? b.context node with
  | none => b.addContent node
  | some next => (b.addContent node).enter next node.location.start

/-! ## 2. Tags -/

/-- Places a node in a tag, between attributes. -/
def placeInTag (b : Assembly) (node : Node) : Assembly :=
  if node.isPrinting then
    (b.openAttr node.location (some node) false).enter
      (.attrName .dynamic false b.attrFault?.isSome) node.location.start
  else b.addAmongAttrs node

/-- Places a node where a tag name is due. -/
def placeTagName (b : Assembly) (node : Node) : Assembly :=
  if node.isPrinting then
    let named := match b.tag with
      | some tag => { b with tag := some { tag with name := some node } }
      | none => b.addOut node
    named.enter (.tagName .dynamic) node.location.start
  else (b.report node.location .expectedTagName).abortTag.placeContent node

/-- Places a node where an attribute value is due. -/
def placeBeforeValue (b : Assembly) (node : Node) : Assembly :=
  match node with
  | .print _ location _ | .call _ location _ _ =>
    { b with value := some ⟨.bare, location.start, [node]⟩ }.enter (.attrValue .bare)
      location.start
  | .attrValue _ location _ _ => b.fillSlot node location.stop
  | _ => b.addAmongAttrs node

/-- Reports a computed part right after a part of a name. -/
def reportJoined (b : Assembly) (node : Node) : Assembly :=
  if node.isPrinting then b.report node.location .expectedBlankAfterName else b

/-- Places a node that is neither text nor control flow. -/
def place (b : Assembly) (node : Node) : Assembly :=
  match b.context with
  | .pcdata | .rcdata _ | .comment | .declaration | .cdata | .attrValue _ => b.placeContent node
  | .tagName .empty => b.placeTagName node
  | .tagName _ =>
    ((b.reportJoined node).finishTagName.enter .beforeAttrName
      node.location.start).placeInTag node
  | .beforeAttrName => b.placeInTag node
  | .attrName _ _ discard =>
    -- A computed part of a name that is dropped is dropped with it.
    if discard && node.isPrinting then b
    else ((b.reportJoined node).closeAttr node.location.start).placeInTag node
  | .beforeAttrValue => b.placeBeforeValue node

/-! ## 3. Control flow -/

/-- Ends the name that is being read, before control flow at `location`. -/
def settle (b : Assembly) (location : Span) : Assembly :=
  match b.context with
  | .tagName .empty => (b.report location .controlFlowInTagName).abortTag
  | .tagName _ => b.finishTagName.enter .beforeAttrName location.start
  | .attrName .. => b.closeAttr location.start
  | _ => b

/-- Places control flow whose branches were read from the current context and that goes on in
context `exit`. -/
def placeFlow (b : Assembly) (flow : Flow) (exit : Context) : Assembly :=
  match b.context with
  | .beforeAttrValue =>
    if exit = .beforeAttrName then b.fillSlot (.flow flow) flow.location.stop
    else (b.addAmongAttrs (.flow flow)).enter exit flow.location.start
  | .beforeAttrName => (b.addAmongAttrs (.flow flow)).enter exit flow.location.start
  | _ => (b.addContent (.flow flow)).enter exit flow.location.start

/-! ## 4. The end of a block or branch -/

/-- Ends the name that is being read, at the end of the block or branch. -/
def settleAtEnd (b : Assembly) : Assembly :=
  match b.context with
  | .tagName .empty => b.abortTag
  | .tagName _ => b.finishTagName.enter .beforeAttrName b.offset
  | .attrName .. => b.closeAttr b.offset
  | _ => b

/-- The innermost construct that is open and has to be closed by who opened it, and where it
starts.  A value without quotes ends with its block. -/
def openConstruct? (b : Assembly) : Option (Construct × Nat) :=
  match b.value, b.attr, b.tag, b.comment with
  | some ⟨.bare, _, _⟩, _, some tag, _ => some (.tag, tag.start)
  | some ⟨.bare, _, _⟩, _, none, some comment => some (.comment, comment.start)
  | some ⟨.bare, _, _⟩, _, none, none => none
  | some value, _, _, _ => some (.attributeValue, value.start)
  | none, some attr, _, _ => some (.attr, attr.start)
  | none, none, some tag, _ => some (.tag, tag.start)
  | none, none, none, some comment => some (.comment, comment.start)
  | none, none, none, none => none

/-- Closes the drafts that are open, from the inside out. -/
def closeDrafts (b : Assembly) : Assembly :=
  let stop := b.offset
  let b := b.settleAtEnd
  let b := b.closeValue stop
  let b := if b.attr.isSome then b.closeAttr stop else b
  let b := b.closeTag false stop false
  if b.comment.isSome then (b.endComment stop).enter .pcdata stop else b

/-- Closes the drafts at the end of a branch, and reports what the branch leaves open. -/
def endBranch (b : Assembly) : Assembly :=
  match b.settleAtEnd.openConstruct? with
  | none => b.closeDrafts
  | some (construct, start) =>
    b.closeDrafts.report (Span.upTo start b.offset) (.unclosedInBranch construct)

/-- Reports a block that ends in a raw context it did not begin in. -/
def checkContext (b : Assembly) (block : BlockKind) : Assembly :=
  if b.context != b.entry && b.context.isRaw then
    b.report (Span.upTo (b.rawStart.getD b.offset) b.offset)
      (.blockChangesContext block b.entry.name b.context.name)
  else b

/-- Closes the drafts at the end of a block.  Only a raw context that does not end is an
error. -/
def endBlock (b : Assembly) (block : BlockKind) : Assembly := (b.checkContext block).closeDrafts

/-- The nodes of the block or branch, in order. -/
def nodes (b : Assembly) : List Node := b.out.reverse

end Assembly

end TemplateMarkup
