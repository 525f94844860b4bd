/-
# The pass with its partial steps

`Assembly.read` and `Assembly.place` are total by the way they are written.  This module states the
same pass with the steps that can go wrong: text is cut out of a run by byte offsets, which have to
lie in it and between two characters; a span has to end where it starts or later; a lexeme may not
reach past the end of the text; every turn of the reading loop has to take bytes or change the
context; in a tag name a tag has to be under construction; and a node that cannot stand where it was
met is placed anew.

Neither the loop nor the placing anew is known to come to an end here, so both get a number of turns:
the loop one more than there is work in the run (`Context.workLeft`), and a node two places.  The
guarded pass gives nothing (`none`) where a partial step fails and where the turns run out.
-/
import TemplateMarkup.Html.Rewrite

namespace TemplateMarkup

/-! ## 1. Texts and spans -/

/-- The characters from byte `start` up to byte `stop`.  There are none when an offset lies past the
end or inside a character, or when the text would end before it starts. -/
def Text.slice? (start stop : Nat) (t : Text) : Option Text := do
  let rest ← t.dropBytes? start
  let after ← t.dropBytes? stop
  guard (start ≤ stop)
  return rest.take (rest.length - after.length)

/-- The span from `start` to `stop`, if it does not end before it starts. -/
def Span.between? (start stop : Nat) : Option Span :=
  if h : start ≤ stop then some ⟨start, stop, h⟩ else none

/-- The span of the bytes from `start` up to `stop`, kept from ending before it starts. -/
def RawRun.location? (r : RawRun) (start stop : Nat) : Option Span :=
  Span.between? (r.locate start) (max (r.locate start) (r.locateEnd stop))

/-- The bytes that a lexeme takes of a text, if there are that many characters. -/
def Lexeme.size? (l : Lexeme) (t : Text) : Option Nat :=
  if l.width ≤ t.length then some (Text.size (t.take l.width)) else none

/-! ## 2. Reading and placing -/

def Context.isTagName : Context → Bool
  | tagName _ => true
  | _ => false

namespace Assembly

/-- In a tag name a tag is under construction. -/
def hasTag (b : Assembly) : Bool := !b.context.isTagName || b.tag.isSome

/-- Adds the content that is held, which starts at byte `held` of the run and ends at `pos`. -/
def releaseGuarded (b : Assembly) (run : RawRun) (held : Option Nat) (pos : Nat) :
    Option Assembly :=
  match held with
  | none => some b
  | some start => return b.addText (← run.text.slice? start pos) (← run.location? start pos)

/-- Does what a mark says.  Where there is no tag to give up, nothing happens. -/
def applyGuarded (b : Assembly) (mark : Mark) (next : Context) (text : Text) (location : Span) :
    Assembly :=
  match mark with
  | .tagAbort => b.abortTag
  | mark => b.apply mark next text location

/-- Reads the rest of a run from byte `pos` on, within some number of turns; the content that is held
starts at byte `held`. -/
def readGuarded (b : Assembly) (run : RawRun) (pos : Nat) (held : Option Nat) :
    Nat → Option Assembly
  | 0 => none
  | turns + 1 => do
    guard b.hasTag
    match ← run.text.dropBytes? pos with
    | [] => b.releaseGuarded run held pos
    | c :: cs =>
      let l := b.context.lexeme c cs
      let size ← l.size? (c :: cs)
      let stop := pos + size
      let b' := b.reportLexeme (← run.location? pos (pos + max size c.utf8Size)) l
      match l.mark with
      | none => (b'.enter l.next (run.locate pos)).readGuarded run stop (some (held.getD pos)) turns
      | some mark =>
        let released ← b'.releaseGuarded run held pos
        let after := released.applyGuarded mark l.next (← run.text.slice? pos stop)
          (← run.location? pos stop)
        guard (0 < size || after.context != b.context)
        after.readGuarded run stop none turns

/-- Reads a run of raw text. -/
def readRunGuarded (b : Assembly) (run : RawRun) : Option Assembly := do
  let b := { b with ledger := b.ledger.countRun }
  let turns := b.context.workLeft run.text + 1
  return { ← b.readGuarded run 0 none turns with offset := run.locateEnd run.text.size }

/-- Places a node that is neither text nor control flow, anew where it ends a name, within some number
of turns. -/
def placeGuarded (b : Assembly) (node : Node) : Nat → Option Assembly
  | 0 => none
  | turns + 1 => do
    guard b.hasTag
    match b.context with
    | .pcdata | .rcdata _ | .comment | .declaration | .cdata | .attrValue _ => b.placeContent node
    | .tagName .empty =>
      if node.isPrinting then b.placeTagName node
      else (b.report node.location .expectedTagName).abortTag.placeGuarded node turns
    | .tagName _ =>
      ((b.reportJoined node).finishTagName.enter .beforeAttrName
        node.location.start).placeGuarded node turns
    | .beforeAttrName => b.placeInTag node
    | .attrName _ _ discard =>
      if discard && node.isPrinting then b
      else ((b.reportJoined node).closeAttr node.location.start).placeGuarded node turns
    | .beforeAttrValue => b.placeBeforeValue node

/-- Reads the run that has been collected, if there is one. -/
def readCollectedGuarded (b : Assembly) : Option RawRun → Option Assembly
  | none => b
  | some run => b.readRunGuarded run

/-- Collects one more raw text node. -/
def collectGuarded (b : Assembly) (run : Option RawRun) (text : Text) (location : Span) :
    Option (Assembly × RawRun) :=
  match run with
  | none => some (b, .single text location)
  | some run =>
    if b.ledger.config.joinText then some (b, run.push text location)
    else return (← b.readRunGuarded run, .single text location)

end Assembly

/-! ## 3. The pass -/

mutual

/-- Feeds nodes to an assembly. -/
def feedNodesGuarded (b : Assembly) (run : Option RawRun) : List Node → Option Assembly
  | [] => b.readCollectedGuarded run
  | n :: nodes =>
    match n.rawText? with
    | some text => do
      let (b, run) ← b.collectGuarded run text n.location
      feedNodesGuarded b (some run) nodes
    | none => do feedNodesGuarded (← feedNodeGuarded (← b.readCollectedGuarded run) n) none nodes

/-- Feeds a node that is not raw text. -/
def feedNodeGuarded (b : Assembly) : Node → Option Assembly
  | .call id location callee params => do
    let (params, ledger) ← rewriteParamsGuarded b.ledger params
    let b ← { b with ledger := ledger }.placeGuarded (.call id location callee params) 2
    return b.reach location.stop
  | .binding id location var value => do
    let (value, ledger) ← rewriteValueGuarded b.ledger .letContent location value
    let b ← { b with ledger := ledger }.placeGuarded (.binding id location var value) 2
    return b.reach location.stop
  | .flow flow => do
    guard b.hasTag
    let b := b.settle flow.location
    let (flow, exit, ledger) ← rewriteFlowGuarded b.ledger b.context flow
    return ({ b with ledger := ledger }.placeFlow flow exit).reach flow.location.stop
  | node => return (← b.placeGuarded node 2).reach node.location.stop

/-- Puts the branches of control flow together. -/
def rewriteFlowGuarded (ledger : Ledger) (entry : Context) :
    Flow → Option (Flow × Context × Ledger)
  | ⟨id, location, head, branches⟩ =>
    let limit := ledger.config.maxDepth
    if ledger.depth ≥ limit then
      return (⟨id, location, head, branches⟩, entry,
        ledger.report location (.controlFlowTooDeep limit))
    else do
      let (rebuilt, exits, inner) ← rewriteBranchesGuarded
        { ledger with depth := ledger.depth + 1 } entry location.start branches
      let (exit, after) := reconcile { inner with depth := ledger.depth } location head entry exits
      return (⟨id, location, head, rebuilt⟩, exit, after)

/-- Puts branches together, in order. -/
def rewriteBranchesGuarded (ledger : Ledger) (entry : Context) (offset : Nat) :
    List Branch → Option (List Branch × Exits × Ledger)
  | [] => some ([], [], ledger)
  | branch :: branches => do
    let (rebuilt, exit, ledger) ← rewriteBranchGuarded ledger entry offset branch
    let (later, exits, ledger) ← rewriteBranchesGuarded ledger entry offset branches
    return (rebuilt :: later, (rebuilt.kind, exit) :: exits, ledger)

/-- Puts a branch together. -/
def rewriteBranchGuarded (ledger : Ledger) (entry : Context) (offset : Nat) :
    Branch → Option (Branch × Context × Ledger)
  | ⟨id, kind, nodes⟩ => do
    let b ← feedNodesGuarded (.start ledger.countBranch entry true offset) none nodes
    guard b.hasTag
    let b := b.endBranch
    return (⟨id, kind, b.nodes⟩, b.context, b.ledger)

/-- Rewrites the content blocks among the parameters of a call. -/
def rewriteParamsGuarded (ledger : Ledger) : List Param → Option (List Param × Ledger)
  | [] => some ([], ledger)
  | p :: params => do
    let (first, ledger) ← rewriteParamGuarded ledger p
    let (later, ledger) ← rewriteParamsGuarded ledger params
    return (first :: later, ledger)

/-- Rewrites the content block of a parameter. -/
def rewriteParamGuarded (ledger : Ledger) : Param → Option (Param × Ledger)
  | ⟨id, location, name, value⟩ => do
    let (value, ledger) ← rewriteValueGuarded ledger .paramContent location value
    return (⟨id, location, name, value⟩, ledger)

/-- Rewrites a content block. -/
def rewriteValueGuarded (ledger : Ledger) (block : BlockKind) (location : Span) :
    Value → Option (Value × Ledger)
  | .expr expr => some (.expr expr, ledger)
  | .content kind nodes =>
    let ledger := ledger.countBlock
    match Context.entry? (declaredOrHtml kind) with
    | some entry => do
      let b ← feedNodesGuarded (.start ledger entry false location.start) none nodes
      guard b.hasTag
      let b := b.endBlock block
      return (.content kind b.nodes, b.ledger)
    | none => do
      let (nodes, ledger) ← enterNodesGuarded ledger nodes
      return (.content kind nodes, ledger)

/-- Rewrites the content blocks among nodes that are not html. -/
def enterNodesGuarded (ledger : Ledger) : List Node → Option (List Node × Ledger)
  | [] => some ([], ledger)
  | n :: nodes => do
    let (first, ledger) ← enterNodeGuarded ledger n
    let (later, ledger) ← enterNodesGuarded ledger nodes
    return (first :: later, ledger)

/-- Rewrites the content blocks of a node that is not html. -/
def enterNodeGuarded (ledger : Ledger) : Node → Option (Node × Ledger)
  | .call id location callee params => do
    let (params, ledger) ← rewriteParamsGuarded ledger params
    return (.call id location callee params, ledger)
  | .binding id location var value => do
    let (value, ledger) ← rewriteValueGuarded ledger .letContent location value
    return (.binding id location var value, ledger)
  | .flow flow => do
    let (flow, ledger) ← enterFlowGuarded ledger flow
    return (.flow flow, ledger)
  | node => some (node, ledger)

/-- Rewrites the content blocks in the branches of control flow that is not html. -/
def enterFlowGuarded (ledger : Ledger) : Flow → Option (Flow × Ledger)
  | ⟨id, location, head, branches⟩ => do
    let (branches, ledger) ← enterBranchesGuarded ledger branches
    return (⟨id, location, head, branches⟩, ledger)

/-- Rewrites the content blocks in branches that are not html. -/
def enterBranchesGuarded (ledger : Ledger) : List Branch → Option (List Branch × Ledger)
  | [] => some ([], ledger)
  | branch :: branches => do
    let (first, ledger) ← enterBranchGuarded ledger branch
    let (later, ledger) ← enterBranchesGuarded ledger branches
    return (first :: later, ledger)

/-- Rewrites the content blocks in a branch that is not html. -/
def enterBranchGuarded (ledger : Ledger) : Branch → Option (Branch × Ledger)
  | ⟨id, kind, nodes⟩ => do
    let (nodes, ledger) ← enterNodesGuarded ledger nodes
    return (⟨id, kind, nodes⟩, ledger)

end

/-- Gives structure to the html of a template, unless a partial step fails. -/
def Template.rewriteGuarded (config : Config) (ids : IdSource) (t : Template) :
    Option (Rewritten Template) := do
  let (value, ledger) ← rewriteValueGuarded (.start config ids) .template t.location
    (.content (some t.kind) t.nodes)
  return ledger.outcome { t with nodes := value.nodes }

end TemplateMarkup
