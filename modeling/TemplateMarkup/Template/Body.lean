/-
# Bodies

A body is read token by token.  `Body` is what has been read so far: the nodes of the innermost
construct, and the constructs that are open around it, each with the nodes that stand before
it.  A command that produces a node adds it; a command that opens a construct puts the nodes
aside; a command that ends a body is handed to the construct that is open (`Frame.resume`).

Node names are drawn in the order in which nodes are finished: a construct takes its name after
all its parts, and a branch when the command after it has been read.  A body that is refused
says which names it had drawn by then (`Rejection`).
-/
import TemplateMarkup.Template.Token

namespace TemplateMarkup

/-! ## 1. Open constructs -/

/-- A construct whose closing command has not been read.  Branches and parameters are kept with
the latest first. -/
inductive Frame
  | letBody (opener : Span) (var : Text) (kind : Option ContentKind)
  /-- Between the parameters of a call. -/
  | call (opener : Span) (callee : Text) (params : List Param)
  /-- In a parameter of a call. -/
  | paramBody (opener : Span) (callee : Text) (params : List Param) (paramOpener : Span)
      (name : Text) (kind : Option ContentKind)
  | ifBranch (opener : Span) (branches : List Branch) (kind : BranchKind)
  /-- Before the first case of a `{switch}`. -/
  | switchHead (opener : Span) (expr : Text)
  | switchBranch (opener : Span) (expr : Text) (branches : List Branch) (kind : BranchKind)
  | forBody (opener : Span) (var expr : Text)
  | forEmpty (opener : Span) (var expr : Text) (branches : List Branch)

/-- What has been read of a body: the nodes of the innermost open construct and, for each open
construct from the inside out, the construct and the nodes before it.  All lists of nodes have
the latest first, and so have the declared parameters. -/
structure Body where
  ids : IdSource
  params : List ParamDecl
  nodes : List Node
  frames : List (Frame × List Node)

/-- An error, and the source of names at that moment. -/
structure Rejection where
  error : SyntaxError
  ids : IdSource

namespace Body

/-- A body of which nothing has been read. -/
def empty (ids : IdSource) : Body := ⟨ids, [], [], []⟩

/-- The body with one more node, whose name is the next one. -/
def add (b : Body) (node : NodeId → Node) : Body :=
  { b with ids := b.ids.rest, nodes := node b.ids.next :: b.nodes }

/-- The body inside a construct that has just been opened. -/
def enter (b : Body) (frame : Frame) : Body :=
  { b with nodes := [], frames := (frame, b.nodes) :: b.frames }

/-- Refused at an offset. -/
def refuse {α : Type} (ids : IdSource) (fault : SyntaxFault) (offset : Nat) :
    Except Rejection α := .error ⟨⟨fault, offset⟩, ids⟩

end Body

/-! ## 2. The command after a body -/

/-- The first node that is more than blanks. -/
def strayNode? (nodes : List Node) : Option Node :=
  nodes.find? fun n => !(n.rawText?.any Text.allBlank)

/-- Refuses anything but the closing command `name`. -/
def expectClose (ids : IdSource) (name : String) (command : Command) (location : Span) :
    Except Rejection Unit :=
  if command = .close name.toList then .ok ()
  else Body.refuse ids (.unexpectedCommand command) location.start

/-- The rejection of content directly inside a command that takes none; `nodes` has the latest
first. -/
def strayContent? (ids : IdSource) (name : String) (nodes : List Node) : Option Rejection :=
  (strayNode? nodes.reverse).map fun n => ⟨⟨.strayContent name, n.location.start⟩, ids⟩

/-- Refuses content directly inside a command that takes none. -/
def expectBlank (ids : IdSource) (name : String) (nodes : List Node) : Except Rejection Unit :=
  match strayContent? ids name nodes with
  | none => .ok ()
  | some rejection => .error rejection

namespace Frame

/-- The control-flow node of finished branches, which have the latest first. -/
def flowNode (opener close : Span) (head : FlowHead) (branches : List Branch) (id : NodeId) :
    Node :=
  .flow ⟨id, opener.union close, head, branches.reverse⟩

/-- What a construct does with the command that ended its current body: `inner` are the nodes
of that body, and `b` is the body around the construct. -/
def resume (b : Body) (inner : List Node) (command : Command) (location : Span) :
    Frame → Except Rejection Body
  | letBody opener var kind => do
    expectClose b.ids "let" command location
    return b.add fun id =>
      .binding id (opener.union location) var (.content kind inner.reverse)
  | call opener callee params => do
    expectBlank b.ids "call" inner
    match command with
    | .param name (some expr) _ =>
      let param : Param := ⟨b.ids.next, location, name, .expr expr⟩
      return { b with ids := b.ids.rest }.enter (call opener callee (param :: params))
    | .param name none kind =>
      return b.enter (paramBody opener callee params location name kind)
    | _ =>
      expectClose b.ids "call" command location
      return b.add fun id => .call id (opener.union location) callee params.reverse
  | paramBody opener callee params paramOpener name kind => do
    expectClose b.ids "param" command location
    let param : Param :=
      ⟨b.ids.next, paramOpener.union location, name, .content kind inner.reverse⟩
    return { b with ids := b.ids.rest }.enter (call opener callee (param :: params))
  | ifBranch opener branches kind => do
    let b' := { b with ids := b.ids.rest }
    let branches := ⟨b.ids.next, kind, inner.reverse⟩ :: branches
    match command with
    | .elseIf cond =>
      if kind = .default then Body.refuse b'.ids (.unexpectedCommand command) location.start
      else return b'.enter (ifBranch opener branches (.cond cond))
    | .otherwise =>
      if kind = .default then Body.refuse b'.ids (.unexpectedCommand command) location.start
      else return b'.enter (ifBranch opener branches .default)
    | _ =>
      expectClose b'.ids "if" command location
      return b'.add (flowNode opener location .ifThen branches)
  | switchHead opener expr => do
    expectBlank b.ids "switch" inner
    match command with
    | .caseOf exprs => return b.enter (switchBranch opener expr [] (.cond exprs))
    | .default => return b.enter (switchBranch opener expr [] .default)
    | _ =>
      expectClose b.ids "switch" command location
      return b.add (flowNode opener location (.switch expr) [])
  | switchBranch opener expr branches kind => do
    let b' := { b with ids := b.ids.rest }
    let branches := ⟨b.ids.next, kind, inner.reverse⟩ :: branches
    match command with
    | .caseOf exprs =>
      if kind = .default then Body.refuse b.ids .branchAfterDefault location.start
      else return b'.enter (switchBranch opener expr branches (.cond exprs))
    | .default =>
      if kind = .default then Body.refuse b.ids .branchAfterDefault location.start
      else return b'.enter (switchBranch opener expr branches .default)
    | _ =>
      expectClose b'.ids "switch" command location
      return b'.add (flowNode opener location (.switch expr) branches)
  | forBody opener var expr => do
    let b' := { b with ids := b.ids.rest }
    let branches : List Branch := [⟨b.ids.next, .loopBody, inner.reverse⟩]
    match command with
    | .ifEmpty => return b'.enter (forEmpty opener var expr branches)
    | _ =>
      expectClose b'.ids "for" command location
      return b'.add (flowNode opener location (.forEach var expr) branches)
  | forEmpty opener var expr branches => do
    let b' := { b with ids := b.ids.rest }
    let branches := ⟨b.ids.next, .default, inner.reverse⟩ :: branches
    expectClose b'.ids "for" command location
    return b'.add (flowNode opener location (.forEach var expr) branches)

/-- The rejection of a construct that the source leaves open; `inner` are the nodes of its
current body. -/
def unclosed (ids : IdSource) (inner : List Node) : Frame → Rejection
  | letBody opener .. => ⟨⟨.unclosed "let", opener.start⟩, ids⟩
  | call opener .. => (strayContent? ids "call" inner).getD ⟨⟨.unclosed "call", opener.start⟩, ids⟩
  | paramBody _ _ _ paramOpener .. => ⟨⟨.unclosed "param", paramOpener.start⟩, ids⟩
  | ifBranch opener .. => ⟨⟨.unclosed "if", opener.start⟩, ids.rest⟩
  | switchHead opener .. =>
    (strayContent? ids "switch" inner).getD ⟨⟨.unclosed "switch", opener.start⟩, ids⟩
  | switchBranch opener .. => ⟨⟨.unclosed "switch", opener.start⟩, ids.rest⟩
  | forBody opener .. | forEmpty opener .. => ⟨⟨.unclosed "for", opener.start⟩, ids.rest⟩

end Frame

/-! ## 3. Reading tokens -/

namespace Body

/-- The body after a command that ends it or one of its parts. -/
def endPart (b : Body) (command : Command) (location : Span) : Except Rejection Body :=
  match b.frames with
  | [] => refuse b.ids (.unexpectedCommand command) location.start
  | (frame, outer) :: frames =>
    frame.resume { b with nodes := outer, frames := frames } b.nodes command location

/-- The body after one more token. -/
def step (b : Body) : Token → Except Rejection Body
  | .text text location => return b.add fun id => .raw id location text
  | .command command location =>
    match command with
    | .special [] => return b
    | .special text => return b.add fun id => .raw id location text
    | .print expr => return b.add fun id => .print id location expr
    | .call callee true => return b.add fun id => .call id location callee []
    | .call callee false => return b.enter (.call location callee [])
    | .binding var (some expr) _ => return b.add fun id => .binding id location var (.expr expr)
    | .binding var none kind => return b.enter (.letBody location var kind)
    | .ifThen cond => return b.enter (.ifBranch location [] (.cond cond))
    | .switch expr => return b.enter (.switchHead location expr)
    | .forEach var expr => return b.enter (.forBody location var expr)
    | .paramDecl name type => return { b with params := ⟨name, type⟩ :: b.params }
    | command => b.endPart command location

/-- The body after the tokens of a scan.  The error of the scan comes last. -/
def readScan (b : Body) : List Token → Option SyntaxError → Except Rejection Body
  | [], none => .ok b
  | [], some error => .error ⟨error, b.ids⟩
  | token :: tokens, error => do (← b.step token).readScan tokens error

/-- The body at the end of the source, where no construct may be open. -/
def finish (b : Body) : Except Rejection Body :=
  match b.frames with
  | [] => .ok b
  | (frame, _) :: _ => .error (frame.unclosed b.ids b.nodes)

end Body

end TemplateMarkup
