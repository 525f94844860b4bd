/-
# Giving structure to html

One pass from left to right over the nodes of a block.  Runs of raw text are read as html;
other nodes are placed where the text has led.  Content blocks of bindings and parameters are
blocks of their own, and each branch of control flow is put together from the context before
the control flow.

The branches have to agree on the context after them (`reconcile`): an `{if}` or `{switch}`
without a default may take no branch at all, and a loop body may run any number of times, so it
must end where it began.

Blocks whose kind holds no html keep their nodes; only the content blocks inside them are
entered.
-/
import TemplateMarkup.Html.Placing

namespace TemplateMarkup

/-! ## 1. Agreement of branches -/

/-- The contexts in which the branches of a node end, one for each branch. -/
abbrev Exits := List (BranchKind × Context)

/-- Reports every branch of a loop that ends in another context than it began in. -/
def reconcileLoop (ledger : Ledger) (location : Span) (command : String) (entry : Context) :
    Exits → Ledger
  | [] => ledger
  | (kind, exit) :: exits =>
    let ledger :=
      if exit.kind = entry.kind then ledger
      else
        match kind with
        | .loopBody => ledger.report location (.loopChangesContext entry.name exit.name)
        | _ => ledger.report location (.branchesDisagree command entry.name exit.name)
    reconcileLoop ledger location command entry exits

/-- Reports, once, contexts of another class than the first. -/
def reconcileChoice (ledger : Ledger) (location : Span) (command : String) (first : Context)
    (exits : List Context) : Ledger :=
  match exits.find? fun exit => exit.kind != first.kind with
  | none => ledger
  | some other => ledger.report location (.branchesDisagree command first.name other.name)

/-- The context after control flow, and the ledger with what is wrong about its branches.  When
they disagree the first branch decides. -/
def reconcile (ledger : Ledger) (location : Span) (head : FlowHead) (entry : Context)
    (exits : Exits) : Context × Ledger :=
  if head.isLoop then (entry, reconcileLoop ledger location head.command entry exits)
  else
    let fallThrough := if exits.any fun e => e.1 == .default then [] else [entry]
    match exits.map Prod.snd ++ fallThrough with
    | [] => (entry, ledger)
    | first :: others =>
      (first, reconcileChoice ledger location head.command first (first :: others))

/-! ## 2. Raw runs -/

/-- Reads the run that has been collected, if there is one. -/
def Assembly.readCollected (b : Assembly) : Option RawRun → Assembly
  | none => b
  | some run => b.readRun run

/-- Collects one more raw text node: it joins the run before it where text is joined, and else
that run is read first. -/
def Assembly.collect (b : Assembly) (run : Option RawRun) (text : Text) (location : Span) :
    Assembly × RawRun :=
  match run with
  | none => (b, .single text location)
  | some run =>
    if b.ledger.config.joinText then (b, run.push text location)
    else (b.readRun run, .single text location)

/-- The source is read at least up to `offset`. -/
def Assembly.reach (b : Assembly) (offset : Nat) : Assembly :=
  { b with offset := max b.offset offset }

/-! ## 3. The pass -/

mutual

/-- Feeds nodes to an assembly; `run` is the raw text collected just before them. -/
def feedNodes (b : Assembly) (run : Option RawRun) : List Node → Assembly
  | [] => b.readCollected run
  | n :: nodes =>
    match n.rawText? with
    | some text =>
      let (b, run) := b.collect run text n.location
      feedNodes b (some run) nodes
    | none => feedNodes (feedNode (b.readCollected run) n) none nodes

/-- Feeds a node that is not raw text. -/
def feedNode (b : Assembly) : Node → Assembly
  | .call id location callee params =>
    let (params, ledger) := rewriteParams b.ledger params
    ({ b with ledger := ledger }.place (.call id location callee params)).reach location.stop
  | .binding id location var value =>
    let (value, ledger) := rewriteValue b.ledger .letContent location value
    ({ b with ledger := ledger }.place (.binding id location var value)).reach location.stop
  | .flow flow =>
    let b := b.settle flow.location
    let (flow, exit, ledger) := rewriteFlow b.ledger b.context flow
    ({ b with ledger := ledger }.placeFlow flow exit).reach flow.location.stop
  | node => (b.place node).reach node.location.stop

/-- Puts the branches of control flow together from the context before it; gives the context
after it as well. -/
def rewriteFlow (ledger : Ledger) (entry : Context) : Flow → Flow × Context × Ledger
  | ⟨id, location, head, branches⟩ =>
    let limit := ledger.config.maxDepth
    if ledger.depth ≥ limit then
      (⟨id, location, head, branches⟩, entry,
        ledger.report location (.controlFlowTooDeep limit))
    else
      let (rebuilt, exits, inner) :=
        rewriteBranches { ledger with depth := ledger.depth + 1 } entry location.start branches
      let (exit, after) := reconcile { inner with depth := ledger.depth } location head entry exits
      (⟨id, location, head, rebuilt⟩, exit, after)

/-- Puts branches together, in order; gives the context in which each ends. -/
def rewriteBranches (ledger : Ledger) (entry : Context) (offset : Nat) :
    List Branch → List Branch × Exits × Ledger
  | [] => ([], [], ledger)
  | branch :: branches =>
    let (rebuilt, exit, ledger) := rewriteBranch ledger entry offset branch
    let (later, exits, ledger) := rewriteBranches ledger entry offset branches
    (rebuilt :: later, (rebuilt.kind, exit) :: exits, ledger)

/-- Puts a branch together; gives the context in which it ends. -/
def rewriteBranch (ledger : Ledger) (entry : Context) (offset : Nat) :
    Branch → Branch × Context × Ledger
  | ⟨id, kind, nodes⟩ =>
    let b := (feedNodes (.start ledger.countBranch entry true offset) none nodes).endBranch
    (⟨id, kind, b.nodes⟩, b.context, b.ledger)

/-- Rewrites the content blocks among the parameters of a call. -/
def rewriteParams (ledger : Ledger) : List Param → List Param × Ledger
  | [] => ([], ledger)
  | p :: params =>
    let (first, ledger) := rewriteParam ledger p
    let (later, ledger) := rewriteParams ledger params
    (first :: later, ledger)

/-- Rewrites the content block of a parameter. -/
def rewriteParam (ledger : Ledger) : Param → Param × Ledger
  | ⟨id, location, name, value⟩ =>
    let (value, ledger) := rewriteValue ledger .paramContent location value
    (⟨id, location, name, value⟩, ledger)

/-- Rewrites a content block; an expression stays as it is. -/
def rewriteValue (ledger : Ledger) (block : BlockKind) (location : Span) :
    Value → Value × Ledger
  | .expr expr => (.expr expr, ledger)
  | .content kind nodes =>
    let ledger := ledger.countBlock
    match Context.entry? (declaredOrHtml kind) with
    | some entry =>
      let b := (feedNodes (.start ledger entry false location.start) none nodes).endBlock block
      (.content kind b.nodes, b.ledger)
    | none =>
      let (nodes, ledger) := enterNodes ledger nodes
      (.content kind nodes, ledger)

/-- Rewrites the content blocks among nodes that are not html. -/
def enterNodes (ledger : Ledger) : List Node → List Node × Ledger
  | [] => ([], ledger)
  | n :: nodes =>
    let (first, ledger) := enterNode ledger n
    let (later, ledger) := enterNodes ledger nodes
    (first :: later, ledger)

/-- Rewrites the content blocks of a node that is not html. -/
def enterNode (ledger : Ledger) : Node → Node × Ledger
  | .call id location callee params =>
    let (params, ledger) := rewriteParams ledger params
    (.call id location callee params, ledger)
  | .binding id location var value =>
    let (value, ledger) := rewriteValue ledger .letContent location value
    (.binding id location var value, ledger)
  | .flow flow =>
    let (flow, ledger) := enterFlow ledger flow
    (.flow flow, ledger)
  | node => (node, ledger)

/-- Rewrites the content blocks in the branches of control flow that is not html. -/
def enterFlow (ledger : Ledger) : Flow → Flow × Ledger
  | ⟨id, location, head, branches⟩ =>
    let (branches, ledger) := enterBranches ledger branches
    (⟨id, location, head, branches⟩, ledger)

/-- Rewrites the content blocks in branches that are not html. -/
def enterBranches (ledger : Ledger) : List Branch → List Branch × Ledger
  | [] => ([], ledger)
  | branch :: branches =>
    let (first, ledger) := enterBranch ledger branch
    let (later, ledger) := enterBranches ledger branches
    (first :: later, ledger)

/-- Rewrites the content blocks in a branch that is not html. -/
def enterBranch (ledger : Ledger) : Branch → Branch × Ledger
  | ⟨id, kind, nodes⟩ =>
    let (nodes, ledger) := enterNodes ledger nodes
    (⟨id, kind, nodes⟩, ledger)

end

/-! ## 4. Blocks, templates and files -/

/-- The nodes of a value, if it is content. -/
def Value.nodes : Value → List Node
  | .expr _ => []
  | .content _ nodes => nodes

/-- What a run gives: what was rewritten, the names that are left, and the reports. -/
structure Rewritten (α : Type) where
  result : α
  ids : IdSource
  /-- In the order in which they were found. -/
  diagnostics : List Diagnostic
  stats : Stats

/-- The outcome of a run with its ledger. -/
def Ledger.outcome {α : Type} (ledger : Ledger) (result : α) : Rewritten α :=
  ⟨result, ledger.ids, ledger.diagnostics.reverse, ledger.stats⟩

/-- Gives structure to the html of a block whose content is of `kind`.  The block is treated as
a content block of that kind. -/
def rewriteBlock (config : Config) (kind : ContentKind) (block : BlockKind) (location : Span)
    (ids : IdSource) (nodes : List Node) : Rewritten (List Node) :=
  let (value, ledger) :=
    rewriteValue (.start config ids) block location (.content (some kind) nodes)
  ledger.outcome value.nodes

/-- Gives structure to the html of a template. -/
def Template.rewrite (config : Config) (ids : IdSource) (t : Template) : Rewritten Template :=
  let r := rewriteBlock config t.kind .template t.location ids t.nodes
  ⟨{ t with nodes := r.result }, r.ids, r.diagnostics, r.stats⟩

/-- Gives structure to the html of templates, one after the other. -/
def rewriteTemplates (config : Config) (ids : IdSource) : List Template → Rewritten (List Template)
  | [] => ⟨[], ids, [], {}⟩
  | t :: templates =>
    let first := t.rewrite config ids
    let later := rewriteTemplates config first.ids templates
    ⟨first.result :: later.result, later.ids, first.diagnostics ++ later.diagnostics,
      first.stats.add later.stats⟩

/-- Gives structure to the html of a file. -/
def TemplateFile.rewrite (config : Config) (ids : IdSource) (f : TemplateFile) :
    Rewritten TemplateFile :=
  let r := rewriteTemplates config ids f.templates
  ⟨{ f with templates := r.result }, r.ids, r.diagnostics, r.stats⟩

end TemplateMarkup
