/-
# The grammar of bodies

`Item` is a derivation of one item of a body: text, a command that stands for itself, or a
construct with the bodies between its commands.  A derivation keeps of every command what the tree
keeps of it and where it stands, so it says both which tokens it is a derivation of (`tokensOf`)
and which nodes it stands for (`nodesOf`).  Nothing here refers to how a body is read.

Nodes are numbered in the order in which they end: a construct takes its number after its parts,
and a branch after its body.  Text that only separates parts of a construct takes a number too,
though the tree has no node for it.
-/
import TemplateMarkup.Template.Token
import TemplateMarkup.Text.Blank

namespace TemplateMarkup

/-! ## 1. Derivations -/

/-- What may stand between the parts of a `{call}` and before the first case of a `{switch}`. -/
inductive Blank
  | text (text : Text) (location : Span) (blank : Text.allBlank text = true)
  | special (text : Text) (location : Span) (blank : Text.allBlank text = true)
  | declare (name type : Text) (location : Span)

mutual

/-- An item of a body.  `opener` and `closer` are the places of the commands around a construct,
`location` that of a command or text with nothing inside. -/
inductive Item
  | text (text : Text) (location : Span)
  | special (text : Text) (location : Span)
  | print (expr : Text) (location : Span)
  | declare (name type : Text) (location : Span)
  /-- A `{call /}`. -/
  | call (callee : Text) (location : Span)
  | callWith (callee : Text) (opener : Span) (args : List Arg) (blanks : List Blank)
      (closer : Span)
  | bind (var expr : Text) (kind : Option ContentKind) (location : Span)
  | bindBody (var : Text) (kind : Option ContentKind) (opener : Span) (body : List Item)
      (closer : Span)
  | ifThen (cond : Text) (opener : Span) (body : List Item) (elseIfs : List Clause)
      (otherwise : Option Fallback) (closer : Span)
  | switch (expr : Text) (opener : Span) (blanks : List Blank) (cases : List Clause)
      (otherwise : Option Fallback) (closer : Span)
  | forEach (var expr : Text) (opener : Span) (body : List Item) (ifEmpty : Option Fallback)
      (closer : Span)

/-- A `{param}` of a call, with what stands before it. -/
inductive Arg
  | expr (blanks : List Blank) (name expr : Text) (kind : Option ContentKind) (location : Span)
  | content (blanks : List Blank) (name : Text) (kind : Option ContentKind) (opener : Span)
      (body : List Item) (closer : Span)

/-- An `{elseif}` or a `{case}`. -/
structure Clause where
  expr : Text
  opener : Span
  body : List Item

/-- An `{else}`, a `{default}` or an `{ifempty}`. -/
structure Fallback where
  opener : Span
  body : List Item

end

/-! ## 2. Tokens -/

/-- The tokens of what separates parts. -/
def Blank.token : Blank → Token
  | .text t location _ => .text t location
  | .special t location _ => .command (.special t) location
  | .declare name type location => .command (.paramDecl name type) location

mutual

/-- The tokens of an item. -/
def Item.tokens : Item → List Token
  | .text t location => [.text t location]
  | .special t location => [.command (.special t) location]
  | .print expr location => [.command (.print expr) location]
  | .declare name type location => [.command (.paramDecl name type) location]
  | .call callee location => [.command (.call callee true) location]
  | .callWith callee opener args blanks closer =>
    .command (.call callee false) opener :: (tokensOfArgs args ++ blanks.map Blank.token
      ++ [.command (.close "call".toList) closer])
  | .bind var expr kind location => [.command (.binding var (some expr) kind) location]
  | .bindBody var kind opener body closer =>
    .command (.binding var none kind) opener :: (tokensOf body
      ++ [.command (.close "let".toList) closer])
  | .ifThen cond opener body elseIfs otherwise closer =>
    .command (.ifThen cond) opener :: (tokensOf body ++ tokensOfClauses .elseIf elseIfs
      ++ tokensOfFallback .otherwise otherwise ++ [.command (.close "if".toList) closer])
  | .switch expr opener blanks cases otherwise closer =>
    .command (.switch expr) opener :: (blanks.map Blank.token ++ tokensOfClauses .caseOf cases
      ++ tokensOfFallback .default otherwise ++ [.command (.close "switch".toList) closer])
  | .forEach var expr opener body ifEmpty closer =>
    .command (.forEach var expr) opener :: (tokensOf body ++ tokensOfFallback .ifEmpty ifEmpty
      ++ [.command (.close "for".toList) closer])

/-- The tokens of a body. -/
def tokensOf : List Item → List Token
  | [] => []
  | item :: items => item.tokens ++ tokensOf items

/-- The tokens of a `{param}`, from its separators on. -/
def Arg.tokens : Arg → List Token
  | .expr blanks name expr kind location =>
    blanks.map Blank.token ++ [.command (.param name (some expr) kind) location]
  | .content blanks name kind opener body closer =>
    blanks.map Blank.token ++ .command (.param name none kind) opener :: (tokensOf body
      ++ [.command (.close "param".toList) closer])

/-- The tokens of the `{param}`s of a call. -/
def tokensOfArgs : List Arg → List Token
  | [] => []
  | arg :: args => arg.tokens ++ tokensOfArgs args

/-- The tokens of a clause that a given command begins. -/
def Clause.tokens (command : Text → Command) : Clause → List Token
  | ⟨expr, opener, body⟩ => .command (command expr) opener :: tokensOf body

/-- The tokens of clauses. -/
def tokensOfClauses (command : Text → Command) : List Clause → List Token
  | [] => []
  | clause :: clauses => clause.tokens command ++ tokensOfClauses command clauses

/-- The tokens of a last branch. -/
def Fallback.tokens (command : Command) : Fallback → List Token
  | ⟨opener, body⟩ => .command command opener :: tokensOf body

/-- The tokens of a last branch, if there is one. -/
def tokensOfFallback (command : Command) : Option Fallback → List Token
  | none => []
  | some fallback => fallback.tokens command

end

/-! ## 3. Nodes -/

/-- The numbers left after text, which takes one unless it is the empty text of a command. -/
def Blank.idsAfter (ids : IdSource) : Blank → IdSource
  | .text .. => ids.rest
  | .special t _ _ => if t = [] then ids else ids.rest
  | .declare .. => ids

/-- The numbers left after what separates parts. -/
def idsAfterBlanks (ids : IdSource) (blanks : List Blank) : IdSource :=
  blanks.foldl Blank.idsAfter ids

mutual

/-- The nodes of an item, numbered from a source of numbers, and the numbers left. -/
def Item.nodes (ids : IdSource) : Item → List Node × IdSource
  | .text t location => ([.raw ids.next location t], ids.rest)
  | .special t location => if t = [] then ([], ids) else ([.raw ids.next location t], ids.rest)
  | .print expr location => ([.print ids.next location expr], ids.rest)
  | .declare .. => ([], ids)
  | .call callee location => ([.call ids.next location callee []], ids.rest)
  | .callWith callee opener args blanks closer =>
    let (params, ids) := paramsOf ids args
    let ids := idsAfterBlanks ids blanks
    ([.call ids.next (opener.union closer) callee params], ids.rest)
  | .bind var expr _ location => ([.binding ids.next location var (.expr expr)], ids.rest)
  | .bindBody var kind opener body closer =>
    let (inner, ids) := nodesOf ids body
    ([.binding ids.next (opener.union closer) var (.content kind inner)], ids.rest)
  | .ifThen cond opener body elseIfs otherwise closer =>
    let (inner, ids) := nodesOf ids body
    let first : Branch := ⟨ids.next, .cond cond, inner⟩
    let (more, ids) := branchesOf ids.rest elseIfs
    let (last, ids) := lastBranchOf ids otherwise
    ([.flow ⟨ids.next, opener.union closer, .ifThen, first :: more ++ last⟩], ids.rest)
  | .switch expr opener blanks cases otherwise closer =>
    let (branches, ids) := branchesOf (idsAfterBlanks ids blanks) cases
    let (last, ids) := lastBranchOf ids otherwise
    ([.flow ⟨ids.next, opener.union closer, .switch expr, branches ++ last⟩], ids.rest)
  | .forEach var expr opener body ifEmpty closer =>
    let (inner, ids) := nodesOf ids body
    let first : Branch := ⟨ids.next, .loopBody, inner⟩
    let (last, ids) := lastBranchOf ids.rest ifEmpty
    ([.flow ⟨ids.next, opener.union closer, .forEach var expr, first :: last⟩], ids.rest)

/-- The nodes of a body. -/
def nodesOf (ids : IdSource) : List Item → List Node × IdSource
  | [] => ([], ids)
  | item :: items =>
    let (first, ids) := item.nodes ids
    let (more, ids) := nodesOf ids items
    (first ++ more, ids)

/-- The parameter of a `{param}`. -/
def Arg.param (ids : IdSource) : Arg → Param × IdSource
  | .expr blanks name expr _ location =>
    let ids := idsAfterBlanks ids blanks
    (⟨ids.next, location, name, .expr expr⟩, ids.rest)
  | .content blanks name kind opener body closer =>
    let (inner, ids) := nodesOf (idsAfterBlanks ids blanks) body
    (⟨ids.next, opener.union closer, name, .content kind inner⟩, ids.rest)

/-- The parameters of a call. -/
def paramsOf (ids : IdSource) : List Arg → List Param × IdSource
  | [] => ([], ids)
  | arg :: args =>
    let (first, ids) := arg.param ids
    let (more, ids) := paramsOf ids args
    (first :: more, ids)

/-- The branch of a clause. -/
def Clause.branch (ids : IdSource) : Clause → Branch × IdSource
  | ⟨expr, _, body⟩ =>
    let (inner, ids) := nodesOf ids body
    (⟨ids.next, .cond expr, inner⟩, ids.rest)

/-- The branches of clauses. -/
def branchesOf (ids : IdSource) : List Clause → List Branch × IdSource
  | [] => ([], ids)
  | clause :: clauses =>
    let (first, ids) := clause.branch ids
    let (more, ids) := branchesOf ids clauses
    (first :: more, ids)

/-- The branch of an `{else}`, a `{default}` or an `{ifempty}`. -/
def Fallback.branch (ids : IdSource) : Fallback → Branch × IdSource
  | ⟨_, body⟩ =>
    let (inner, ids) := nodesOf ids body
    (⟨ids.next, .default, inner⟩, ids.rest)

/-- The last branch, if there is one. -/
def lastBranchOf (ids : IdSource) : Option Fallback → List Branch × IdSource
  | none => ([], ids)
  | some fallback =>
    let (branch, ids) := fallback.branch ids
    ([branch], ids)

end

/-! ## 4. Declarations -/

/-- What is declared between parts. -/
def Blank.declared : Blank → List ParamDecl
  | .declare name type _ => [⟨name, type⟩]
  | _ => []

mutual

/-- What an item declares, from its first to its last token. -/
def Item.declared : Item → List ParamDecl
  | .text .. | .special .. | .print .. | .call .. | .bind .. => []
  | .declare name type _ => [⟨name, type⟩]
  | .callWith _ _ args blanks _ => declaredInArgs args ++ blanks.flatMap Blank.declared
  | .bindBody _ _ _ body _ => declaredIn body
  | .ifThen _ _ body elseIfs otherwise _ =>
    declaredIn body ++ declaredInClauses elseIfs ++ declaredInFallback otherwise
  | .switch _ _ blanks cases otherwise _ =>
    blanks.flatMap Blank.declared ++ declaredInClauses cases ++ declaredInFallback otherwise
  | .forEach _ _ _ body ifEmpty _ => declaredIn body ++ declaredInFallback ifEmpty

/-- What a body declares. -/
def declaredIn : List Item → List ParamDecl
  | [] => []
  | item :: items => item.declared ++ declaredIn items

/-- What a `{param}` declares, from its separators on. -/
def Arg.declared : Arg → List ParamDecl
  | .expr blanks .. => blanks.flatMap Blank.declared
  | .content blanks _ _ _ body _ => blanks.flatMap Blank.declared ++ declaredIn body

/-- What the `{param}`s of a call declare. -/
def declaredInArgs : List Arg → List ParamDecl
  | [] => []
  | arg :: args => arg.declared ++ declaredInArgs args

/-- What a clause declares. -/
def Clause.declared : Clause → List ParamDecl
  | ⟨_, _, body⟩ => declaredIn body

/-- What clauses declare. -/
def declaredInClauses : List Clause → List ParamDecl
  | [] => []
  | clause :: clauses => clause.declared ++ declaredInClauses clauses

/-- What a last branch declares. -/
def Fallback.declared : Fallback → List ParamDecl
  | ⟨_, body⟩ => declaredIn body

/-- What a last branch declares, if there is one. -/
def declaredInFallback : Option Fallback → List ParamDecl
  | none => []
  | some fallback => fallback.declared

end

/-! ## 5. Branches -/

/-- The branches come in the order of the grammar: branches with conditions, at least one of them
for an `{if}`, or one loop body; then at most one branch that is taken when no other is. -/
def Flow.InOrder (f : Flow) : Prop :=
  ∃ first last : List BranchKind, f.branches.map Branch.kind = first ++ last
    ∧ (last = [] ∨ last = [.default])
    ∧ match f.head with
      | .ifThen => ∃ (cond : Text) (conds : List Text), first = (cond :: conds).map .cond
      | .switch _ => ∃ conds : List Text, first = conds.map .cond
      | .forEach _ _ => first = [.loopBody]

/-- So do those of all control flow among the nodes. -/
def FlowsInOrder (nodes : List Node) : Prop := ∀ f, Node.flow f ∈ nodes → f.InOrder

end TemplateMarkup
