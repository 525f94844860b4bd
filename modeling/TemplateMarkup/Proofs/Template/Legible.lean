/-
# Source text that is read back

A tree is legible if what its source text puts between braces is read as the command it stands for,
its texts are not empty and hold no `\x7b`, and its branches come in the order in which they are
read.  The source text of a legible tree is accepted, and it is read as the tree with its texts
joined, but for names and places (`Template.read_of_legible`).

The proof derives the source text from its end to its beginning: before a source that is cut into
tokens, the text of a node can be cut into the tokens of an item (`Node.derived`), and the text of
nodes into those of items (`derived_nodes`).
-/
import TemplateMarkup.Proofs.Template.Accepted
import TemplateMarkup.Proofs.Tree.Joined

namespace TemplateMarkup

/-! ## 1. Legible trees -/

/-- The command that opens control flow is read as what it is. -/
def FlowHead.Legible : FlowHead → Prop
  | ifThen => True
  | switch expr => Spells ("switch ".toList ++ expr) (.switch expr)
  | forEach var expr => Spells ("for $".toList ++ var ++ " in ".toList ++ expr) (.forEach var expr)

/-- So is the command before a branch, and the branch may stand there. -/
def BranchKind.Legible (isFirst : Bool) : FlowHead → BranchKind → Prop
  | .ifThen, .cond expr =>
    Spells ((if isFirst then "if " else "elseif ").toList ++ expr)
      (if isFirst then .ifThen expr else .elseIf expr)
  | .ifThen, .default => isFirst = false
  | .switch _, .cond expr => Spells ("case ".toList ++ expr) (.caseOf expr)
  | .switch _, .default => True
  | .forEach _ _, .loopBody => isFirst = true
  | .forEach _ _, .default => isFirst = false
  | _, _ => False

mutual

/-- The text of the node is read as the node. -/
def Node.Legible : Node → Prop
  | .raw _ _ t => t ≠ [] ∧ '{' ∉ t
  | .print _ _ expr => Spells expr (.print expr)
  | .call _ _ callee [] => Spells ("call ".toList ++ callee ++ " /".toList) (.call callee true)
  | .call _ _ callee (p :: params) =>
    Spells ("call ".toList ++ callee) (.call callee false) ∧ p.Legible ∧ LegibleParams params
  | .binding _ _ var (.expr expr) =>
    ∃ kind, Spells ("let $".toList ++ var ++ " : ".toList ++ expr ++ " /".toList)
      (.binding var (some expr) kind)
  | .binding _ _ var (.content kind nodes) =>
    Spells ("let $".toList ++ var ++ kindClause kind) (.binding var none kind) ∧ LegibleNodes nodes
  | .flow f => f.Legible
  | _ => False

/-- The text of each node is. -/
def LegibleNodes : List Node → Prop
  | [] => True
  | n :: nodes => n.Legible ∧ LegibleNodes nodes

/-- The text of the parameter is read as the parameter. -/
def Param.Legible : Param → Prop
  | ⟨_, _, name, .expr expr⟩ =>
    ∃ kind, Spells ("param ".toList ++ name ++ ": ".toList ++ expr ++ " /".toList)
      (.param name (some expr) kind)
  | ⟨_, _, name, .content kind nodes⟩ =>
    Spells ("param ".toList ++ name ++ kindClause kind) (.param name none kind)
      ∧ LegibleNodes nodes

/-- The text of each parameter is. -/
def LegibleParams : List Param → Prop
  | [] => True
  | p :: params => p.Legible ∧ LegibleParams params

/-- The text of the control flow is read as the control flow.  Only a `{switch}` may have no
branches. -/
def Flow.Legible : Flow → Prop
  | ⟨_, _, head, branches⟩ =>
    head.Legible ∧ (branches = [] → ∃ expr, head = .switch expr)
      ∧ LegibleBranches head true branches

/-- The text of the branches is read as the branches.  After a branch that is taken when no other
is there is none. -/
def LegibleBranches (head : FlowHead) (isFirst : Bool) : List Branch → Prop
  | [] => True
  | ⟨_, kind, nodes⟩ :: branches =>
    kind.Legible isFirst head ∧ (kind = .default → branches = []) ∧ LegibleNodes nodes
      ∧ LegibleBranches head false branches

end

/-! ## 2. One node -/

/-- The source begins with a command, or is over. -/
def AtCommand (src : Text) : Prop := src.head?.all (· == '{') = true

theorem atCommand_braced (inner rest : Text) : AtCommand (braced inner ++ rest) := rfl

/-- The command that closes control flow. -/
theorem FlowHead.spells_closing (head : FlowHead) :
    Spells ('/' :: head.command.toList) (.close head.command.toList) := by
  cases head with
  | ifThen => exact (by decide : Spells ('/' :: "if".toList) (.close "if".toList))
  | switch e => exact (by decide : Spells ('/' :: "switch".toList) (.close "switch".toList))
  | forEach v e => exact (by decide : Spells ('/' :: "for".toList) (.close "for".toList))

/-- The items are cut from the source and stand for the nodes with their texts joined.  If the first
is no text, neither the source nor the nodes begin with text. -/
structure Derived (pos : Nat) (src : Text) (items : List Item) (more : List Token)
    (nodes : List Node) : Prop where
  cut : CutsInto pos src (tokensOf items ++ more)
  same : ∀ ids, bare (nodesOf ids items).1 = bare (joined false nodes)
  apart : (∃ t location items', items = .text t location :: items')
    ∨ AtCommand src ∧ ∀ n ∈ (joined false nodes).head?, n.rawText? = none

/-- No nodes are no items. -/
theorem Derived.nil {pos : Nat} {src : Text} {more : List Token} (hsrc : AtCommand src)
    (hcut : CutsInto pos src more) : Derived pos src [] more [] where
  cut := by simpa [tokensOf] using hcut
  same _ := by simp [nodesOf, joined]
  apart := .inr ⟨hsrc, by simp [joined]⟩

/-- Text before nodes is an item, or joins the text they begin with. -/
theorem Derived.text {pos : Nat} {src t : Text} {items : List Item} {more : List Token}
    {nodes : List Node} (id : NodeId) (location : Span) (hne : t ≠ []) (ht : '{' ∉ t)
    (h : Derived (pos + Text.size t) src items more nodes) :
    ∃ items', Derived pos (t ++ src) items' more (.raw id location t :: nodes) := by
  have hjoined : joined false (.raw id location t :: nodes)
      = (Node.raw id location t).before (joined false nodes) := by
    simp [joined, Node.joined, Node.rawText?, hne]
  obtain ⟨u, l, items', rfl⟩ | ⟨hsrc, hapart⟩ := h.apart
  · -- the text of the item takes the new text in
    obtain ⟨l', hcut⟩ := CutsInto.textBeforeText ht (by simpa [tokensOf, Item.tokens] using h.cut)
    refine ⟨.text (t ++ u) l' :: items', by simpa [tokensOf, Item.tokens] using hcut,
      fun ids => ?_, .inl ⟨_, _, _, rfl⟩⟩
    rw [hjoined, ← bare_before (n := .raw id location t) rfl (h.same ids)]
    simp [nodesOf, Item.nodes, Node.bare, Node.before]
  · obtain ⟨l, hcut⟩ := CutsInto.textBefore hne ht hsrc h.cut
    refine ⟨.text t l :: items, by simpa [tokensOf, Item.tokens] using hcut, fun ids => ?_,
      .inl ⟨_, _, _, rfl⟩⟩
    have hbefore : (Node.raw id location t).before (joined false nodes)
        = .raw id location t :: joined false nodes := by
      cases hj : joined false nodes with
      | nil => rfl
      | cons m rest => exact raw_before_cons id location t (hapart m (by rw [hj]; rfl)) rest
    rw [hjoined, hbefore]
    simp [nodesOf, Item.nodes, Node.bare, h.same]

/-- Another node before nodes is an item. -/
theorem Derived.node {pos : Nat} {src : Text} {n : Node} {items : List Item} {more : List Token}
    {nodes : List Node} {item : Item} (hraw : n.rawText? = none) (hsrc : AtCommand src)
    (hcut : CutsInto pos src (item.tokens ++ (tokensOf items ++ more)))
    (hitem : ∀ ids, bare (item.nodes ids).1 = [(n.joined false).bare])
    (hsame : ∀ ids, bare (nodesOf ids items).1 = bare (joined false nodes)) :
    Derived pos src (item :: items) more (n :: nodes) := by
  have hjoined : joined false (n :: nodes) = n.joined false :: joined false nodes := by
    rw [joined, if_neg (by simp [hraw]), Node.before_of_rawText? (by simpa using hraw)]
  refine ⟨by simpa [tokensOf] using hcut, fun ids => ?_, .inr ⟨hsrc, ?_⟩⟩
  · simp [nodesOf, hitem, hsame, hjoined]
  · simp [hjoined, hraw]

/-- The first branch of a `{switch}` stands like the later ones. -/
theorem legibleBranches_switch {expr : Text} {branches : List Branch}
    (h : LegibleBranches (.switch expr) true branches) :
    LegibleBranches (.switch expr) false branches := by
  cases branches with
  | nil => simp [LegibleBranches]
  | cons b branches =>
    obtain ⟨_, kind, nodes⟩ := b
    rw [LegibleBranches] at h ⊢
    exact ⟨by cases kind <;> exact h.1, h.2⟩

theorem branchesSource_switch (spaced : Bool) (expr : Text) (branches : List Branch) :
    branchesSource spaced (.switch expr) true branches
      = branchesSource spaced (.switch expr) false branches := by
  cases branches with
  | nil => rw [branchesSource, branchesSource]
  | cons b branches =>
    obtain ⟨_, kind, nodes⟩ := b
    rw [branchesSource, branchesSource, Branch.source, Branch.source]
    cases kind <;> rfl

/-- The command before a later branch that has a condition. -/
theorem exists_spells_clause {head : FlowHead} {expr : Text}
    (h : BranchKind.Legible false head (.cond expr)) : head.isLoop = false
      ∧ ∃ inner, head.branchOpening false (.cond expr) = braced inner
        ∧ Spells inner (head.clauseCommand expr) := by
  cases head with
  | ifThen | switch e => exact ⟨rfl, _, rfl, h⟩
  | forEach v e => cases h

/-- The command before a branch that is taken when no other is. -/
theorem exists_spells_last (head : FlowHead) :
    ∃ inner, head.branchOpening false .default = braced inner ∧ Spells inner head.lastCommand := by
  cases head with
  | ifThen => exact ⟨_, rfl, (by decide : Spells "else".toList .otherwise)⟩
  | switch e => exact ⟨_, rfl, (by decide : Spells "default".toList .default)⟩
  | forEach v e => exact ⟨_, rfl, (by decide : Spells "ifempty".toList .ifEmpty)⟩

/-! ## 3. The source text of a tree -/

/-- The parameters of a call are cut from the source. -/
structure DerivedArgs (pos : Nat) (src : Text) (args : List Arg) (more : List Token)
    (params : List Param) : Prop where
  cut : CutsInto pos src (tokensOfArgs args ++ more)
  same : ∀ ids, bareParams (paramsOf ids args).1 = bareParams (joinedParams false params)
  atCommand : AtCommand src

/-- The branches after the first are cut from the source. -/
structure DerivedBranches (pos : Nat) (src : Text) (clauses : List Clause)
    (otherwise : Option Fallback) (more : List Token) (head : FlowHead) (branches : List Branch) :
    Prop where
  cut : CutsInto pos src (tokensOfClauses head.clauseCommand clauses
    ++ (tokensOfFallback head.lastCommand otherwise ++ more))
  same : ∀ ids, bareBranches ((branchesOf ids clauses).1
    ++ (lastBranchOf (branchesOf ids clauses).2 otherwise).1)
      = bareBranches (joinedBranches false branches)
  loop : head.isLoop = true → clauses = []
  atCommand : AtCommand src

mutual

/-- The text of a node is an item before what follows it. -/
theorem Node.derived : ∀ (n : Node), n.Legible → n.rawText? = none → ∀ (spaced : Bool) {pos : Nat}
    {rest : Text} {more : List Token}, CutsInto (pos + Text.size (n.source spaced)) rest more →
    AtCommand (n.source spaced ++ rest) ∧ ∃ item : Item,
      CutsInto pos (n.source spaced ++ rest) (item.tokens ++ more)
        ∧ ∀ ids, bare (item.nodes ids).1 = [(n.joined false).bare]
  | .raw .., _, hraw, _, _, _, _, _ => by cases hraw
  | .print _ _ expr, h, _, spaced, pos, rest, more, hcut => by
    rw [Node.source] at hcut ⊢
    obtain ⟨l, hcut⟩ := hcut.braced h
    exact ⟨rfl, .print expr l, by rwa [Item.tokens], by simp [Item.nodes, Node.joined, Node.bare]⟩
  | .call _ _ callee [], h, _, spaced, pos, rest, more, hcut => by
    rw [Node.source] at hcut ⊢
    obtain ⟨l, hcut⟩ := hcut.braced h
    exact ⟨rfl, .call callee l, by rwa [Item.tokens],
      by simp [Item.nodes, Node.joined, joinedParams, Node.bare]⟩
  | .call _ _ callee (p :: params), h, _, spaced, pos, rest, more, hcut => by
    rw [Node.Legible] at h
    simp only [Node.source, Text.size_append, List.append_assoc, ← Nat.add_assoc] at hcut ⊢
    obtain ⟨l', hclose⟩ := hcut.braced
      (by decide : Spells "/call".toList (.close "call".toList))
    obtain ⟨args, hd⟩ := derived_params params h.2.2 (atCommand_braced ..) hclose
    obtain ⟨-, arg, harg, hsame⟩ := p.derived h.2.1 hd.cut
    obtain ⟨l, hopen⟩ := harg.braced h.1
    refine ⟨rfl, .callWith callee l (arg :: args) [] l',
      by simpa [Item.tokens, tokensOfArgs] using hopen, fun ids => ?_⟩
    simp [Item.nodes, Node.joined, joinedParams, Node.bare, bareParams, paramsOf, hsame, hd.same]
  | .binding _ _ var (.expr expr), h, _, spaced, pos, rest, more, hcut => by
    rw [Node.Legible] at h
    obtain ⟨kind, h⟩ := h
    rw [Node.source] at hcut ⊢
    obtain ⟨l, hcut⟩ := hcut.braced h
    exact ⟨rfl, .bind var expr kind l, by rwa [Item.tokens],
      by simp [Item.nodes, Node.joined, Value.joined, Node.bare, Value.bare]⟩
  | .binding _ _ var (.content kind nodes), h, _, spaced, pos, rest, more, hcut => by
    rw [Node.Legible] at h
    simp only [Node.source, Text.size_append, List.append_assoc, ← Nat.add_assoc] at hcut ⊢
    obtain ⟨l', hclose⟩ := hcut.braced
      (by decide : Spells "/let".toList (.close "let".toList))
    obtain ⟨items, hd⟩ := derived_nodes nodes h.2 false (atCommand_braced ..) hclose
    obtain ⟨l, hopen⟩ := hd.cut.braced h.1
    refine ⟨rfl, .bindBody var kind l items l', by simpa [Item.tokens] using hopen, fun ids => ?_⟩
    simp [Item.nodes, Node.joined, Value.joined, Node.bare, Value.bare, hd.same]
  | .flow f, h, _, spaced, pos, rest, more, hcut => by
    rw [Node.Legible] at h
    rw [Node.source] at hcut ⊢
    exact f.derived h spaced hcut
  | .openTag .., h, _, _, _, _, _, _ | .closeTag .., h, _, _, _, _, _, _
  | .attr .., h, _, _, _, _, _, _ | .attrValue .., h, _, _, _, _, _, _
  | .comment .., h, _, _, _, _, _, _ => by
    simp [Node.Legible] at h

/-- The text of nodes is a body before a command. -/
theorem derived_nodes : ∀ (nodes : List Node), LegibleNodes nodes → ∀ (spaced : Bool) {pos : Nat}
    {rest : Text} {more : List Token}, AtCommand rest →
    CutsInto (pos + Text.size (sourceAfter spaced nodes)) rest more →
    ∃ items, Derived pos (sourceAfter spaced nodes ++ rest) items more nodes
  | [], _, spaced, pos, rest, more, hrest, hcut => by
    rw [sourceAfter] at hcut ⊢
    exact ⟨[], .nil hrest hcut⟩
  | n :: nodes, h, spaced, pos, rest, more, hrest, hcut => by
    rw [LegibleNodes] at h
    simp only [sourceAfter, Text.size_append, List.append_assoc, ← Nat.add_assoc] at hcut ⊢
    obtain ⟨items, hd⟩ := derived_nodes nodes h.2 (spaced || n.givesAttribute) hrest
      hcut
    by_cases hraw : n.rawText? = none
    · obtain ⟨hat, item, hcut, hitem⟩ := n.derived h.1 hraw spaced hd.cut
      exact ⟨item :: items, .node hraw hat hcut hitem hd.same⟩
    · match n, h, hd with
      | .raw id location t, h, hd =>
        rw [Node.Legible] at h
        exact hd.text id location h.1.1 h.1.2

/-- The text of a parameter is a `{param}`. -/
theorem Param.derived : ∀ (p : Param), p.Legible → ∀ {pos : Nat} {rest : Text} {more : List Token},
    CutsInto (pos + Text.size p.source) rest more →
    AtCommand (p.source ++ rest) ∧ ∃ arg : Arg, CutsInto pos (p.source ++ rest) (arg.tokens ++ more)
      ∧ ∀ ids, (arg.param ids).1.bare = (p.joined false).bare
  | ⟨_, _, name, .expr expr⟩, h, pos, rest, more, hcut => by
    rw [Param.Legible] at h
    obtain ⟨kind, h⟩ := h
    rw [Param.source] at hcut ⊢
    obtain ⟨l, hcut⟩ := hcut.braced h
    exact ⟨rfl, .expr [] name expr kind l, by simpa [Arg.tokens] using hcut,
      by simp [Arg.param, Param.joined, Value.joined, Param.bare, Value.bare]⟩
  | ⟨_, _, name, .content kind nodes⟩, h, pos, rest, more, hcut => by
    rw [Param.Legible] at h
    simp only [Param.source, Text.size_append, List.append_assoc, ← Nat.add_assoc] at hcut ⊢
    obtain ⟨l', hclose⟩ := hcut.braced
      (by decide : Spells "/param".toList (.close "param".toList))
    obtain ⟨items, hd⟩ := derived_nodes nodes h.2 false (atCommand_braced ..) hclose
    obtain ⟨l, hopen⟩ := hd.cut.braced h.1
    refine ⟨rfl, .content [] name kind l items l', by simpa [Arg.tokens] using hopen, fun ids => ?_⟩
    simp [Arg.param, Param.joined, Value.joined, Param.bare, Value.bare, hd.same]

/-- The text of parameters is a list of `{param}`s before a command. -/
theorem derived_params : ∀ (params : List Param), LegibleParams params → ∀ {pos : Nat}
    {rest : Text} {more : List Token}, AtCommand rest →
    CutsInto (pos + Text.size (paramsSource params)) rest more →
    ∃ args, DerivedArgs pos (paramsSource params ++ rest) args more params
  | [], _, pos, rest, more, hrest, hcut => by
    rw [paramsSource] at hcut ⊢
    exact ⟨[], by simpa [tokensOfArgs] using hcut, by simp [paramsOf, joinedParams], hrest⟩
  | p :: params, h, pos, rest, more, hrest, hcut => by
    rw [LegibleParams] at h
    simp only [paramsSource, Text.size_append, List.append_assoc, ← Nat.add_assoc] at hcut ⊢
    obtain ⟨args, hd⟩ := derived_params params h.2 hrest hcut
    obtain ⟨hat, arg, hcut, hsame⟩ := p.derived h.1 hd.cut
    refine ⟨arg :: args, by simpa [tokensOfArgs] using hcut, fun ids => ?_, hat⟩
    simp [paramsOf, joinedParams, bareParams, hsame, hd.same]

/-- The text of control flow is an item. -/
theorem Flow.derived : ∀ (f : Flow), f.Legible → ∀ (spaced : Bool) {pos : Nat} {rest : Text}
    {more : List Token}, CutsInto (pos + Text.size (f.source spaced)) rest more →
    AtCommand (f.source spaced ++ rest) ∧ ∃ item : Item,
      CutsInto pos (f.source spaced ++ rest) (item.tokens ++ more)
        ∧ ∀ ids, bare (item.nodes ids).1 = [((Node.flow f).joined false).bare]
  | ⟨_, _, .ifThen, ⟨_, .cond cond, nodes⟩ :: branches⟩, h, spaced, pos, rest, more, hcut => by
    simp only [Flow.Legible, LegibleBranches] at h
    simp only [Flow.source, FlowHead.opening, branchesSource, Branch.source, FlowHead.closing,
      Text.size_append, List.append_assoc, List.nil_append, ← Nat.add_assoc] at hcut ⊢
    obtain ⟨l', hclose⟩ := hcut.braced (FlowHead.spells_closing .ifThen)
    obtain ⟨clauses, otherwise, hb⟩ := derived_branches .ifThen branches h.2.2.2.2.2 spaced
      (atCommand_braced ..) hclose
    obtain ⟨items, hd⟩ := derived_nodes nodes h.2.2.2.2.1 spaced hb.atCommand hb.cut
    obtain ⟨l, hopen⟩ := hd.cut.braced h.2.2.1
    refine ⟨rfl, .ifThen cond l items clauses otherwise l', ?_, fun ids => ?_⟩
    · simp only [Item.tokens, List.cons_append, List.append_assoc, List.nil_append]
      exact hopen
    · have hsame := hb.same (nodesOf ids items).2.rest
      simp only [Item.nodes, Node.joined, Flow.joined, joinedBranches, Branch.joined, bare_cons,
        bare_nil, Node.bare, Flow.bare, bareBranches, Branch.bare, hd.same, hsame, List.cons_append]
  | ⟨_, _, .switch expr, branches⟩, h, spaced, pos, rest, more, hcut => by
    rw [Flow.Legible] at h
    simp only [Flow.source, FlowHead.opening, branchesSource_switch, FlowHead.closing,
      Text.size_append, List.append_assoc, ← Nat.add_assoc] at hcut ⊢
    obtain ⟨l', hclose⟩ := hcut.braced (FlowHead.spells_closing (.switch expr))
    obtain ⟨clauses, otherwise, hb⟩ := derived_branches (.switch expr) branches
      (legibleBranches_switch h.2.2) spaced (atCommand_braced ..) hclose
    obtain ⟨l, hopen⟩ := hb.cut.braced h.1
    refine ⟨rfl, .switch expr l [] clauses otherwise l', ?_, fun ids => ?_⟩
    · simp only [Item.tokens, List.map_nil, List.cons_append, List.append_assoc, List.nil_append]
      exact hopen
    · have hsame := hb.same ids
      simp only [Item.nodes, idsAfterBlanks, List.foldl_nil, Node.joined, Flow.joined, bare_cons,
        bare_nil, Node.bare, Flow.bare, hsame]
  | ⟨_, _, .forEach var expr, ⟨_, .loopBody, nodes⟩ :: branches⟩, h, spaced, pos, rest, more,
      hcut => by
    simp only [Flow.Legible, LegibleBranches] at h
    simp only [Flow.source, FlowHead.opening, branchesSource, Branch.source, FlowHead.branchOpening,
      FlowHead.closing, Text.size_append, List.append_assoc, List.nil_append, ← Nat.add_assoc]
      at h hcut ⊢
    obtain ⟨l', hclose⟩ := hcut.braced (FlowHead.spells_closing (.forEach var expr))
    obtain ⟨clauses, otherwise, hb⟩ := derived_branches (.forEach var expr) branches h.2.2.2.2.2
      spaced (atCommand_braced ..) hclose
    obtain rfl := hb.loop rfl
    obtain ⟨items, hd⟩ := derived_nodes nodes h.2.2.2.2.1 spaced hb.atCommand hb.cut
    obtain ⟨l, hopen⟩ := hd.cut.braced (by simpa [FlowHead.Legible] using h.1)
    refine ⟨rfl, .forEach var expr l items otherwise l', ?_, fun ids => ?_⟩
    · simp only [Item.tokens, List.cons_append, List.append_assoc, List.nil_append]
      exact hopen
    · have hsame := hb.same (nodesOf ids items).2.rest
      simp only [branchesOf, List.nil_append] at hsame
      simp only [Item.nodes, Node.joined, Flow.joined, joinedBranches, Branch.joined, bare_cons,
        bare_nil, Node.bare, Flow.bare, bareBranches, Branch.bare, hd.same, hsame]
  | ⟨_, _, .ifThen, []⟩, h, _, _, _, _, _ => by
    obtain ⟨-, h, -⟩ := h
    cases (h rfl).choose_spec
  | ⟨_, _, .forEach _ _, []⟩, h, _, _, _, _, _ => by
    obtain ⟨-, h, -⟩ := h
    cases (h rfl).choose_spec
  | ⟨_, _, .ifThen, ⟨_, .default, _⟩ :: _⟩, h, _, _, _, _, _
  | ⟨_, _, .ifThen, ⟨_, .loopBody, _⟩ :: _⟩, h, _, _, _, _, _
  | ⟨_, _, .forEach _ _, ⟨_, .default, _⟩ :: _⟩, h, _, _, _, _, _
  | ⟨_, _, .forEach _ _, ⟨_, .cond _, _⟩ :: _⟩, h, _, _, _, _, _ => by
    simp [Flow.Legible, LegibleBranches, BranchKind.Legible] at h

/-- The text of later branches is a list of clauses with a last branch. -/
theorem derived_branches (head : FlowHead) : ∀ (branches : List Branch),
    LegibleBranches head false branches → ∀ (spaced : Bool) {pos : Nat} {rest : Text}
    {more : List Token}, AtCommand rest →
    CutsInto (pos + Text.size (branchesSource spaced head false branches)) rest more →
    ∃ clauses otherwise, DerivedBranches pos (branchesSource spaced head false branches ++ rest)
      clauses otherwise more head branches
  | [], _, spaced, pos, rest, more, hrest, hcut => by
    rw [branchesSource] at hcut ⊢
    exact ⟨[], none, by simpa [tokensOfClauses, tokensOfFallback] using hcut,
      by simp [branchesOf, lastBranchOf, joinedBranches], fun _ => rfl, hrest⟩
  | ⟨_, .cond expr, nodes⟩ :: branches, h, spaced, pos, rest, more, hrest, hcut => by
    simp only [LegibleBranches] at h
    obtain ⟨hkind, -, hnodes, hbranches⟩ := h
    obtain ⟨hloop, inner, hopening, hspells⟩ := exists_spells_clause hkind
    simp only [branchesSource, Branch.source, hopening, Text.size_append, List.append_assoc,
      ← Nat.add_assoc] at hcut ⊢
    obtain ⟨clauses, otherwise, hb⟩ := derived_branches head branches hbranches spaced hrest hcut
    obtain ⟨items, hd⟩ := derived_nodes nodes hnodes spaced hb.atCommand hb.cut
    obtain ⟨l, hopen⟩ := hd.cut.braced hspells
    refine ⟨⟨expr, l, items⟩ :: clauses, otherwise, ?_, fun ids => ?_, ?_, rfl⟩
    · simpa [tokensOfClauses, Clause.tokens] using hopen
    · simp [branchesOf, Clause.branch, joinedBranches, Branch.joined, bareBranches, Branch.bare,
        hd.same, hb.same]
    · rw [hloop]
      nofun
  | ⟨_, .default, nodes⟩ :: branches, h, spaced, pos, rest, more, hrest, hcut => by
    rw [LegibleBranches] at h
    obtain ⟨-, hlast, hnodes, -⟩ := h
    obtain rfl := hlast rfl
    obtain ⟨inner, hopening, hspells⟩ := exists_spells_last head
    simp only [branchesSource, Branch.source, hopening, Text.size_append, List.append_nil,
      List.append_assoc, ← Nat.add_assoc] at hcut ⊢
    obtain ⟨items, hd⟩ := derived_nodes nodes hnodes spaced hrest hcut
    obtain ⟨l, hopen⟩ := hd.cut.braced hspells
    refine ⟨[], some ⟨l, items⟩, ?_, fun ids => ?_, fun _ => rfl, rfl⟩
    · simpa [tokensOfClauses, tokensOfFallback, Fallback.tokens] using hopen
    · simp [branchesOf, lastBranchOf, Fallback.branch, joinedBranches, Branch.joined, bareBranches,
        Branch.bare, hd.same]
  | ⟨_, .loopBody, _⟩ :: _, h, _, _, _, _, _, _ => by
    cases head <;> simp [LegibleBranches, BranchKind.Legible] at h

end

/-- **The source text of a legible tree is read as the tree with its texts joined.** -/
theorem Template.read_of_legible {nodes : List Node} (h : LegibleNodes nodes) (kind : ContentKind)
    (ids : IdSource) : ∃ t ids', Template.read (source nodes) kind ids = .ok (t, ids')
      ∧ t.kind = kind ∧ bare t.nodes = bare (joined false nodes) := by
  obtain ⟨items, hd⟩ := @derived_nodes nodes h false 0 [] [] rfl .nil
  have hcut : CutsInto 0 (source nodes) (tokensOf items) := by
    simpa only [List.append_nil, source] using hd.cut
  exact ⟨_, _, Template.read_eq_ok.mpr ⟨items, hcut, rfl, rfl⟩, rfl, hd.same ids⟩

end TemplateMarkup
