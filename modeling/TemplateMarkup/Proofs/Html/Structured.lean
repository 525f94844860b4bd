/-
# Html that has its structure already

A list that some earlier pass has given structure, or that was built with it, has no `<` in its
text: its tags, attributes and comments are nodes.  To a run these are closed: what is inside them
is not looked at, and only their names matter, since the tag of an element whose body is text begins
such a body, which goes on up to the tag that closes it.  `HtmlList` and `AttrList` are the grammar
of these lists, and of the branches and content blocks in them.

Such a list comes out as it went in (`rewriteBlock_of_structured`).  Only its texts are read once
more, and so have new names and places; `retold` forgets those and nothing else.

The proof turns each rule of the grammar into a fact about assemblies: a list is `Retained` from one
context to another if an assembly that is fed with it has it at the end of its output, and nothing
is open or reported.
-/
import TemplateMarkup.Proofs.Html.Isolation
import TemplateMarkup.Proofs.Html.Lasting
import TemplateMarkup.Proofs.Html.Verbatim
import TemplateMarkup.Proofs.Tree.Joined

namespace TemplateMarkup

/-! ## 1. The grammar -/

mutual

/-- Html whose tags and comments are nodes. -/
inductive HtmlList : List Node → Prop
  | nil : HtmlList []
  | text {id : NodeId} {loc : Span} {t : Text} {nodes : List Node} (hne : t ≠ [])
      (hangle : '<' ∉ t) (hapart : ∀ n ∈ nodes.head?, n.rawText? = none) (h : HtmlList nodes) :
      HtmlList (.raw id loc t :: nodes)
  | output {n : Node} {nodes : List Node} (hn : HtmlOutput n) (h : HtmlList nodes) :
      HtmlList (n :: nodes)
  | comment {id : NodeId} {loc : Span} {children nodes : List Node} (h : HtmlList nodes) :
      HtmlList (.comment id loc children :: nodes)
  | closeTag {id : NodeId} {loc : Span} {name : Node} {nodes : List Node}
      (hname : name.rcdata? = none) (h : HtmlList nodes) :
      HtmlList (.closeTag id loc name :: nodes)
  | openTag {id : NodeId} {loc : Span} {name : Node} {children nodes : List Node}
      {selfClosing : Bool} (hname : selfClosing = true ∨ name.rcdata? = none) (h : HtmlList nodes) :
      HtmlList (.openTag id loc name children selfClosing :: nodes)
  | element {id : NodeId} {loc : Span} {name : Node} {children nodes : List Node} {e : Rcdata}
      (hname : name.rcdata? = some e) (h : InElement e nodes) :
      HtmlList (.openTag id loc name children false :: nodes)
  | flow {id : NodeId} {loc : Span} {head : FlowHead} {branches : List Branch} {nodes : List Node}
      (hb : ∀ branch ∈ branches, HtmlList branch.nodes) (h : HtmlList nodes) :
      HtmlList (.flow ⟨id, loc, head, branches⟩ :: nodes)

/-- The rest of a list behind the open tag of an element whose body is text: the body, its close
tag, and html after it. -/
inductive InElement : Rcdata → List Node → Prop
  | text {e : Rcdata} {id : NodeId} {loc : Span} {t : Text} {nodes : List Node} (hne : t ≠ [])
      (hslash : ¬ ['<', '/'] <:+: t) (hapart : ∀ n ∈ nodes.head?, n.rawText? = none)
      (h : InElement e nodes) : InElement e (.raw id loc t :: nodes)
  | output {e : Rcdata} {n : Node} {nodes : List Node} (hn : HtmlOutput n) (h : InElement e nodes) :
      InElement e (n :: nodes)
  | close {e : Rcdata} {id : NodeId} {loc : Span} {name : Node} {nodes : List Node}
      (hname : name.rcdata? = some e) (h : HtmlList nodes) :
      InElement e (.closeTag id loc name :: nodes)

/-- Attributes that are nodes, with bindings and control flow among them. -/
inductive AttrList : List Node → Prop
  | nil : AttrList []
  | attr {id : NodeId} {loc : Span} {name : Node} {value : Option Node} {nodes : List Node}
      (h : AttrList nodes) : AttrList (.attr id loc name value :: nodes)
  | binding {id : NodeId} {loc : Span} {var : Text} {value : Value} {nodes : List Node}
      (hv : StructuredValue value) (h : AttrList nodes) :
      AttrList (.binding id loc var value :: nodes)
  | flow {id : NodeId} {loc : Span} {head : FlowHead} {branches : List Branch} {nodes : List Node}
      (hb : ∀ branch ∈ branches, AttrList branch.nodes) (h : AttrList nodes) :
      AttrList (.flow ⟨id, loc, head, branches⟩ :: nodes)

/-- A print, or a call or binding whose content blocks have their structure. -/
inductive HtmlOutput : Node → Prop
  | print {id : NodeId} {loc : Span} {expr : Text} : HtmlOutput (.print id loc expr)
  | call {id : NodeId} {loc : Span} {callee : Text} {params : List Param}
      (hp : ∀ p ∈ params, StructuredValue p.value) : HtmlOutput (.call id loc callee params)
  | binding {id : NodeId} {loc : Span} {var : Text} {value : Value} (hv : StructuredValue value) :
      HtmlOutput (.binding id loc var value)

/-- An expression, or content of html or of attributes that has its structure. -/
inductive StructuredValue : Value → Prop
  | expr {expr : Text} : StructuredValue (.expr expr)
  | html {kind : Option ContentKind} {nodes : List Node} (hk : declaredOrHtml kind = .html)
      (h : HtmlList nodes) : StructuredValue (.content kind nodes)
  | attributes {kind : Option ContentKind} {nodes : List Node}
      (hk : declaredOrHtml kind = .attributes) (h : AttrList nodes) :
      StructuredValue (.content kind nodes)

end

/-! ## 2. The same but for the names and places of texts -/

mutual

/-- The node, with the names and places of text forgotten in it. -/
def Node.retold : Node → Node
  | .raw _ _ t => .raw default default t
  | .call id loc callee params => .call id loc callee (retoldParams params)
  | .binding id loc var value => .binding id loc var value.retold
  | .flow f => .flow f.retold
  | n => n

/-- The nodes, with the names and places of text in lists, branches and content blocks
forgotten. -/
def retold : List Node → List Node
  | [] => []
  | n :: nodes => n.retold :: retold nodes

/-- The value, with the names and places of text forgotten in it. -/
def Value.retold : Value → Value
  | .expr e => .expr e
  | .content kind nodes => .content kind (TemplateMarkup.retold nodes)

/-- The parameters, with the names and places of text forgotten in them. -/
def retoldParams : List Param → List Param
  | [] => []
  | p :: params => p.retold :: retoldParams params

/-- The parameter, with the names and places of text forgotten in it. -/
def Param.retold : Param → Param
  | ⟨id, loc, name, value⟩ => ⟨id, loc, name, value.retold⟩

/-- The control flow, with the names and places of text forgotten in it. -/
def Flow.retold : Flow → Flow
  | ⟨id, loc, head, branches⟩ => ⟨id, loc, head, retoldBranches branches⟩

/-- The branches, with the names and places of text forgotten in them. -/
def retoldBranches : List Branch → List Branch
  | [] => []
  | branch :: branches => branch.retold :: retoldBranches branches

/-- The branch, with the names and places of text forgotten in it. -/
def Branch.retold : Branch → Branch
  | ⟨id, kind, nodes⟩ => ⟨id, kind, TemplateMarkup.retold nodes⟩

end

theorem retold_eq_map (nodes : List Node) : retold nodes = nodes.map Node.retold := by
  induction nodes with
  | nil => rw [retold, List.map_nil]
  | cons n nodes ih => rw [retold, ih, List.map_cons]

theorem retold_append (nodes later : List Node) :
    retold (nodes ++ later) = retold nodes ++ retold later := by
  simp only [retold_eq_map, List.map_append]

@[simp] theorem Node.rawText?_retold (n : Node) : n.retold.rawText? = n.rawText? := by
  cases n <;> simp [Node.retold, Node.rawText?]

/-! ## 3. Assemblies that keep a list -/

namespace Ledger.Same

theorem refl (l : Ledger) : l.Same l := ⟨rfl, rfl, rfl⟩

theorem trans {l m k : Ledger} (h : l.Same m) (h' : m.Same k) : l.Same k :=
  ⟨h.config.trans h'.config, h.depth.trans h'.depth, h.diagnostics.trans h'.diagnostics⟩

/-- There is still room for control flow that is nested so deep. -/
theorem room {l m : Ledger} (h : l.Same m) {depth : Nat}
    (hd : l.depth + depth ≤ l.config.maxDepth) : m.depth + depth ≤ m.config.maxDepth := by
  rw [← h.depth, ← h.config]
  exact hd

end Ledger.Same

namespace Assembly

theorem content_of_closed {b : Assembly} (hb : b.Closed) : b.content = b.out := by
  unfold content
  rw [hb.2.2.1, hb.2.2.2]
  split <;> first | rfl | contradiction

theorem closed_start (l : Ledger) (here : Context) (inBranch : Bool) (offset : Nat) :
    (start l here inBranch offset).Closed := ⟨rfl, rfl, rfl, rfl⟩

theorem apart_start (l : Ledger) (here : Context) (inBranch : Bool) (offset : Nat)
    (nodes : List Node) : (start l here inBranch offset).Apart nodes := by
  intro _ _ _ m hm
  rw [content_of_closed (closed_start ..)] at hm
  cases hm

/-- The second assembly is the first with the nodes at the end of its output, in the context `next`.
No draft is open, and nothing is reported. -/
structure Keeps (b : Assembly) (nodes : List Node) (next : Context) (b' : Assembly) : Prop where
  closed : b'.Closed
  entry : b'.entry = b.entry
  context : b'.context = next
  out : ∃ new, b'.out = new.reverse ++ b.out ∧ retold new = retold nodes
  ledger : b.ledger.Same b'.ledger

namespace Keeps

variable {b b' b'' : Assembly} {nodes later : List Node} {here next : Context}

theorem trans (h : b.Keeps nodes here b') (h' : b'.Keeps later next b'') :
    b.Keeps (nodes ++ later) next b'' := by
  refine ⟨h'.closed, h'.entry.trans h.entry, h'.context, ?_, h.ledger.trans h'.ledger⟩
  obtain ⟨new, hout, hnew⟩ := h.out
  obtain ⟨new', hout', hnew'⟩ := h'.out
  refine ⟨new ++ new', ?_, ?_⟩
  · rw [hout', hout, List.reverse_append, List.append_assoc]
  · rw [retold_append, retold_append, hnew, hnew']

/-- What is kept may be told otherwise. -/
theorem congr (h : b.Keeps nodes next b') (hn : retold nodes = retold later) :
    b.Keeps later next b' := by
  obtain ⟨new, hout, hnew⟩ := h.out
  exact { h with out := ⟨new, hout, hnew.trans hn⟩ }

/-- The ledger has counted on before. -/
theorem ofLedger {l : Ledger} (hl : b.ledger.Same l)
    (h : ({ b with ledger := l } : Assembly).Keeps nodes next b') : b.Keeps nodes next b' :=
  ⟨h.closed, h.entry, h.context, h.out, hl.trans h.ledger⟩

theorem enter (h : b.Keeps nodes here b') (next : Context) (offset : Nat) :
    b.Keeps nodes next (b'.enter next offset) := by
  unfold Assembly.enter
  split
  · next hsame => exact { h with context := hsame }
  · exact ⟨h.closed, h.entry, rfl, h.out, h.ledger.trans ⟨rfl, rfl, rfl⟩⟩

theorem setOffset (h : b.Keeps nodes next b') (offset : Nat) :
    b.Keeps nodes next { b' with offset := offset } :=
  ⟨h.closed, h.entry, h.context, h.out, h.ledger⟩

/-- A node that is no text stands before what follows. -/
theorem apart {n : Node} (h : b.Keeps [n] next b') (hn : n.rawText? = none) (nodes : List Node) :
    b'.Apart nodes := by
  obtain ⟨new, hout, hnew⟩ := h.out
  rw [retold_eq_map, retold_eq_map, List.map_singleton, List.map_eq_singleton_iff] at hnew
  obtain ⟨m, rfl, hm⟩ := hnew
  intro _ _ _ k hk
  rw [content_of_closed h.closed, hout] at hk
  obtain rfl : m = k := Option.some.inj hk
  rw [← m.rawText?_retold, hm, Node.rawText?_retold]
  exact hn

end Keeps

variable {b : Assembly} {here : Context}

/-- One more finished node. -/
theorem keeps_addOut (hb : b.Closed) (n : Node) : b.Keeps [n] b.context (b.addOut n) :=
  ⟨hb, rfl, rfl, ⟨[n], rfl, rfl⟩, .refl _⟩

theorem addContent_of_isContent (hb : b.context.isContent = true) (n : Node) :
    b.addContent n = b.addOut n := by
  rw [addContent, content_of_isContent hb, setContent_of_isContent hb]
  rfl

theorem addAmongAttrs_of_closed (hb : b.Closed) (n : Node) : b.addAmongAttrs n = b.addOut n := by
  unfold addAmongAttrs
  rw [hb.1]

/-- Between tags a node is placed among the finished ones, and leads on by its name. -/
theorem keeps_place_content (hb : b.Closed) (hc : b.context.isContent = true) (n : Node) :
    b.Keeps [n] ((contextAfter? b.context n).getD b.context) (b.place n) := by
  have hplace : b.place n = b.placeContent n := by
    unfold place
    cases h : b.context <;> rw [h] at hc <;> first | rfl | cases hc
  rw [hplace]
  unfold placeContent
  cases hnext : contextAfter? b.context n with
  | none =>
    dsimp only
    rw [addContent_of_isContent hc]
    exact keeps_addOut hb n
  | some next =>
    dsimp only
    rw [addContent_of_isContent hc]
    exact (keeps_addOut hb n).enter next _

/-- So is a node that is no name between attributes. -/
theorem keeps_place_attr (hb : b.Closed) (hc : b.context = .beforeAttrName) {n : Node}
    (hn : n.isPrinting = false) : b.Keeps [n] b.context (b.place n) := by
  have hplace : b.place n = b.addOut n := by
    unfold place placeInTag
    rw [hc, hn]
    exact addAmongAttrs_of_closed hb n
  rw [hplace]
  exact keeps_addOut hb n

/-- Control flow that comes back to its context is placed there. -/
theorem keeps_placeFlow (hb : b.Closed)
    (hc : b.context.isContent = true ∨ b.context = .beforeAttrName) (f : Flow) :
    b.Keeps [.flow f] b.context (b.placeFlow f b.context) := by
  rcases hc with hc | hc
  · have hplace : b.placeFlow f b.context
        = (b.addContent (.flow f)).enter b.context f.location.start := by
      unfold placeFlow
      cases h : b.context <;> rw [h] at hc <;> first | rfl | cases hc
    rw [hplace, addContent_of_isContent hc]
    exact (keeps_addOut hb _).enter _ _
  · unfold placeFlow
    rw [hc, addAmongAttrs_of_closed hb]
    exact (keeps_addOut hb _).enter _ _

/-- Text that is one lexeme of content is one node, where no text stands before it. -/
theorem keeps_readRun (hb : b.Closed) (hc : b.context.isContent = true) {c : Char} {cs : Text}
    (hl : b.context.lexeme c cs = Lexeme.content b.context (c :: cs).length)
    (hlast : ∀ m ∈ b.content.head?, m.rawText? = none) (loc : Span) :
    b.Keeps [.raw default default (c :: cs)] b.context (b.readRun (.single (c :: cs) loc)) := by
  unfold readRun
  rw [RawRun.text_single]
  refine Keeps.setOffset ?_ _
  rw [read_of_lexeme (b := { b with ledger := b.ledger.countRun }) hl]
  refine Keeps.ofLedger (l := b.ledger.countRun) ⟨rfl, rfl, rfl⟩ ?_
  generalize hx : ({ b with ledger := b.ledger.countRun } : Assembly) = x
  have hxc : x.context.isContent = true := by rw [← hx]; exact hc
  unfold addText
  split
  · next id before t nodes hcontent =>
    rw [← hx] at hcontent
    have hraw := hlast (.raw id before t) (by rw [show b.content = _ from hcontent]; rfl)
    cases hraw
  · rw [setContent_of_isContent (by exact hxc), content_of_isContent hxc, ← hx]
    exact ⟨hb, rfl, rfl, ⟨[_], rfl, by simp [retold, Node.retold]⟩, ⟨rfl, rfl, rfl⟩⟩

end Assembly

/-! ## 4. Rules -/

open Assembly

/-- A list that is fed to an assembly is kept, and leads from one context to another. -/
def Retained (here : Context) (nodes : List Node) (next : Context) : Prop :=
  ∀ b : Assembly, b.Closed → b.context = here → b.Apart nodes →
    b.ledger.depth + nesting nodes ≤ b.ledger.config.maxDepth →
    b.Keeps nodes next (feedNodes b none nodes)

/-- So is a node that is not text. -/
structure Node.Retained (here : Context) (n : Node) (next : Context) : Prop where
  notText : n.rawText? = none
  keeps (b : Assembly) : b.Closed → b.context = here →
    b.ledger.depth + n.nesting ≤ b.ledger.config.maxDepth → b.Keeps [n] next (feedNode b n)

/-- A value comes out as it went in, and nothing is reported. -/
def Value.Retained (value : Value) : Prop :=
  ∀ (l : Ledger) (block : BlockKind) (location : Span),
    l.depth + value.nesting ≤ l.config.maxDepth →
    (rewriteValue l block location value).1.retold = value.retold
      ∧ l.Same (rewriteValue l block location value).2

section Rules

variable {here mid next : Context} {nodes : List Node}

theorem retained_nil (here : Context) : Retained here [] here := by
  intro b hb hc _ _
  rw [feedNodes]
  exact ⟨hb, rfl, hc, ⟨[], rfl, rfl⟩, .refl _⟩

theorem retained_text {t : Text} (hne : t ≠ []) (hc : here.isContent = true)
    (hl : ∀ c cs, t = c :: cs → here.lexeme c cs = Lexeme.content here (c :: cs).length)
    (hapart : ∀ n ∈ nodes.head?, n.rawText? = none) (h : Retained here nodes next) (id : NodeId)
    (loc : Span) : Retained here (.raw id loc t :: nodes) next := by
  intro b hb hhere hlast hd
  subst hhere
  obtain ⟨c, cs, rfl⟩ := List.exists_cons_of_ne_nil hne
  rw [nesting] at hd
  rw [feedNodes_cons_text (t := c :: cs) rfl]
  dsimp only [collect]
  rw [feedNodes_run _ _ hapart]
  have hread := keeps_readRun hb hc (hl c cs rfl)
    (hlast (.raw id loc (c :: cs)) rfl rfl) loc
  have hlater := h _ hread.closed hread.context
    (fun n hn hraw => by rw [hapart n hn] at hraw; cases hraw) (hread.ledger.room (by omega))
  refine (hread.trans hlater).congr ?_
  simp [retold, Node.retold]

theorem Node.Retained.cons {n : Node} (hn : n.Retained here mid)
    (h : TemplateMarkup.Retained mid nodes next) :
    TemplateMarkup.Retained here (n :: nodes) next := by
  intro b hb hc _ hd
  rw [TemplateMarkup.nesting] at hd
  rw [feedNodes_cons_node hn.notText]
  have hnode := hn.keeps b hb hc (by omega)
  exact hnode.trans (h _ hnode.closed hnode.context (hnode.apart hn.notText nodes)
    (hnode.ledger.room (by omega)))

/-- A node that is only placed, between tags. -/
theorem retained_placed {n : Node} (hraw : n.rawText? = none) (hn : n.isEntered = false)
    (hc : here.isContent = true) : n.Retained here ((contextAfter? here n).getD here) := by
  refine ⟨hraw, fun b hb hhere _ => ?_⟩
  subst hhere
  rw [feedNode_of_isEntered hn]
  exact (keeps_place_content hb hc n).setOffset _

theorem rewriteParams_retained : ∀ {params : List Param}, (∀ p ∈ params, p.value.Retained) →
    ∀ l : Ledger, l.depth + paramsNesting params ≤ l.config.maxDepth →
    retoldParams (rewriteParams l params).1 = retoldParams params
      ∧ l.Same (rewriteParams l params).2
  | [], _, l, _ => by
    rw [rewriteParams]
    exact ⟨rfl, .refl l⟩
  | ⟨id, loc, name, value⟩ :: params, hp, l, hd => by
    rw [paramsNesting, Param.nesting] at hd
    obtain ⟨hvalue, hl⟩ := hp _ List.mem_cons_self l .paramContent loc (by dsimp only; omega)
    obtain ⟨hparams, hl'⟩ := rewriteParams_retained
      (fun p hmem => hp p (List.mem_cons_of_mem _ hmem)) _ (hl.room (by omega))
    rw [rewriteParams, rewriteParam]
    refine ⟨?_, hl.trans hl'⟩
    dsimp only at hvalue ⊢
    rw [retoldParams, retoldParams, Param.retold, Param.retold, hvalue, hparams]

theorem retained_call {params : List Param} (hp : ∀ p ∈ params, p.value.Retained)
    (hc : here.isContent = true) (id : NodeId) (loc : Span) (callee : Text) :
    (Node.call id loc callee params).Retained here here := by
  refine ⟨rfl, fun b hb hhere hd => ?_⟩
  subst hhere
  rw [Node.nesting] at hd
  obtain ⟨hparams, hl⟩ := rewriteParams_retained hp b.ledger hd
  rw [feedNode]
  dsimp only
  have hplace := keeps_place_content (b := { b with ledger := (rewriteParams b.ledger params).2 })
    hb hc (.call id loc callee (rewriteParams b.ledger params).1)
  have hnone : contextAfter? b.context (.call id loc callee (rewriteParams b.ledger params).1)
      = none := rfl
  dsimp only at hplace
  rw [hnone] at hplace
  refine ((hplace.ofLedger hl).setOffset _).congr ?_
  simp only [retold, Node.retold, hparams]

theorem retained_binding {value : Value} (hv : value.Retained)
    (hc : here.isContent = true ∨ here = .beforeAttrName) (id : NodeId) (loc : Span) (var : Text) :
    (Node.binding id loc var value).Retained here here := by
  refine ⟨rfl, fun b hb hhere hd => ?_⟩
  subst hhere
  rw [Node.nesting] at hd
  obtain ⟨hvalue, hl⟩ := hv b.ledger .letContent loc hd
  rw [feedNode]
  dsimp only
  generalize rewriteValue b.ledger .letContent loc value = r at *
  have hplace : ({ b with ledger := r.2 } : Assembly).Keeps [.binding id loc var r.1] b.context
      (({ b with ledger := r.2 } : Assembly).place (.binding id loc var r.1)) := by
    rcases hc with hc | hc
    · exact keeps_place_content (b := { b with ledger := r.2 }) hb hc _
    · exact keeps_place_attr (b := { b with ledger := r.2 }) hb hc rfl
  refine ((hplace.ofLedger hl).setOffset _).congr ?_
  simp only [retold, Node.retold, hvalue]

/-- A branch that comes back to the context it was entered in. -/
theorem rewriteBranch_retained {id : NodeId} {kind : BranchKind} (h : Retained here nodes here)
    (hs : here.isSettled = true) (l : Ledger) (offset : Nat)
    (hd : l.depth + nesting nodes ≤ l.config.maxDepth) :
    let r := rewriteBranch l here offset ⟨id, kind, nodes⟩
    r.1.retold = Branch.retold ⟨id, kind, nodes⟩ ∧ r.2.1 = here ∧ l.Same r.2.2 := by
  have hfed := h (.start l.countBranch here true offset) (closed_start ..) rfl
    (apart_start _ _ _ _ _) hd
  have hend := endBranch_of_closed hfed.closed (by rw [hfed.context]; exact hs)
  rw [rewriteBranch]
  dsimp only
  rw [hend]
  have hl : l.Same l.countBranch := ⟨rfl, rfl, rfl⟩
  refine ⟨?_, hfed.context, hl.trans hfed.ledger⟩
  obtain ⟨new, hout, hnew⟩ := hfed.out
  rw [Branch.retold, Branch.retold, Assembly.nodes, hout, start, List.append_nil,
    List.reverse_reverse, hnew]

theorem rewriteBranches_retained (hs : here.isSettled = true) : ∀ {branches : List Branch},
    (∀ branch ∈ branches, Retained here branch.nodes here) → ∀ (l : Ledger) (offset : Nat),
    l.depth + branchesNesting branches ≤ l.config.maxDepth →
    let r := rewriteBranches l here offset branches
    retoldBranches r.1 = retoldBranches branches ∧ (∀ e ∈ r.2.1, e.2 = here) ∧ l.Same r.2.2
  | [], _, l, offset, _ => by
    rw [rewriteBranches]
    exact ⟨rfl, by simp, .refl l⟩
  | ⟨id, kind, nodes⟩ :: branches, hb, l, offset, hd => by
    rw [branchesNesting, Branch.nesting] at hd
    obtain ⟨hbranch, hexit, hl⟩ :=
      rewriteBranch_retained (hb _ List.mem_cons_self) hs l offset (by dsimp only; omega)
    obtain ⟨hbranches, hexits, hl'⟩ := rewriteBranches_retained hs
      (fun branch hmem => hb branch (List.mem_cons_of_mem _ hmem)) _ offset (hl.room (by omega))
    rw [rewriteBranches]
    refine ⟨?_, ?_, hl.trans hl'⟩
    · dsimp only
      rw [retoldBranches, retoldBranches, hbranch, hbranches]
    · rintro e (_ | ⟨_, he⟩)
      · exact hexit
      · exact hexits e he

/-- Control flow whose branches all come back to the context before it. -/
theorem retained_flow {branches : List Branch}
    (hb : ∀ branch ∈ branches, Retained here branch.nodes here)
    (hc : here.isContent = true ∨ here = .beforeAttrName) (id : NodeId) (loc : Span)
    (head : FlowHead) : (Node.flow ⟨id, loc, head, branches⟩).Retained here here := by
  have hs : here.isSettled = true := by
    rcases hc with hc | rfl
    · cases here <;> first | rfl | cases hc
    · rfl
  refine ⟨rfl, fun b hclosed hhere hd => ?_⟩
  subst hhere
  rw [Node.nesting, Flow.nesting] at hd
  obtain ⟨hbranches, hexits, hl⟩ := rewriteBranches_retained hs hb
    { b.ledger with depth := b.ledger.depth + 1 } loc.start (by dsimp only; omega)
  rw [feedNode, settle_of_isSettled hs, rewriteFlow]
  dsimp only
  rw [if_neg (by omega)]
  dsimp only
  rw [reconcile_of_same _ _ _ _ hexits]
  generalize rewriteBranches { b.ledger with depth := b.ledger.depth + 1 } b.context loc.start
    branches = r at *
  have hsame : b.ledger.Same { r.2.2 with depth := b.ledger.depth } :=
    ⟨hl.config, rfl, hl.diagnostics⟩
  have hplace := keeps_placeFlow (b := { b with ledger := { r.2.2 with depth := b.ledger.depth } })
    hclosed hc ⟨id, loc, head, r.1⟩
  refine ((hplace.ofLedger hsame).setOffset _).congr ?_
  simp only [retold, Node.retold, Flow.retold, hbranches]

/-- A content block that ends in the context it begins in. -/
theorem retained_content {kind : Option ContentKind} {entry : Context}
    (hentry : Context.entry? (declaredOrHtml kind) = some entry) (h : Retained entry nodes entry) :
    (Value.content kind nodes).Retained := by
  intro l block location hd
  have hs : entry.isSettled = true := Context.isSettled_of_isHome (Context.isHome_of_entry? hentry)
  have hfed := h (.start l.countBlock entry false location.start) (closed_start ..) rfl
    (apart_start _ _ _ _ _) hd
  have hend := endBlock_of_closed hfed.closed (by rw [hfed.context]; exact hs)
    (.inl (hfed.context.trans hfed.entry.symm)) block
  rw [rewriteValue]
  simp only [hentry]
  rw [hend]
  have hl : l.Same l.countBlock := ⟨rfl, rfl, rfl⟩
  refine ⟨?_, hl.trans hfed.ledger⟩
  obtain ⟨new, hout, hnew⟩ := hfed.out
  rw [Value.retold, Value.retold, Assembly.nodes, hout, start, List.append_nil,
    List.reverse_reverse, hnew]

end Rules

/-! ## 5. Structured lists -/

/-- Text without `<` is content between tags. -/
theorem lexeme_of_noAngle {c : Char} {cs : Text} (h : '<' ∉ c :: cs) :
    Context.pcdata.lexeme c cs = Lexeme.content .pcdata (c :: cs).length := by
  have hadmits : Context.pcdata.admits (c :: cs) = true := by
    refine List.all_eq_true.mpr fun d hd => ?_
    rw [bne_iff_ne]
    rintro rfl
    exact h hd
  have hl := Context.lexeme_of_admits (u := []) hadmits nofun
  rwa [List.append_nil] at hl

/-- Text without `</` is content in an element. -/
theorem lexeme_of_noSlash {e : Rcdata} {c : Char} {cs : Text} (h : ¬ ['<', '/'] <:+: c :: cs) :
    (Context.rcdata e).lexeme c cs = Lexeme.content (.rcdata e) (c :: cs).length := by
  refine Context.lexeme_of_spares rfl fun s hs => ?_
  rintro ⟨name, rest, rfl, -⟩
  exact h (List.IsInfix.trans ⟨[], name ++ rest, rfl⟩ hs.isInfix)

mutual

theorem HtmlList.retained : ∀ {nodes : List Node}, HtmlList nodes → Retained .pcdata nodes .pcdata
  | _, .nil => retained_nil _
  | _, .text hne hangle hapart h =>
    retained_text hne rfl (fun _ _ ht => lexeme_of_noAngle (ht ▸ hangle)) hapart h.retained _ _
  | _, .output hn h => (hn.retained rfl).cons h.retained
  | _, .comment h => (retained_placed rfl rfl rfl).cons h.retained
  | _, .closeTag _ h => (retained_placed rfl rfl rfl).cons h.retained
  | _, @HtmlList.openTag id loc name children _ selfClosing hname h => by
    refine Node.Retained.cons ?_ h.retained
    have hplaced := retained_placed (n := .openTag id loc name children selfClosing) rfl rfl
      (rfl : Context.pcdata.isContent = true)
    rcases hname with rfl | hname
    · exact hplaced
    · cases selfClosing with
      | true => exact hplaced
      | false =>
        dsimp only [contextAfter?] at hplaced
        rwa [hname] at hplaced
  | _, @HtmlList.element id loc name children _ e hname h => by
    refine Node.Retained.cons ?_ h.retained
    have hplaced := retained_placed (n := .openTag id loc name children false) rfl rfl
      (rfl : Context.pcdata.isContent = true)
    dsimp only [contextAfter?] at hplaced
    rwa [hname] at hplaced
  | _, .flow hb h =>
    (retained_flow (fun branch hmem => (hb branch hmem).retained) (.inl rfl) _ _ _).cons h.retained

theorem InElement.retained : ∀ {e : Rcdata} {nodes : List Node}, InElement e nodes →
    Retained (.rcdata e) nodes .pcdata
  | _, _, .text hne hslash hapart h =>
    retained_text hne rfl (fun _ _ ht => lexeme_of_noSlash (ht ▸ hslash)) hapart h.retained _ _
  | _, _, .output hn h => (hn.retained rfl).cons h.retained
  | e, _, @InElement.close _ id loc name _ hname h => by
    refine Node.Retained.cons ?_ h.retained
    have hplaced := retained_placed (n := .closeTag id loc name) rfl rfl
      (rfl : (Context.rcdata e).isContent = true)
    dsimp only [contextAfter?] at hplaced
    rwa [if_pos hname] at hplaced

theorem AttrList.retained : ∀ {nodes : List Node}, AttrList nodes →
    Retained .beforeAttrName nodes .beforeAttrName
  | _, .nil => retained_nil _
  | _, .attr h => by
    refine Node.Retained.cons ⟨rfl, fun b hb hc _ => ?_⟩ h.retained
    rw [feedNode_of_isEntered rfl, ← hc]
    exact (keeps_place_attr hb hc rfl).setOffset _
  | _, .binding hv h => (retained_binding hv.retained (.inr rfl) _ _ _).cons h.retained
  | _, .flow hb h =>
    (retained_flow (fun branch hmem => (hb branch hmem).retained) (.inr rfl) _ _ _).cons h.retained

theorem HtmlOutput.retained : ∀ {n : Node}, HtmlOutput n → ∀ {here : Context},
    here.isContent = true → n.Retained here here
  | _, .print, _, hc => retained_placed rfl rfl hc
  | _, .call hp, _, hc => retained_call (fun p hmem => (hp p hmem).retained) hc _ _ _
  | _, .binding hv, _, hc => retained_binding hv.retained (.inl hc) _ _ _

theorem StructuredValue.retained : ∀ {value : Value}, StructuredValue value → value.Retained
  | _, .expr => fun l block location _ => by
    rw [rewriteValue]
    exact ⟨rfl, .refl l⟩
  | _, .html hk h => retained_content (by rw [hk]; rfl) h.retained
  | _, .attributes hk h => retained_content (by rw [hk]; rfl) h.retained

end

/-- **What has its structure already comes out as it went in.**  A block of html or of attributes
whose tags, attributes and comments are nodes is rewritten to itself, whether or not text is joined:
nothing is reported, and only the texts of the list, and of the branches and content blocks in it,
have other names and places. -/
theorem rewriteBlock_of_structured {config : Config} {kind : ContentKind} {nodes : List Node}
    (h : kind = .html ∧ HtmlList nodes ∨ kind = .attributes ∧ AttrList nodes)
    (hd : nesting nodes ≤ config.maxDepth) (block : BlockKind) (location : Span) (ids : IdSource) :
    (rewriteBlock config kind block location ids nodes).diagnostics = []
      ∧ retold (rewriteBlock config kind block location ids nodes).result = retold nodes := by
  have hvalue : StructuredValue (.content (some kind) nodes) := by
    rcases h with ⟨rfl, h⟩ | ⟨rfl, h⟩
    · exact .html rfl h
    · exact .attributes rfl h
  obtain ⟨hresult, hl⟩ := hvalue.retained (.start config ids) block location
    (by rwa [Value.nesting, Ledger.start, Nat.zero_add])
  obtain ⟨nodes', hnodes⟩ :=
    exists_rewriteValue_eq (.start config ids) block location (some kind) nodes
  rw [hnodes, Value.retold, Value.retold] at hresult
  unfold rewriteBlock
  refine ⟨List.reverse_eq_nil_iff.mpr hl.diagnostics.symm, ?_⟩
  dsimp only [Ledger.outcome]
  rw [hnodes]
  exact (Value.content.inj hresult).2

/-- The nodes of `a<script>x < y{$z}</SCRIPT>{if $c}<br/>{let $v kind="attributes"}id{/let}{/if}`,
where the tags and the attribute are nodes. -/
def scriptAndFlow : List Node :=
  [.raw default default ['a'],
    .openTag default default (.raw default default "script".toList) [] false,
    .raw default default "x < y".toList, .print default default "$z".toList,
    .closeTag default default (.raw default default "SCRIPT".toList),
    .flow ⟨default, default, .ifThen, [⟨default, .cond "$c".toList,
      [.openTag default default (.raw default default "br".toList) [] true,
        .binding default default "$v".toList (.content (some .attributes)
          [.attr default default (.raw default default "id".toList) none])]⟩]⟩]

/-- A `<` in the body of a script is text of it. -/
theorem rewriteBlock_of_structured_scriptAndFlow :
    HtmlList scriptAndFlow ∧ nesting scriptAndFlow ≤ Config.maxDepth { joinText := false }
      ∧ (rewriteBlock { joinText := false } .html .template default (.startingAt 0)
        scriptAndFlow).diagnostics = []
      ∧ retold (rewriteBlock { joinText := false } .html .template default (.startingAt 0)
        scriptAndFlow).result = retold scriptAndFlow := by
  have hbranch : HtmlList [.openTag default default (.raw default default "br".toList) [] true,
      .binding default default "$v".toList (.content (some .attributes)
        [.attr default default (.raw default default "id".toList) none])] :=
    .openTag (.inl rfl) (.output (.binding (.attributes rfl (.attr .nil))) .nil)
  have hlist : HtmlList scriptAndFlow := by
    refine .text (by decide) (by decide) (fun n hn => by cases hn; rfl) ?_
    refine .element (e := .script) (by decide) ?_
    refine .text (by decide) (by decide) (fun n hn => by cases hn; rfl) ?_
    refine .output .print (.close (by decide) (.flow (fun branch hmem => ?_) .nil))
    obtain rfl := List.mem_singleton.mp hmem
    exact hbranch
  have hdepth : nesting scriptAndFlow ≤ Config.maxDepth { joinText := false } := by decide
  exact ⟨hlist, hdepth, rewriteBlock_of_structured (.inl ⟨rfl, hlist⟩) hdepth ..⟩

end TemplateMarkup
