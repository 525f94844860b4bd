/-
# The nodes that a template's author wrote

Prints, calls, bindings and control flow are in the source; text is cut anew and html nodes are
made.  `inventory` lists what there is in a tree, at every depth, but for the text: each authored
node with its own fields only (`Node.own`), a call without the content of its parameters, control
flow without the content of its branches; and of each html node that it is there.

The order in which they stand is left open, so what was taken from one place and put in another
is a sum of two multisets, and a node that is lost or doubled makes a sum wrong.
-/
import Mathlib.Algebra.Order.Group.Multiset
import Mathlib.Tactic.Abel
import TemplateMarkup.Tree.Walk

namespace TemplateMarkup

/-! ## 1. Own fields -/

/-- A print, a call, a binding or control flow. -/
def Node.isAuthored : Node → Bool
  | .print .. | .call .. | .binding .. | .flow _ => true
  | _ => false

/-- A tag, an attribute, a value of one or a comment. -/
def Node.isHtml : Node → Bool
  | .openTag .. | .closeTag .. | .attr .. | .attrValue .. | .comment .. => true
  | _ => false

/-- The value without its content. -/
def Value.own : Value → Value
  | .expr e => .expr e
  | .content k _ => .content k []

/-- The parameter without its content. -/
def Param.own (p : Param) : Param := { p with value := p.value.own }

/-- The branch without its content. -/
def Branch.own (b : Branch) : Branch := { b with nodes := [] }

/-- The control flow without the content of its branches. -/
def Flow.own (f : Flow) : Flow := { f with branches := f.branches.map Branch.own }

/-- The node without the content inside it. -/
def Node.own : Node → Node
  | .call id location callee params => .call id location callee (params.map Param.own)
  | .binding id location var value => .binding id location var value.own
  | .flow f => .flow f.own
  | n => n

@[simp] theorem Node.id_own (n : Node) : n.own.id = n.id := by cases n <;> rfl

@[simp] theorem Node.isAuthored_own (n : Node) : n.own.isAuthored = n.isAuthored := by
  cases n <;> rfl

/-! ## 2. The inventory -/

/-- What the inventory says of a node by itself: the own fields of an authored node, that there is
one of an html node, and nothing of text. -/
def Node.entry? : Node → Option (Option Node)
  | .raw .. => none
  | .print id s e => some (some (.print id s e))
  | .call id s callee params => some (some (Node.call id s callee params).own)
  | .binding id s var value => some (some (Node.binding id s var value).own)
  | .flow f => some (some (Node.flow f).own)
  | .openTag .. | .closeTag .. | .attr .. | .attrValue .. | .comment .. => some none

/-- The entries of some nodes, each for itself. -/
def sift (nodes : List Node) : Multiset (Option Node) := ↑(nodes.filterMap Node.entry?)

/-- The inventory of a node, itself included. -/
def Node.inventory (n : Node) : Multiset (Option Node) := sift n.walk

/-- The inventory of a tree. -/
def inventory (nodes : List Node) : Multiset (Option Node) := sift (walk nodes)

@[simp] theorem sift_nil : sift [] = 0 := rfl

@[simp] theorem sift_append (l l' : List Node) : sift (l ++ l') = sift l + sift l' := by
  simp [sift]

theorem sift_cons (n : Node) (l : List Node) : sift (n :: l) = sift [n] + sift l :=
  sift_append [n] l

theorem sift_singleton {n : Node} {entry : Option Node} (h : n.entry? = some entry) :
    sift [n] = {entry} := by
  simp [sift, h]

@[simp] theorem inventory_nil : inventory [] = 0 := by simp [inventory, walk]

@[simp] theorem inventory_cons (n : Node) (nodes : List Node) :
    inventory (n :: nodes) = n.inventory + inventory nodes := by
  simp [inventory, Node.inventory, walk]

@[simp] theorem inventory_append (l l' : List Node) :
    inventory (l ++ l') = inventory l + inventory l' := by
  induction l with
  | nil => simp
  | cons n l ih => rw [List.cons_append, inventory_cons, inventory_cons, ih, add_assoc]

@[simp] theorem inventory_reverse (nodes : List Node) :
    inventory nodes.reverse = inventory nodes := by
  induction nodes with
  | nil => simp
  | cons n nodes ih => simp [ih, add_comm]

namespace Node

variable (id : NodeId) (s : Span)

@[simp] theorem inventory_raw (t : Text) : (raw id s t).inventory = 0 := by
  rw [Node.inventory, Node.walk]
  rfl

@[simp] theorem inventory_call (callee : Text) (params : List Param) :
    (call id s callee params).inventory
      = {some (call id s callee (params.map Param.own))} + sift (walkParams params) := by
  rw [Node.inventory, Node.walk, sift_cons, sift_singleton rfl, Node.own]

@[simp] theorem inventory_binding (var : Text) (value : Value) :
    (binding id s var value).inventory
      = {some (binding id s var value.own)} + sift value.walk := by
  rw [Node.inventory, Node.walk, sift_cons, sift_singleton rfl, Node.own]

@[simp] theorem inventory_flow (f : Flow) :
    (flow f).inventory = {some (flow f.own)} + sift (walkBranches f.branches) := by
  obtain ⟨id, s, head, branches⟩ := f
  rw [Node.inventory, Node.walk, sift_cons, sift_singleton rfl, Node.own, Flow.walk]

@[simp] theorem inventory_openTag (name : Node) (children : List Node) (selfClosing : Bool) :
    (openTag id s name children selfClosing).inventory
      = {none} + (name.inventory + TemplateMarkup.inventory children) := by
  rw [Node.inventory, Node.walk, sift_cons, sift_singleton rfl, sift_append]
  rfl

@[simp] theorem inventory_closeTag (name : Node) :
    (closeTag id s name).inventory = {none} + name.inventory := by
  rw [Node.inventory, Node.walk, sift_cons, sift_singleton rfl]
  rfl

/-- An attribute is there with its name and its value. -/
@[simp] theorem inventory_attr (name : Node) (value : Option Node) :
    (attr id s name value).inventory
      = {none} + (name.inventory + TemplateMarkup.inventory value.toList) := by
  cases value with
  | none =>
    rw [Node.inventory, Node.walk, sift_cons, sift_singleton rfl, Option.toList_none,
      inventory_nil, add_zero]
    rfl
  | some value =>
    rw [Node.inventory, Node.walk, sift_cons, sift_singleton rfl, sift_append,
      Option.toList_some, inventory_cons, inventory_nil, add_zero]
    rfl

@[simp] theorem inventory_attrValue (quotes : Quotes) (children : List Node) :
    (attrValue id s quotes children).inventory
      = {none} + TemplateMarkup.inventory children := by
  rw [Node.inventory, Node.walk, sift_cons, sift_singleton rfl]
  rfl

@[simp] theorem inventory_comment (children : List Node) :
    (comment id s children).inventory = {none} + TemplateMarkup.inventory children := by
  rw [Node.inventory, Node.walk, sift_cons, sift_singleton rfl]
  rfl

end Node

/-- An entry that says no more than that it is there stands for a node of html. -/
theorem countP_inventory (nodes : List Node) :
    (inventory nodes).countP (fun entry => entry.isNone) = countNodes Node.isHtml nodes := by
  rw [inventory, sift, Multiset.coe_countP, countNodes, List.countP_filterMap]
  refine List.countP_congr fun n _ => ?_
  cases n <;> simp [Node.entry?, Node.isHtml]

/-! ## 3. Occurrences -/

/-- The authored nodes of a tree, each with its own fields. -/
def authored (nodes : List Node) : Multiset Node :=
  ↑(((walk nodes).filter Node.isAuthored).map Node.own)

/-- The other entries are those of the authored nodes. -/
theorem filter_inventory (nodes : List Node) :
    (inventory nodes).filter (fun entry => entry.isSome) = (authored nodes).map some := by
  rw [inventory, sift, authored, Multiset.map_coe, Multiset.filter_coe]
  congr 1
  induction walk nodes with
  | nil => rfl
  | cons n l ih =>
    cases n <;>
      simpa [Node.entry?, Node.isAuthored, Node.own, List.filterMap_cons, List.filter_cons] using ih

/-- The authored nodes of a tree that have a name. -/
def occurrences (id : NodeId) (nodes : List Node) : List Node :=
  (walk nodes).filter fun n => n.isAuthored && n.id == id

/-- The occurrences of a name, with their own fields, are found among the authored nodes. -/
theorem coe_map_own_occurrences (id : NodeId) (nodes : List Node) :
    (((occurrences id nodes).map Node.own : List Node) : Multiset Node)
      = (authored nodes).filter fun n => n.id = id := by
  have h : (occurrences id nodes) = ((walk nodes).filter Node.isAuthored).filter
      fun n => n.id == id := by
    rw [occurrences, List.filter_filter]
    exact List.filter_congr fun n _ => Bool.and_comm ..
  rw [h, authored, Multiset.filter_coe, List.filter_map]
  congr 3
  funext n
  simp [beq_eq_decide]

/-- **Where nodes are only moved or lost, no name occurs more often.** -/
theorem length_occurrences_le {l l' : List Node} (h : authored l' ≤ authored l) (id : NodeId) :
    (occurrences id l').length ≤ (occurrences id l).length := by
  have hle := Multiset.card_le_card (Multiset.filter_le_filter (fun n => n.id = id) h)
  simpa [← coe_map_own_occurrences] using hle

/-- **Where nodes are only moved, every name occurs as before**, with the same own fields. -/
theorem occurrences_perm {l l' : List Node} (h : authored l' = authored l) (id : NodeId) :
    ((occurrences id l').map Node.own).Perm ((occurrences id l).map Node.own) := by
  rw [← Multiset.coe_eq_coe, coe_map_own_occurrences, coe_map_own_occurrences, h]

end TemplateMarkup
