/-
# The order of evaluation

Prints, calls, bindings and control flow are evaluated in the order of `walk`.  `sequence` lists
them in that order, at every depth and with their own fields; `authored` is the same list when the
order does not count.

A node can leave its place only where an attribute with a computed name waits for its value: the
attribute is finished later, and until then the computed name is not among the nodes.  `timely` says
that no binding, and no control flow that gives no value, stands there.
-/
import TemplateMarkup.Proofs.Tree.Authored
import TemplateMarkup.Text.Blank

namespace TemplateMarkup

/-! ## 1. Authored nodes in order -/

/-- The authored ones of some nodes, in order and with their own fields. -/
def inTurn (nodes : List Node) : List Node := (nodes.filter Node.isAuthored).map Node.own

/-- The authored nodes of a node, itself first. -/
def Node.sequence (n : Node) : List Node := inTurn n.walk

/-- The authored nodes of a tree, in the order in which they are evaluated. -/
def sequence (nodes : List Node) : List Node := inTurn (walk nodes)

@[simp] theorem inTurn_nil : inTurn [] = [] := rfl

@[simp] theorem inTurn_append (l l' : List Node) : inTurn (l ++ l') = inTurn l ++ inTurn l' := by
  simp [inTurn]

theorem inTurn_authored {n : Node} (h : n.isAuthored = true) (l : List Node) :
    inTurn (n :: l) = n.own :: inTurn l := by
  simp [inTurn, h]

theorem inTurn_made {n : Node} (h : n.isAuthored = false) (l : List Node) :
    inTurn (n :: l) = inTurn l := by
  simp [inTurn, h]

@[simp] theorem sequence_nil : sequence [] = [] := rfl

@[simp] theorem sequence_cons (n : Node) (nodes : List Node) :
    sequence (n :: nodes) = n.sequence ++ sequence nodes := by
  rw [sequence, walk, inTurn_append]
  rfl

@[simp] theorem sequence_append (l l' : List Node) :
    sequence (l ++ l') = sequence l ++ sequence l' := by
  induction l with
  | nil => rfl
  | cons n l ih => rw [List.cons_append, sequence_cons, sequence_cons, ih, List.append_assoc]

namespace Node

variable (id : NodeId) (s : Span)

@[simp] theorem sequence_raw (t : Text) : (raw id s t).sequence = [] := by
  rw [Node.sequence, Node.walk, inTurn_made rfl, inTurn_nil]

@[simp] theorem sequence_call (callee : Text) (params : List Param) :
    (call id s callee params).sequence
      = call id s callee (params.map Param.own) :: inTurn (walkParams params) := by
  rw [Node.sequence, Node.walk, inTurn_authored rfl, Node.own]

@[simp] theorem sequence_binding (var : Text) (value : Value) :
    (binding id s var value).sequence = binding id s var value.own :: inTurn value.walk := by
  rw [Node.sequence, Node.walk, inTurn_authored rfl, Node.own]

@[simp] theorem sequence_flow (f : Flow) :
    (flow f).sequence = flow f.own :: inTurn (walkBranches f.branches) := by
  obtain ⟨id, s, head, branches⟩ := f
  rw [Node.sequence, Node.walk, inTurn_authored rfl, Node.own, Flow.walk]

@[simp] theorem sequence_openTag (name : Node) (children : List Node) (selfClosing : Bool) :
    (openTag id s name children selfClosing).sequence
      = name.sequence ++ TemplateMarkup.sequence children := by
  rw [Node.sequence, Node.walk, inTurn_made rfl, inTurn_append]
  rfl

@[simp] theorem sequence_closeTag (name : Node) : (closeTag id s name).sequence = name.sequence := by
  rw [Node.sequence, Node.walk, inTurn_made rfl]
  rfl

@[simp] theorem sequence_attr_none (name : Node) :
    (attr id s name none).sequence = name.sequence := by
  rw [Node.sequence, Node.walk, inTurn_made rfl]
  rfl

@[simp] theorem sequence_attr_some (name value : Node) :
    (attr id s name (some value)).sequence = name.sequence ++ value.sequence := by
  rw [Node.sequence, Node.walk, inTurn_made rfl, inTurn_append]
  rfl

@[simp] theorem sequence_attrValue (quotes : Quotes) (children : List Node) :
    (attrValue id s quotes children).sequence = TemplateMarkup.sequence children := by
  rw [Node.sequence, Node.walk, inTurn_made rfl]
  rfl

@[simp] theorem sequence_comment (children : List Node) :
    (comment id s children).sequence = TemplateMarkup.sequence children := by
  rw [Node.sequence, Node.walk, inTurn_made rfl]
  rfl

end Node

/-! ## 2. Where a value is due -/

/-- What stands right before a node, as far as the value of a computed name may be due there. -/
inductive Lead
  | none
  /-- A print or a call, which may be the name of an attribute. -/
  | name
  /-- Such a node, a `=` and blanks. -/
  | equals
deriving DecidableEq

namespace Lead

/-- One more character has been read. -/
def step : Lead → Char → Lead
  | name, c => if c = '=' then equals else none
  | equals, c => if isAsciiBlank c then equals else none
  | none, _ => none

/-- More text has been read. -/
def past (lead : Lead) (t : Text) : Lead := t.foldl step lead

@[simp] theorem past_nil (lead : Lead) : lead.past [] = lead := rfl

theorem past_cons (lead : Lead) (c : Char) (cs : Text) :
    lead.past (c :: cs) = (lead.step c).past cs := rfl

theorem past_append (lead : Lead) (t t' : Text) :
    lead.past (t ++ t') = (lead.past t).past t' := List.foldl_append ..

/-- Blanks between the `=` and the value do not matter. -/
theorem past_equals {t : Text} (h : ∀ c ∈ t, isAsciiBlank c = true) : equals.past t = equals := by
  induction t with
  | nil => rfl
  | cons c t ih =>
    rw [past_cons, step, if_pos (h c List.mem_cons_self)]
    exact ih fun d hd => h d (List.mem_cons_of_mem _ hd)

end Lead

/-! ## 3. Nodes that give a value -/

/-- Nodes that are a value, or part of one. -/
def Node.isValue : Node → Bool
  | .print .. | .call .. | .attrValue .. => true
  | _ => false

mutual

/-- Where a value is due, the node gives one. -/
def Node.offers : Node → Bool
  | .raw _ _ t => t.any fun c => !isAsciiBlank c
  | .flow f => f.offers
  | n => n.isValue

/-- One of the nodes gives a value. -/
def offersValue : List Node → Bool
  | [] => false
  | n :: nodes => n.offers || offersValue nodes

/-- What decides is the first branch; a loop may not run at all. -/
def Flow.offers : Flow → Bool
  | ⟨_, _, head, branches⟩ => !head.isLoop && firstOffers branches

/-- The first of the branches gives a value. -/
def firstOffers : List Branch → Bool
  | [] => false
  | b :: _ => b.offers

/-- The branch gives a value. -/
def Branch.offers : Branch → Bool
  | ⟨_, _, nodes⟩ => offersValue nodes

end

/-! ## 4. Timely nodes -/

/-- What stands before the next node. -/
def Node.lead (lead : Lead) : Node → Lead
  | .raw _ _ t => lead.past t
  | .print .. | .call .. => .name
  | _ => .none

mutual

/-- At no depth does a node stand where the value of a computed name is due, unless it gives one. -/
def timely (lead : Lead) : List Node → Bool
  | [] => true
  | n :: nodes => n.timely lead && timely (n.lead lead) nodes

/-- The node may stand there, and the nodes inside it stand where they may. -/
def Node.timely (lead : Lead) : Node → Bool
  | .raw .. | .print .. => true
  | .call _ _ _ params => timelyParams params
  | .binding _ _ _ value => lead != .equals && value.timely
  | .flow f => (lead != .equals || f.offers) && f.timely
  | .attrValue .. => true
  | _ => lead != .equals

/-- The nodes inside a value stand where they may. -/
def Value.timely : Value → Bool
  | .expr _ => true
  | .content _ nodes => TemplateMarkup.timely .none nodes

/-- The nodes inside the parameters of a call stand where they may. -/
def timelyParams : List Param → Bool
  | [] => true
  | p :: params => p.timely && timelyParams params

/-- The nodes inside a parameter stand where they may. -/
def Param.timely : Param → Bool
  | ⟨_, _, _, value⟩ => value.timely

/-- The nodes inside the branches stand where they may. -/
def Flow.timely : Flow → Bool
  | ⟨_, _, _, branches⟩ => timelyBranches branches

/-- The nodes inside branches stand where they may. -/
def timelyBranches : List Branch → Bool
  | [] => true
  | b :: branches => b.timely && timelyBranches branches

/-- The nodes inside a branch stand where they may. -/
def Branch.timely : Branch → Bool
  | ⟨_, _, nodes⟩ => TemplateMarkup.timely .none nodes

end

/-- Where a value is due only part of one stands. -/
theorem Node.isValue_of_timely {n : Node} (h : n.timely .equals = true)
    (hraw : n.rawText? = none) (hflow : ∀ f, n ≠ .flow f) : n.isValue = true := by
  cases n with
  | raw => cases hraw
  | flow f => exact absurd rfl (hflow f)
  | print | call | attrValue => rfl
  | binding id location var value =>
    rw [Node.timely, Bool.and_eq_true] at h
    cases h.1
  | _ =>
    rw [Node.timely] at h
    · cases h
    all_goals simp

end TemplateMarkup
