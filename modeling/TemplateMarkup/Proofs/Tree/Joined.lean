/-
# Trees without cuts in their text

`joined` joins raw text that stands side by side and drops raw text that is empty, in lists, in
branches and in content blocks.  Html nodes of an earlier run are taken as they are, or are joined
as well if `inside` says so.

`onlyHtml` and `nesting` say of which kinds the content blocks are and how deep control flow is
nested, where that matters to a run: content blocks are entered, html nodes are not.
-/
import TemplateMarkup.Proofs.Tree.Splicing

namespace TemplateMarkup

/-! ## 1. Joining -/

section Joining

variable (inside : Bool)

mutual

/-- The node with the text in it joined. -/
def Node.joined : Node → Node
  | .call id location callee params => .call id location callee (joinedParams params)
  | .binding id location var value => .binding id location var value.joined
  | .flow f => .flow f.joined
  | .openTag id location name children selfClosing =>
    .openTag id location name (if inside then joined children else children) selfClosing
  | .attr id location name (some value) =>
    .attr id location name (some (if inside then value.joined else value))
  | .attrValue id location quotes children =>
    .attrValue id location quotes (if inside then joined children else children)
  | .comment id location children =>
    .comment id location (if inside then joined children else children)
  | n => n

/-- The nodes with text joined, and without empty text. -/
def joined : List Node → List Node
  | [] => []
  | n :: nodes => if n.rawText? = some [] then joined nodes else n.joined.before (joined nodes)

/-- The value with the text in it joined. -/
def Value.joined : Value → Value
  | .expr e => .expr e
  | .content kind nodes => .content kind (joined nodes)

/-- The parameters with the text in them joined. -/
def joinedParams : List Param → List Param
  | [] => []
  | p :: params => p.joined :: joinedParams params

/-- The parameter with the text in it joined. -/
def Param.joined : Param → Param
  | ⟨id, location, name, value⟩ => ⟨id, location, name, value.joined⟩

/-- The control flow with the text in it joined. -/
def Flow.joined : Flow → Flow
  | ⟨id, location, head, branches⟩ => ⟨id, location, head, joinedBranches branches⟩

/-- The branches with the text in them joined. -/
def joinedBranches : List Branch → List Branch
  | [] => []
  | branch :: branches => branch.joined :: joinedBranches branches

/-- The branch with the text in it joined. -/
def Branch.joined : Branch → Branch
  | ⟨id, kind, nodes⟩ => ⟨id, kind, joined nodes⟩

end

end Joining

/-! ## 2. What a run enters -/

mutual

/-- Every content block that a run enters is of html or of attributes. -/
def Node.onlyHtml : Node → Bool
  | .call _ _ _ params => paramsOnlyHtml params
  | .binding _ _ _ value => value.onlyHtml
  | .flow f => f.onlyHtml
  | _ => true

/-- Every content block that a run enters is of html or of attributes. -/
def onlyHtml : List Node → Bool
  | [] => true
  | n :: nodes => n.onlyHtml && onlyHtml nodes

/-- The value is an expression, or content of html or of attributes. -/
def Value.onlyHtml : Value → Bool
  | .expr _ => true
  | .content kind nodes =>
    (declaredOrHtml kind == .html || declaredOrHtml kind == .attributes)
      && TemplateMarkup.onlyHtml nodes

/-- Every content block of the parameters is of html or of attributes. -/
def paramsOnlyHtml : List Param → Bool
  | [] => true
  | p :: params => p.onlyHtml && paramsOnlyHtml params

/-- The parameter is an expression, or content of html or of attributes. -/
def Param.onlyHtml : Param → Bool
  | ⟨_, _, _, value⟩ => value.onlyHtml

/-- Every content block in the control flow is of html or of attributes. -/
def Flow.onlyHtml : Flow → Bool
  | ⟨_, _, _, branches⟩ => branchesOnlyHtml branches

/-- Every content block in the branches is of html or of attributes. -/
def branchesOnlyHtml : List Branch → Bool
  | [] => true
  | branch :: branches => branch.onlyHtml && branchesOnlyHtml branches

/-- Every content block in the branch is of html or of attributes. -/
def Branch.onlyHtml : Branch → Bool
  | ⟨_, _, nodes⟩ => TemplateMarkup.onlyHtml nodes

end

mutual

/-- How deep the control flow that a run enters is nested, content blocks included. -/
def Node.nesting : Node → Nat
  | .call _ _ _ params => paramsNesting params
  | .binding _ _ _ value => value.nesting
  | .flow f => f.nesting + 1
  | _ => 0

/-- How deep control flow is nested in the nodes. -/
def nesting : List Node → Nat
  | [] => 0
  | n :: nodes => max n.nesting (nesting nodes)

/-- How deep control flow is nested in the value. -/
def Value.nesting : Value → Nat
  | .expr _ => 0
  | .content _ nodes => TemplateMarkup.nesting nodes

/-- How deep control flow is nested in the parameters. -/
def paramsNesting : List Param → Nat
  | [] => 0
  | p :: params => max p.nesting (paramsNesting params)

/-- How deep control flow is nested in the parameter. -/
def Param.nesting : Param → Nat
  | ⟨_, _, _, value⟩ => value.nesting

/-- How deep control flow is nested in the branches. -/
def Flow.nesting : Flow → Nat
  | ⟨_, _, _, branches⟩ => branchesNesting branches

/-- How deep control flow is nested in the branches. -/
def branchesNesting : List Branch → Nat
  | [] => 0
  | branch :: branches => max branch.nesting (branchesNesting branches)

/-- How deep control flow is nested in the branch. -/
def Branch.nesting : Branch → Nat
  | ⟨_, _, nodes⟩ => TemplateMarkup.nesting nodes

end

/-! ## 3. Laws -/

@[simp] theorem Node.rawText?_joined (inside : Bool) (n : Node) :
    (n.joined inside).rawText? = n.rawText? := by
  cases n with
  | attr id location name value => cases value <;> simp [Node.joined, Node.rawText?]
  | _ => simp [Node.joined, Node.rawText?]

end TemplateMarkup
