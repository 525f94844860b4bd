/-
# Trees without names and places

`bare` forgets the names of all nodes, branches and parameters and where they stand in the source,
and keeps everything else.  Two trees that are the same when bare say the same: they have one source
text (`source_bare`) and one outline (`shape_bare`).
-/
import TemplateMarkup.Tree.Outline
import TemplateMarkup.Tree.Source

namespace TemplateMarkup

/-! ## 1. Forgetting -/

mutual

/-- The node without names and places. -/
def Node.bare : Node → Node
  | .raw _ _ t => .raw default default t
  | .print _ _ e => .print default default e
  | .call _ _ callee params => .call default default callee (bareParams params)
  | .binding _ _ var value => .binding default default var value.bare
  | .flow f => .flow f.bare
  | .openTag _ _ name children selfClosing =>
    .openTag default default name.bare (bare children) selfClosing
  | .closeTag _ _ name => .closeTag default default name.bare
  | .attr _ _ name none => .attr default default name.bare none
  | .attr _ _ name (some value) => .attr default default name.bare (some value.bare)
  | .attrValue _ _ quotes children => .attrValue default default quotes (bare children)
  | .comment _ _ children => .comment default default (bare children)

/-- The nodes without names and places. -/
def bare : List Node → List Node
  | [] => []
  | n :: nodes => n.bare :: bare nodes

/-- The value without names and places. -/
def Value.bare : Value → Value
  | .expr e => .expr e
  | .content kind nodes => .content kind (TemplateMarkup.bare nodes)

/-- The parameters without names and places. -/
def bareParams : List Param → List Param
  | [] => []
  | p :: params => p.bare :: bareParams params

/-- The parameter without names and places. -/
def Param.bare : Param → Param
  | ⟨_, _, name, value⟩ => ⟨default, default, name, value.bare⟩

/-- The control flow without names and places. -/
def Flow.bare : Flow → Flow
  | ⟨_, _, head, branches⟩ => ⟨default, default, head, bareBranches branches⟩

/-- The branches without names and places. -/
def bareBranches : List Branch → List Branch
  | [] => []
  | b :: branches => b.bare :: bareBranches branches

/-- The branch without names and places. -/
def Branch.bare : Branch → Branch
  | ⟨_, kind, nodes⟩ => ⟨default, kind, TemplateMarkup.bare nodes⟩

end

@[simp] theorem bare_nil : bare [] = [] := by rw [bare]

@[simp] theorem bare_cons (n : Node) (nodes : List Node) :
    bare (n :: nodes) = n.bare :: bare nodes := by rw [bare]

theorem bare_eq_map (nodes : List Node) : bare nodes = nodes.map Node.bare := by
  induction nodes with
  | nil => rw [bare, List.map_nil]
  | cons n nodes ih => rw [bare, List.map_cons, ih]

@[simp] theorem bare_append (l l' : List Node) : bare (l ++ l') = bare l ++ bare l' := by
  simp only [bare_eq_map, List.map_append]

@[simp] theorem bare_reverse (nodes : List Node) : bare nodes.reverse = (bare nodes).reverse := by
  simp only [bare_eq_map, List.map_reverse]

@[simp] theorem bare_isEmpty (nodes : List Node) : (bare nodes).isEmpty = nodes.isEmpty := by
  cases nodes <;> simp

mutual

@[simp] theorem Node.bare_bare : ∀ n : Node, n.bare.bare = n.bare
  | .raw .. | .print .. => by simp [Node.bare]
  | .call _ _ callee params => by rw [Node.bare, Node.bare, bareParams_bareParams params]
  | .binding _ _ var value => by rw [Node.bare, Node.bare, value.bare_bare]
  | .flow f => by rw [Node.bare, Node.bare, f.bare_bare]
  | .openTag _ _ name children selfClosing => by
    rw [Node.bare, Node.bare, name.bare_bare, bare_bare children]
  | .closeTag _ _ name => by rw [Node.bare, Node.bare, name.bare_bare]
  | .attr _ _ name none => by rw [Node.bare, Node.bare, name.bare_bare]
  | .attr _ _ name (some value) => by
    rw [Node.bare, Node.bare, name.bare_bare, value.bare_bare]
  | .attrValue _ _ quotes children => by rw [Node.bare, Node.bare, bare_bare children]
  | .comment _ _ children => by rw [Node.bare, Node.bare, bare_bare children]

@[simp] theorem bare_bare : ∀ nodes : List Node, bare (bare nodes) = bare nodes
  | [] => by simp only [bare_nil]
  | n :: nodes => by simp only [bare_cons, n.bare_bare, bare_bare nodes]

@[simp] theorem Value.bare_bare : ∀ value : Value, value.bare.bare = value.bare
  | .expr e => by simp only [Value.bare]
  | .content kind nodes => by simp only [Value.bare, TemplateMarkup.bare_bare nodes]

@[simp] theorem bareParams_bareParams : ∀ params : List Param,
    bareParams (bareParams params) = bareParams params
  | [] => by simp only [bareParams]
  | ⟨_, _, name, value⟩ :: params => by
    simp only [bareParams, Param.bare, value.bare_bare, bareParams_bareParams params]

@[simp] theorem Flow.bare_bare : ∀ f : Flow, f.bare.bare = f.bare
  | ⟨_, _, head, branches⟩ => by simp only [Flow.bare, bareBranches_bareBranches branches]

@[simp] theorem bareBranches_bareBranches : ∀ branches : List Branch,
    bareBranches (bareBranches branches) = bareBranches branches
  | [] => by simp only [bareBranches]
  | ⟨_, kind, nodes⟩ :: branches => by
    simp only [bareBranches, Branch.bare, bare_bare nodes, bareBranches_bareBranches branches]

end

@[simp] theorem Node.bare_comp_bare : Node.bare ∘ Node.bare = Node.bare := funext Node.bare_bare

/-! ## 2. What is kept -/

theorem Node.eq_raw_of_rawText? {n : Node} {t : Text} (h : n.rawText? = some t) :
    ∃ id location, n = .raw id location t := by
  cases n <;> first | (cases h; done) | (cases h; exact ⟨_, _, rfl⟩)

section Kept

variable (n : Node)

@[simp] theorem Node.rawText?_bare : n.bare.rawText? = n.rawText? := by
  cases n with
  | attr id s name value => cases value <;> simp [Node.bare, Node.rawText?]
  | _ => simp [Node.bare, Node.rawText?]

@[simp] theorem Node.rcdata?_bare : n.bare.rcdata? = n.rcdata? := by
  unfold Node.rcdata?
  rw [Node.rawText?_bare]

@[simp] theorem Node.isPrinting_bare : n.bare.isPrinting = n.isPrinting := by
  cases n with
  | attr id s name value => cases value <;> simp [Node.bare, Node.isPrinting]
  | _ => simp [Node.bare, Node.isPrinting]

end Kept

mutual

theorem Node.givesAttribute_bare : ∀ n : Node, n.bare.givesAttribute = n.givesAttribute
  | .flow f => by
    rw [Node.bare, Node.givesAttribute, Node.givesAttribute]
    exact f.givesAttribute_bare
  | .attr _ _ _ none | .attr _ _ _ (some _) => by simp [Node.bare, Node.givesAttribute]
  | .raw .. | .print .. | .call .. | .binding .. | .openTag .. | .closeTag .. | .attrValue ..
  | .comment .. => by simp [Node.bare, Node.givesAttribute]

theorem Flow.givesAttribute_bare : ∀ f : Flow, f.bare.givesAttribute = f.givesAttribute
  | ⟨id, s, head, branches⟩ => by
    rw [Flow.bare, Flow.givesAttribute, Flow.givesAttribute]
    exact someBranchGivesAttribute_bare branches

theorem someBranchGivesAttribute_bare : ∀ branches : List Branch,
    someBranchGivesAttribute (bareBranches branches) = someBranchGivesAttribute branches
  | [] => by rw [bareBranches]
  | b :: branches => by
    rw [bareBranches, someBranchGivesAttribute, someBranchGivesAttribute, b.givesAttribute_bare,
      someBranchGivesAttribute_bare branches]

theorem Branch.givesAttribute_bare : ∀ b : Branch, b.bare.givesAttribute = b.givesAttribute
  | ⟨id, kind, nodes⟩ => by
    rw [Branch.bare, Branch.givesAttribute, Branch.givesAttribute]
    exact someGivesAttribute_bare nodes

theorem someGivesAttribute_bare : ∀ nodes : List Node,
    someGivesAttribute (bare nodes) = someGivesAttribute nodes
  | [] => by rw [bare]
  | n :: nodes => by
    rw [bare, someGivesAttribute, someGivesAttribute, n.givesAttribute_bare,
      someGivesAttribute_bare nodes]

end

/-! ## 3. Source and outline -/

mutual

theorem Node.source_bare : ∀ (n : Node) (spaced : Bool), n.bare.source spaced = n.source spaced
  | .raw .., spaced | .print .., spaced => by simp [Node.bare, Node.source]
  | .call _ _ callee [], spaced => by simp [Node.bare, Node.source, bareParams]
  | .call _ _ callee (p :: params), spaced => by
    rw [Node.bare, bareParams, Node.source, Node.source, p.source_bare, paramsSource_bare params]
  | .binding _ _ var (.expr e), spaced => by simp [Node.bare, Node.source, Value.bare]
  | .binding _ _ var (.content kind nodes), spaced => by
    simp only [Node.bare, Node.source, Value.bare, sourceAfter_bare nodes]
  | .flow f, spaced => by
    rw [Node.bare, Node.source, Node.source]
    exact f.source_bare spaced
  | .openTag _ _ name children selfClosing, spaced => by
    rw [Node.bare, Node.source, Node.source, name.source_bare, sourceAfter_bare children]
  | .closeTag _ _ name, spaced => by
    rw [Node.bare, Node.source, Node.source, name.source_bare]
  | .attr _ _ name none, spaced => by
    rw [Node.bare, Node.source, Node.source, name.source_bare]
  | .attr _ _ name (some value), spaced => by
    simp only [Node.bare, Node.source, name.source_bare, value.source_bare]
  | .attrValue _ _ quotes children, spaced => by
    rw [Node.bare, Node.source, Node.source, sourceAfter_bare children]
  | .comment _ _ children, spaced => by
    rw [Node.bare, Node.source, Node.source, sourceAfter_bare children]

theorem sourceAfter_bare : ∀ (nodes : List Node) (spaced : Bool),
    sourceAfter spaced (bare nodes) = sourceAfter spaced nodes
  | [], spaced => by rw [bare]
  | n :: nodes, spaced => by
    rw [bare, sourceAfter, sourceAfter, n.source_bare, n.givesAttribute_bare,
      sourceAfter_bare nodes]

theorem Param.source_bare : ∀ p : Param, p.bare.source = p.source
  | ⟨_, _, name, .expr e⟩ => by simp [Param.bare, Value.bare, Param.source]
  | ⟨_, _, name, .content kind nodes⟩ => by
    simp only [Param.bare, Value.bare, Param.source, sourceAfter_bare nodes]

theorem paramsSource_bare : ∀ params : List Param,
    paramsSource (bareParams params) = paramsSource params
  | [] => by rw [bareParams]
  | p :: params => by
    rw [bareParams, paramsSource, paramsSource, p.source_bare, paramsSource_bare params]

theorem Flow.source_bare : ∀ (f : Flow) (spaced : Bool), f.bare.source spaced = f.source spaced
  | ⟨_, _, head, branches⟩, spaced => by
    rw [Flow.bare, Flow.source, Flow.source, branchesSource_bare branches]

theorem branchesSource_bare : ∀ (branches : List Branch) (spaced : Bool) (head : FlowHead)
    (isFirst : Bool), branchesSource spaced head isFirst (bareBranches branches)
      = branchesSource spaced head isFirst branches
  | [], spaced, head, isFirst => by rw [bareBranches]
  | b :: branches, spaced, head, isFirst => by
    rw [bareBranches, branchesSource, branchesSource, b.source_bare, branchesSource_bare branches]

theorem Branch.source_bare : ∀ (b : Branch) (spaced : Bool) (head : FlowHead) (isFirst : Bool),
    b.bare.source spaced head isFirst = b.source spaced head isFirst
  | ⟨_, kind, nodes⟩, spaced, head, isFirst => by
    rw [Branch.bare, Branch.source, Branch.source, sourceAfter_bare nodes]

end

/-- **Bare trees have the same source text.** -/
theorem source_bare (nodes : List Node) : source (bare nodes) = source nodes :=
  sourceAfter_bare nodes false

mutual

theorem Node.outline_bare : ∀ n : Node, n.bare.outline = n.outline
  | .raw .. | .print .. => by simp [Node.bare, Node.outline]
  | .call _ _ callee params => by
    rw [Node.bare, Node.outline, Node.outline, paramOutlines_bare params]
  | .binding _ _ var (.expr e) => by simp [Node.bare, Node.outline, Value.bare]
  | .binding _ _ var (.content kind nodes) => by
    simp only [Node.bare, Node.outline, Value.bare, outlines_bare nodes]
  | .flow ⟨_, _, head, branches⟩ => by
    rw [Node.bare, Flow.bare, Node.outline, Node.outline, Flow.branchOutlines, Flow.branchOutlines,
      branchOutlines_bare branches]
  | .openTag _ _ name children selfClosing => by
    rw [Node.bare, Node.outline, Node.outline, name.outline_bare, outlines_bare children]
  | .closeTag _ _ name => by rw [Node.bare, Node.outline, Node.outline, name.outline_bare]
  | .attr _ _ name none => by rw [Node.bare, Node.outline, Node.outline, name.outline_bare]
  | .attr _ _ name (some value) => by
    rw [Node.bare, Node.outline, Node.outline, name.outline_bare, value.outline_bare]
  | .attrValue _ _ quotes children => by
    rw [Node.bare, Node.outline, Node.outline, outlines_bare children]
  | .comment _ _ children => by
    rw [Node.bare, Node.outline, Node.outline, outlines_bare children]

theorem outlines_bare : ∀ nodes : List Node, outlines (bare nodes) = outlines nodes
  | [] => by rw [bare]
  | n :: nodes => by rw [bare, outlines, outlines, n.outline_bare, outlines_bare nodes]

theorem paramOutlines_bare : ∀ params : List Param,
    paramOutlines (bareParams params) = paramOutlines params
  | [] => by rw [bareParams]
  | ⟨_, _, name, .expr e⟩ :: params => by
    rw [bareParams, paramOutlines, paramOutlines, paramOutlines_bare params]
    simp [Param.bare, Value.bare, Param.outline]
  | ⟨_, _, name, .content kind nodes⟩ :: params => by
    rw [bareParams, paramOutlines, paramOutlines, paramOutlines_bare params]
    simp only [Param.bare, Value.bare, Param.outline, outlines_bare nodes]

theorem branchOutlines_bare : ∀ (branches : List Branch) (head : FlowHead),
    branchOutlinesUnder head (bareBranches branches) = branchOutlinesUnder head branches
  | [], head => by rw [bareBranches]
  | ⟨_, kind, nodes⟩ :: branches, head => by
    rw [bareBranches, branchOutlinesUnder, branchOutlinesUnder, branchOutlines_bare branches,
      Branch.bare, Branch.outlineUnder, Branch.outlineUnder, outlines_bare nodes]

end

/-- **Bare trees have the same outline.** -/
theorem shape_bare (nodes : List Node) : shape (bare nodes) = shape nodes := by
  unfold shape
  rw [outlines_bare]

end TemplateMarkup
