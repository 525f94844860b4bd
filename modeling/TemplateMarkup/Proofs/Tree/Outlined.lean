/-
# What a printed outline shows

The printed outline of nodes is a list of lines, and each line can be read back as a depth and a
name: two blanks for each step down, and a name without blanks.  So the text is as good as the list
of lines, and the list of lines is as good as the tree: what stands below a line are the lines after
it that are deeper, up to the first that is not (`eq_of_linesOfAll_eq`).

The outline is a tree of labels, and `preorder` lists the labels from the nodes themselves, without
a tree between.  The two agree, and with the branches and the parameters left out both list the
nodes in the order of `walk`.
-/
import Mathlib.Data.List.Basic
import TemplateMarkup.Text.Blank
import TemplateMarkup.Tree.Outline
import TemplateMarkup.Tree.Walk

namespace TemplateMarkup

/-! ## 1. Preorder -/

mutual

/-- The label of a node at a depth, then those of all that is below it, in preorder. -/
def Node.preorder (depth : Nat) : Node → List (Nat × Label)
  | .raw .. => [(depth, .rawText)]
  | .print .. => [(depth, .print)]
  | .call _ _ _ params => (depth, .call) :: paramsPreorder (depth + 1) params
  | .binding _ _ _ (.expr _) => [(depth, .letValue)]
  | .binding _ _ _ (.content _ nodes) =>
    (depth, .letContent) :: TemplateMarkup.preorder (depth + 1) nodes
  | .flow ⟨_, _, head, branches⟩ =>
    (depth, head.label) :: branchesPreorder (depth + 1) head branches
  | .openTag _ _ name children _ =>
    (depth, .openTag)
      :: (name.preorder (depth + 1) ++ TemplateMarkup.preorder (depth + 1) children)
  | .closeTag _ _ name => (depth, .closeTag) :: name.preorder (depth + 1)
  | .attr _ _ name none => (depth, .attr) :: name.preorder (depth + 1)
  | .attr _ _ name (some value) =>
    (depth, .attr) :: (name.preorder (depth + 1) ++ value.preorder (depth + 1))
  | .attrValue _ _ _ children =>
    (depth, .attrValue) :: TemplateMarkup.preorder (depth + 1) children
  | .comment _ _ children => (depth, .comment) :: TemplateMarkup.preorder (depth + 1) children

/-- The labels of the nodes and of all that is below them, in preorder. -/
def preorder (depth : Nat) : List Node → List (Nat × Label)
  | [] => []
  | n :: nodes => n.preorder depth ++ preorder depth nodes

/-- The labels of parameters, each followed by those of its content. -/
def paramsPreorder (depth : Nat) : List Param → List (Nat × Label)
  | [] => []
  | ⟨_, _, _, .expr _⟩ :: params => (depth, .paramValue) :: paramsPreorder depth params
  | ⟨_, _, _, .content _ nodes⟩ :: params =>
    (depth, .paramContent) :: (preorder (depth + 1) nodes ++ paramsPreorder depth params)

/-- The labels of branches under a given head, each followed by those of its nodes. -/
def branchesPreorder (depth : Nat) (head : FlowHead) : List Branch → List (Nat × Label)
  | [] => []
  | ⟨_, kind, nodes⟩ :: branches =>
    (depth, head.branchLabel kind)
      :: (preorder (depth + 1) nodes ++ branchesPreorder depth head branches)

end

mutual

theorem Node.lines_outline : ∀ (n : Node) (depth : Nat), n.outline.lines depth = n.preorder depth
  | .raw .., depth | .print .., depth => by
    simp only [Node.outline, Outline.lines, linesOfAll, Node.preorder]
  | .call _ _ _ params, depth => by
    rw [Node.outline, Outline.lines, linesOfAll_paramOutlines params, Node.preorder]
  | .binding _ _ _ (.expr _), depth => by
    simp only [Node.outline, Outline.lines, linesOfAll, Node.preorder]
  | .binding _ _ _ (.content _ nodes), depth => by
    simp only [Node.outline, Outline.lines, linesOfAll_outlines nodes, Node.preorder]
  | .flow ⟨_, _, head, branches⟩, depth => by
    rw [Node.outline, Outline.lines, Flow.branchOutlines, linesOfAll_branchOutlines branches,
      Node.preorder]
  | .openTag _ _ name children _, depth => by
    rw [Node.outline, Outline.lines, linesOfAll, name.lines_outline, linesOfAll_outlines children,
      Node.preorder]
  | .closeTag _ _ name, depth | .attr _ _ name none, depth => by
    rw [Node.outline, Outline.lines, linesOfAll, name.lines_outline, linesOfAll, List.append_nil,
      Node.preorder]
  | .attr _ _ name (some value), depth => by
    rw [Node.outline, Outline.lines, linesOfAll, name.lines_outline, linesOfAll,
      value.lines_outline, linesOfAll, List.append_nil, Node.preorder]
  | .attrValue _ _ _ children, depth | .comment _ _ children, depth => by
    rw [Node.outline, Outline.lines, linesOfAll_outlines children, Node.preorder]

/-- **The lines of the outline are the preorder of the nodes.** -/
theorem linesOfAll_outlines : ∀ (nodes : List Node) (depth : Nat),
    linesOfAll depth (outlines nodes) = preorder depth nodes
  | [], depth => by rw [outlines, linesOfAll, preorder]
  | n :: nodes, depth => by
    rw [outlines, linesOfAll, n.lines_outline, linesOfAll_outlines nodes, preorder]

theorem linesOfAll_paramOutlines : ∀ (params : List Param) (depth : Nat),
    linesOfAll depth (paramOutlines params) = paramsPreorder depth params
  | [], depth => by rw [paramOutlines, linesOfAll, paramsPreorder]
  | ⟨_, _, _, .expr _⟩ :: params, depth => by
    rw [paramOutlines, linesOfAll, Param.outline, Outline.lines, linesOfAll,
      linesOfAll_paramOutlines params, paramsPreorder, List.singleton_append]
  | ⟨_, _, _, .content _ nodes⟩ :: params, depth => by
    rw [paramOutlines, linesOfAll, Param.outline, Outline.lines, linesOfAll_outlines nodes,
      linesOfAll_paramOutlines params, paramsPreorder, List.cons_append]

theorem linesOfAll_branchOutlines : ∀ (branches : List Branch) {head : FlowHead} (depth : Nat),
    linesOfAll depth (branchOutlinesUnder head branches) = branchesPreorder depth head branches
  | [], head, depth => by rw [branchOutlinesUnder, linesOfAll, branchesPreorder]
  | ⟨_, kind, nodes⟩ :: branches, head, depth => by
    rw [branchOutlinesUnder, linesOfAll, Branch.outlineUnder, Outline.lines,
      linesOfAll_outlines nodes, linesOfAll_branchOutlines branches, branchesPreorder,
      List.cons_append]

end

/-! ## 2. The nodes among the lines -/

/-- The labels of what is no node: parameters and branches. -/
def Label.isPart : Label → Bool
  | paramValue | paramContent | ifCond | ifElse | switchCase | switchDefault | forNonempty
  | forIfempty => true
  | _ => false

/-- The labels of the nodes among the lines. -/
def nodeLabels (lines : List (Nat × Label)) : List Label :=
  (lines.map Prod.snd).filter fun label => !label.isPart

@[simp] theorem nodeLabels_nil : nodeLabels [] = [] := rfl

@[simp] theorem nodeLabels_append (lines lines' : List (Nat × Label)) :
    nodeLabels (lines ++ lines') = nodeLabels lines ++ nodeLabels lines' := by
  simp [nodeLabels]

theorem nodeLabels_cons_node {label : Label} (h : label.isPart = false) (depth : Nat)
    (lines : List (Nat × Label)) :
    nodeLabels ((depth, label) :: lines) = label :: nodeLabels lines := by
  simp [nodeLabels, h]

theorem nodeLabels_cons_part {label : Label} (h : label.isPart = true) (depth : Nat)
    (lines : List (Nat × Label)) : nodeLabels ((depth, label) :: lines) = nodeLabels lines := by
  simp [nodeLabels, h]

theorem FlowHead.isPart_label (head : FlowHead) : head.label.isPart = false := by
  cases head <;> rfl

theorem FlowHead.isPart_branchLabel (head : FlowHead) (kind : BranchKind) :
    (head.branchLabel kind).isPart = true := by
  cases head <;> cases kind <;> rfl

mutual

theorem Node.nodeLabels_preorder : ∀ (n : Node) (depth : Nat),
    nodeLabels (n.preorder depth) = n.walk.map Node.label
  | .raw .., depth | .print .., depth | .binding _ _ _ (.expr _), depth => by
    simp only [Node.preorder, Node.walk, Value.walk, List.map_cons, List.map_nil, Node.label]
    exact nodeLabels_cons_node rfl ..
  | .call _ _ _ params, depth => by
    rw [Node.preorder, nodeLabels_cons_node rfl, nodeLabels_paramsPreorder params, Node.walk,
      List.map_cons, Node.label]
  | .binding _ _ _ (.content _ nodes), depth => by
    rw [Node.preorder, nodeLabels_cons_node rfl, nodeLabels_preorder nodes, Node.walk, Value.walk,
      List.map_cons, Node.label]
  | .flow ⟨_, _, head, branches⟩, depth => by
    rw [Node.preorder, nodeLabels_cons_node head.isPart_label,
      nodeLabels_branchesPreorder branches, Node.walk, Flow.walk, List.map_cons, Node.label]
  | .openTag _ _ name children _, depth => by
    rw [Node.preorder, nodeLabels_cons_node rfl, nodeLabels_append, name.nodeLabels_preorder,
      nodeLabels_preorder children, Node.walk, List.map_cons, List.map_append, Node.label]
  | .closeTag _ _ name, depth | .attr _ _ name none, depth => by
    rw [Node.preorder, nodeLabels_cons_node rfl, name.nodeLabels_preorder, Node.walk,
      List.map_cons, Node.label]
  | .attr _ _ name (some value), depth => by
    rw [Node.preorder, nodeLabels_cons_node rfl, nodeLabels_append, name.nodeLabels_preorder,
      value.nodeLabels_preorder, Node.walk, List.map_cons, List.map_append, Node.label]
  | .attrValue _ _ _ children, depth | .comment _ _ children, depth => by
    rw [Node.preorder, nodeLabels_cons_node rfl, nodeLabels_preorder children, Node.walk,
      List.map_cons, Node.label]

/-- **The nodes among the lines are those that are visited**, in the same order. -/
theorem nodeLabels_preorder : ∀ (nodes : List Node) (depth : Nat),
    nodeLabels (preorder depth nodes) = (walk nodes).map Node.label
  | [], depth => by rw [preorder, nodeLabels_nil, walk, List.map_nil]
  | n :: nodes, depth => by
    rw [preorder, nodeLabels_append, n.nodeLabels_preorder, nodeLabels_preorder nodes, walk,
      List.map_append]

theorem nodeLabels_paramsPreorder : ∀ (params : List Param) (depth : Nat),
    nodeLabels (paramsPreorder depth params) = (walkParams params).map Node.label
  | [], depth => by rw [paramsPreorder, nodeLabels_nil, walkParams, List.map_nil]
  | ⟨_, _, _, .expr _⟩ :: params, depth => by
    rw [paramsPreorder, nodeLabels_cons_part rfl, nodeLabels_paramsPreorder params, walkParams,
      Param.walk, Value.walk, List.nil_append]
  | ⟨_, _, _, .content _ nodes⟩ :: params, depth => by
    rw [paramsPreorder, nodeLabels_cons_part rfl, nodeLabels_append, nodeLabels_preorder nodes,
      nodeLabels_paramsPreorder params, walkParams, Param.walk, Value.walk, List.map_append]

theorem nodeLabels_branchesPreorder : ∀ (branches : List Branch) {head : FlowHead} (depth : Nat),
    nodeLabels (branchesPreorder depth head branches) = (walkBranches branches).map Node.label
  | [], head, depth => by rw [branchesPreorder, nodeLabels_nil, walkBranches, List.map_nil]
  | ⟨_, kind, nodes⟩ :: branches, head, depth => by
    rw [branchesPreorder, nodeLabels_cons_part (head.isPart_branchLabel kind), nodeLabels_append,
      nodeLabels_preorder nodes, nodeLabels_branchesPreorder branches, walkBranches, Branch.walk,
      List.map_append]

end

/-! ## 3. The tree of a list of lines -/

mutual

theorem Outline.le_of_mem_lines {line : Nat × Label} : ∀ {depth : Nat} (o : Outline),
    line ∈ o.lines depth → depth ≤ line.1
  | depth, .item label children, h => by
    rw [Outline.lines, List.mem_cons] at h
    rcases h with rfl | h
    · exact Nat.le_refl _
    · exact Nat.le_of_succ_le (le_of_mem_linesOfAll children h)

theorem le_of_mem_linesOfAll {line : Nat × Label} : ∀ {depth : Nat} (os : List Outline),
    line ∈ linesOfAll depth os → depth ≤ line.1
  | depth, [], h => absurd h (by simp [linesOfAll])
  | depth, o :: os, h => by
    rw [linesOfAll, List.mem_append] at h
    exact h.elim o.le_of_mem_lines (le_of_mem_linesOfAll os)

end

/-- The lines below a tree's first are those after it that are deeper. -/
theorem takeWhile_deeper (depth : Nat) (children os : List Outline) :
    (linesOfAll (depth + 1) children ++ linesOfAll depth os).takeWhile (fun line => depth < line.1)
      = linesOfAll (depth + 1) children := by
  have hall : ∀ line ∈ linesOfAll (depth + 1) children, decide (depth < line.1) = true :=
    fun line h => decide_eq_true (le_of_mem_linesOfAll children h)
  have hnone : (linesOfAll depth os).takeWhile (fun line => depth < line.1) = [] := by
    cases os with
    | nil => rw [linesOfAll, List.takeWhile_nil]
    | cons o os =>
      obtain ⟨label, below⟩ := o
      rw [linesOfAll, Outline.lines, List.cons_append, List.takeWhile_cons_of_neg (by simp)]
  rw [List.takeWhile_append_of_pos hall, hnone, List.append_nil]

/-- **A list of lines is that of one list of trees.** -/
theorem eq_of_linesOfAll_eq : ∀ {depth : Nat} (os os' : List Outline),
    linesOfAll depth os = linesOfAll depth os' → os = os'
  | _, [], [], _ => rfl
  | _, [], .item .. :: _, h => by simp [linesOfAll, Outline.lines] at h
  | _, .item .. :: _, [], h => by simp [linesOfAll, Outline.lines] at h
  | depth, .item label children :: os, .item label' children' :: os', h => by
    simp only [linesOfAll, Outline.lines, List.cons_append, List.cons.injEq, Prod.mk.injEq,
      true_and] at h
    obtain ⟨rfl, h⟩ := h
    have hbelow := congrArg (List.takeWhile fun line => depth < line.1) h
    rw [takeWhile_deeper, takeWhile_deeper] at hbelow
    obtain rfl := eq_of_linesOfAll_eq children children' hbelow
    rw [eq_of_linesOfAll_eq os os' (List.append_cancel_left h)]

/-! ## 4. Names of labels -/

namespace Label

/-- Every label. -/
def all : List Label :=
  [rawText, print, call, letValue, letContent, ifThen, switch, forEach, openTag, closeTag, attr,
    attrValue, comment, paramValue, paramContent, ifCond, ifElse, switchCase, switchDefault,
    forNonempty, forIfempty]

/-- The names of parameters and branches. -/
def partNames : List Text := (all.filter isPart).map fun label => label.name.toList

/-- A label is the one that has its name. -/
theorem find?_name (label : Label) :
    all.find? (fun other => other.name.toList == label.name.toList) = some label := by
  cases label <;> decide

/-- **A name is that of one label.** -/
theorem toList_name_injective : Function.Injective fun label : Label => label.name.toList := by
  intro label label' (h : label.name.toList = label'.name.toList)
  have hfind := find?_name label
  rw [h, find?_name label'] at hfind
  exact (Option.some.inj hfind).symm

theorem name_mem_partNames (label : Label) : label.name.toList ∈ partNames ↔ label.isPart := by
  have hall : label ∈ all := by cases label <;> decide
  rw [partNames, List.mem_map_of_injective toList_name_injective, List.mem_filter]
  exact and_iff_right hall

/-- A name has no blanks. -/
theorem not_isBlank_of_mem_name {label : Label} {c : Char} (h : c ∈ label.name.toList) :
    isBlank c = false := by
  have hall : label.name.toList.all (fun c => !isBlank c) = true := by
    cases label <;> decide
  simpa using List.all_eq_true.mp hall c h

theorem name_ne_nil (label : Label) : label.name.toList ≠ [] := by
  cases label <;> decide

/-- The blanks before a name are told from it. -/
theorem cut_blanks_name (n : Nat) (label : Label) :
    (List.replicate n ' ' ++ label.name.toList).takeWhile (· = ' ') = List.replicate n ' '
      ∧ (List.replicate n ' ' ++ label.name.toList).dropWhile (· = ' ')
        = label.name.toList := by
  have hblanks : ∀ c ∈ List.replicate n ' ', decide (c = ' ') = true :=
    fun c h => decide_eq_true (List.eq_of_mem_replicate h)
  obtain ⟨c, cs, hname⟩ := List.exists_cons_of_ne_nil label.name_ne_nil
  have hc : c ≠ ' ' := by
    rintro rfl
    have hmem : ' ' ∈ label.name.toList := hname ▸ List.mem_cons_self
    exact absurd (not_isBlank_of_mem_name hmem) (by decide)
  rw [List.takeWhile_append_of_pos hblanks, List.dropWhile_append_of_pos hblanks, hname]
  simp [hc]

end Label

/-! ## 5. Lines of text -/

namespace Text

theorem pieces_ne_nil (t : Text) : t.pieces ≠ [] := by
  cases t with
  | nil => exact List.cons_ne_nil _ _
  | cons c cs =>
    rw [pieces]
    split
    · exact List.cons_ne_nil _ _
    · split <;> exact List.cons_ne_nil _ _

/-- What stands before the first line break is the first piece. -/
theorem pieces_line {line : Text} (h : '\n' ∉ line) (t : Text) :
    pieces (line ++ '\n' :: t) = line :: pieces t := by
  induction line with
  | nil =>
    rw [List.nil_append, pieces]
    split
    · next hnil => exact absurd hnil (pieces_ne_nil t)
    · next p ps hcons => rw [if_pos rfl, hcons]
  | cons c line ih =>
    rw [List.mem_cons, not_or] at h
    rw [List.cons_append, pieces, ih h.2]
    exact if_neg (Ne.symm h.1)

end Text

/-- A line without its break. -/
def lineText (line : Nat × Label) : Text :=
  List.replicate (2 * line.1) ' ' ++ line.2.name.toList

/-- A line as a depth and a name. -/
def namedLine (line : Nat × Label) : Nat × Text := (line.1, line.2.name.toList)

/-- The depth and the name that are read off the text of a line. -/
def readLine (line : Text) : Nat × Text :=
  ((line.takeWhile (· = ' ')).length / 2, line.dropWhile (· = ' '))

/-- The depths and the names of the lines of a text, each of which ends in a line break. -/
def readLines (t : Text) : List (Nat × Text) := t.pieces.dropLast.map readLine

theorem newline_not_mem_lineText (line : Nat × Label) : '\n' ∉ lineText line := by
  intro h
  rcases List.mem_append.mp h with h | h
  · exact absurd (List.eq_of_mem_replicate h) (by decide)
  · exact absurd (Label.not_isBlank_of_mem_name h) (by decide)

theorem readLine_lineText (line : Nat × Label) :
    readLine (lineText line) = namedLine line := by
  obtain ⟨htake, hdrop⟩ := Label.cut_blanks_name (2 * line.1) line.2
  rw [readLine, lineText, htake, hdrop, List.length_replicate,
    Nat.mul_div_cancel_left _ Nat.two_pos, namedLine]

theorem pieces_flatMap_renderLine (lines : List (Nat × Label)) :
    Text.pieces (lines.flatMap renderLine) = lines.map lineText ++ [[]] := by
  induction lines with
  | nil => rfl
  | cons line lines ih =>
    have hline : renderLine line = lineText line ++ ['\n'] := rfl
    rw [List.flatMap_cons, hline, List.append_assoc, List.singleton_append,
      Text.pieces_line (newline_not_mem_lineText line), ih, List.map_cons, List.cons_append]

/-- The lines of a printed outline. -/
theorem pieces_shape (nodes : List Node) :
    (shape nodes).pieces = (preorder 0 nodes).map lineText ++ [[]] := by
  rw [shape, pieces_flatMap_renderLine, linesOfAll_outlines]

/-- **The lines of a printed outline are read back.** -/
theorem readLines_shape (nodes : List Node) :
    readLines (shape nodes) = (preorder 0 nodes).map namedLine := by
  rw [readLines, pieces_shape, List.dropLast_concat, List.map_map]
  exact List.map_congr_left fun line _ => readLine_lineText line

/-! ## 6. Outlines and printed outlines -/

theorem namedLine_injective : Function.Injective namedLine := fun _ _ h =>
  Prod.ext (Prod.mk.inj h).1 (Label.toList_name_injective (Prod.mk.inj h).2)

/-- Without the names of branches and parameters, those of the nodes are left. -/
theorem filter_map_namedLine (lines : List (Nat × Label)) :
    ((lines.map namedLine).map Prod.snd).filter (fun name => name ∉ Label.partNames)
      = (nodeLabels lines).map fun label => label.name.toList := by
  have hkept : (fun name => decide (name ∉ Label.partNames)) ∘ (fun label => label.name.toList)
      = fun label : Label => !label.isPart := by
    funext label
    simp only [Function.comp_apply, label.name_mem_partNames, decide_not, Bool.decide_eq_true]
  have hnames : (lines.map namedLine).map Prod.snd
      = (lines.map Prod.snd).map fun label => label.name.toList := by
    rw [List.map_map, List.map_map]
    rfl
  rw [hnames, List.filter_map, hkept, nodeLabels]

/-- Nodes with the same printed outline have the same outline. -/
theorem outlines_eq_of_shape_eq {nodes others : List Node} (h : shape nodes = shape others) :
    outlines nodes = outlines others := by
  have hread : (preorder 0 nodes).map namedLine = (preorder 0 others).map namedLine := by
    rw [← readLines_shape, h, readLines_shape]
  have hlines := namedLine_injective.list_map hread
  rw [← linesOfAll_outlines, ← linesOfAll_outlines] at hlines
  exact eq_of_linesOfAll_eq _ _ hlines

/-- **A printed outline shows the tree.**  Its lines, read as depths and names, are the preorder of
the nodes, and that of the tree of labels in which branches and parameters stand between a node and
the nodes in it.  The lines that are no branch and no parameter name the nodes in the order of a
walk.  Two lists of nodes have the same printed outline if and only if they have the same tree. -/
theorem readLines_shape_walk (nodes : List Node) :
    readLines (shape nodes) = (preorder 0 nodes).map namedLine
      ∧ preorder 0 nodes = linesOfAll 0 (outlines nodes)
      ∧ ((readLines (shape nodes)).map Prod.snd).filter (fun name => name ∉ Label.partNames)
        = (walk nodes).map (fun n => n.label.name.toList)
      ∧ ∀ others : List Node, shape nodes = shape others ↔ outlines nodes = outlines others := by
  have hwalk : (nodeLabels (preorder 0 nodes)).map (fun label => label.name.toList)
      = (walk nodes).map fun n => n.label.name.toList := by
    rw [nodeLabels_preorder, List.map_map]
    rfl
  refine ⟨readLines_shape nodes, (linesOfAll_outlines nodes 0).symm, ?_, fun others => ?_⟩
  · rw [readLines_shape, filter_map_namedLine, hwalk]
  · exact ⟨outlines_eq_of_shape_eq, fun h => by rw [shape, shape, h]⟩

end TemplateMarkup
