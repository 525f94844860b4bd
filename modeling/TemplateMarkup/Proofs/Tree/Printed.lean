/-
# Attributes in print

The source text of attributes, with control flow among them, is attributes, each with the gap in
front of it, and commands around the text of their branches (`PrintedText`, `printedText_printed`).
Where the control flow runs, the text of the branches that it takes comes to stand in its place,
that of a loop body once for each turn (`Runs`).

In a tag every gap holds a space.  At the root of a block the first attribute has none, and a loop
body is written once for all its turns: if the first attribute of the block comes from a loop body,
the next turn sets it right behind the attribute before it.  This is the only way in which two
attributes run into one another (`apart_iff_loopsApart`).
-/
import Mathlib.Data.List.Chain
import TemplateMarkup.Html.Rewrite
import TemplateMarkup.Template.Read
import TemplateMarkup.Tree.Source

namespace TemplateMarkup

/-! ## 1. Printed attributes -/

/-- An attribute in print, and what is printed in front of it. -/
structure PrintedAttr where
  gap : Text
  body : Text
deriving DecidableEq

mutual

/-- What is printed for a node: an attribute, or a command with its arms. -/
inductive PrintedText
  | attr (attr : PrintedAttr)
  | flow (head : FlowHead) (arms : List Arm)

/-- What is printed for a branch, behind the command that opens it. -/
structure Arm where
  kind : BranchKind
  text : List PrintedText

end

mutual

/-- Printed text with its commands. -/
def PrintedText.source : PrintedText → Text
  | .attr a => a.gap ++ a.body
  | .flow head arms => head.opening ++ armsText head true arms ++ head.closing

/-- Printed text with its commands. -/
def printedText : List PrintedText → Text
  | [] => []
  | p :: text => p.source ++ printedText text

/-- The text of arms under a given head. -/
def armsText (head : FlowHead) (isFirst : Bool) : List Arm → Text
  | [] => []
  | arm :: arms => arm.source head isFirst ++ armsText head false arms

/-- The text of an arm under a given head. -/
def Arm.source (head : FlowHead) (isFirst : Bool) : Arm → Text
  | ⟨kind, text⟩ => head.branchOpening isFirst kind ++ printedText text

end

mutual

/-- What is printed for an attribute or for control flow; `spaced` as for `Node.source`. -/
def Node.printed (spaced : Bool) : Node → List PrintedText
  | .attr id s name value =>
    [.attr ⟨if spaced then [' '] else [], (Node.attr id s name value).source false⟩]
  | .flow f => [f.printed spaced]
  | _ => []

/-- What is printed for attributes and control flow. -/
def printed (spaced : Bool) : List Node → List PrintedText
  | [] => []
  | n :: nodes => n.printed spaced ++ printed (spaced || n.givesAttribute) nodes

/-- What is printed for control flow. -/
def Flow.printed (spaced : Bool) : Flow → PrintedText
  | ⟨_, _, head, branches⟩ => .flow head (printedArms spaced branches)

/-- What is printed for branches. -/
def printedArms (spaced : Bool) : List Branch → List Arm
  | [] => []
  | b :: branches => b.printed spaced :: printedArms spaced branches

/-- What is printed for a branch. -/
def Branch.printed (spaced : Bool) : Branch → Arm
  | ⟨_, kind, nodes⟩ => ⟨kind, TemplateMarkup.printed spaced nodes⟩

end

mutual

/-- An attribute, or control flow whose branches hold only such nodes. -/
def Node.onlyAttrs : Node → Bool
  | .attr .. => true
  | .flow f => f.onlyAttrs
  | _ => false

/-- Attributes and control flow among them, and nothing else. -/
def onlyAttrs : List Node → Bool
  | [] => true
  | n :: nodes => n.onlyAttrs && onlyAttrs nodes

/-- The branches hold only attributes and control flow among them. -/
def Flow.onlyAttrs : Flow → Bool
  | ⟨_, _, _, branches⟩ => branchesOnlyAttrs branches

/-- The branches hold only attributes and control flow among them. -/
def branchesOnlyAttrs : List Branch → Bool
  | [] => true
  | b :: branches => b.onlyAttrs && branchesOnlyAttrs branches

/-- The branch holds only attributes and control flow among them. -/
def Branch.onlyAttrs : Branch → Bool
  | ⟨_, _, nodes⟩ => TemplateMarkup.onlyAttrs nodes

end

theorem printedText_append : ∀ text text' : List PrintedText,
    printedText (text ++ text') = printedText text ++ printedText text'
  | [], text' => by rw [List.nil_append, printedText, List.nil_append]
  | p :: text, text' => by
    rw [List.cons_append, printedText, printedText, printedText_append text text',
      List.append_assoc]

mutual

theorem Node.printedText_printed (spaced : Bool) : ∀ n : Node, n.onlyAttrs = true →
    printedText (n.printed spaced) = n.source spaced
  | .attr id s name value, _ => by
    rw [Node.printed, printedText, printedText, List.append_nil, PrintedText.source,
      Node.source.eq_def,
      Node.source.eq_def spaced]
    dsimp only
    rw [if_neg Bool.false_ne_true, List.nil_append, List.append_assoc]
  | .flow f, h => by
    rw [Node.onlyAttrs] at h
    rw [Node.printed, printedText, printedText, List.append_nil, Node.source,
      f.source_printed spaced h]
  | .raw .., h | .print .., h | .call .., h | .binding .., h | .openTag .., h | .closeTag .., h
  | .attrValue .., h | .comment .., h => by simp [Node.onlyAttrs] at h

/-- **What is printed is the source text.** -/
theorem printedText_printed (spaced : Bool) : ∀ nodes : List Node, onlyAttrs nodes = true →
    printedText (printed spaced nodes) = sourceAfter spaced nodes
  | [], _ => by rw [printed, printedText, sourceAfter]
  | n :: nodes, h => by
    rw [onlyAttrs, Bool.and_eq_true] at h
    rw [printed, printedText_append, sourceAfter, n.printedText_printed spaced h.1,
      printedText_printed _ nodes h.2]

theorem Flow.source_printed (spaced : Bool) : ∀ f : Flow, f.onlyAttrs = true →
    (f.printed spaced).source = f.source spaced
  | ⟨id, s, head, branches⟩, h => by
    rw [Flow.onlyAttrs] at h
    rw [Flow.printed, PrintedText.source, Flow.source,
      armsText_printedArms spaced head branches true h]

theorem armsText_printedArms (spaced : Bool) (head : FlowHead) : ∀ (branches : List Branch)
    (isFirst : Bool), branchesOnlyAttrs branches = true →
    armsText head isFirst (printedArms spaced branches)
      = branchesSource spaced head isFirst branches
  | [], isFirst, _ => by rw [printedArms, armsText, branchesSource]
  | b :: branches, isFirst, h => by
    rw [branchesOnlyAttrs, Bool.and_eq_true] at h
    rw [printedArms, armsText, branchesSource, b.source_printed spaced head isFirst h.1,
      armsText_printedArms spaced head branches false h.2]

theorem Branch.source_printed (spaced : Bool) (head : FlowHead) (isFirst : Bool) : ∀ b : Branch,
    b.onlyAttrs = true → (b.printed spaced).source head isFirst = b.source spaced head isFirst
  | ⟨id, kind, nodes⟩, h => by
    rw [Branch.onlyAttrs] at h
    rw [Branch.printed, Arm.source, Branch.source, printedText_printed spaced nodes h]

end

/-! ## 2. Runs of control flow -/

/-- The arms that control flow takes, in order: one of them, or none where there is no default; in a
loop the body any number of times, or what stands for an empty list. -/
inductive FlowHead.Takes (head : FlowHead) (arms : List Arm) : List Arm → Prop
  | one {arm : Arm} (hl : head.isLoop = false) (ha : arm ∈ arms) : Takes head arms [arm]
  | fallThrough (hl : head.isLoop = false) (hd : ∀ arm ∈ arms, arm.kind ≠ .default) :
      Takes head arms []
  | turns {taken : List Arm} (hl : head.isLoop = true)
      (ht : ∀ arm ∈ taken, arm ∈ arms ∧ arm.kind ≠ .default) : Takes head arms taken
  | ifEmpty {arm : Arm} (hl : head.isLoop = true) (ha : arm ∈ arms) (hd : arm.kind = .default) :
      Takes head arms [arm]

mutual

/-- Where its control flow runs, printed text comes to be these attributes.  Every turn of a loop is
a run of its own. -/
inductive Runs : List PrintedText → List PrintedAttr → Prop
  | nil : Runs [] []
  | attr {a : PrintedAttr} {text : List PrintedText} {run : List PrintedAttr} (h : Runs text run) :
      Runs (.attr a :: text) (a :: run)
  | flow {head : FlowHead} {arms taken : List Arm} {text : List PrintedText}
      {inner run : List PrintedAttr} (ht : head.Takes arms taken) (hi : RunsEach taken inner)
      (h : Runs text run) : Runs (.flow head arms :: text) (inner ++ run)

/-- Arms run one after the other. -/
inductive RunsEach : List Arm → List PrintedAttr → Prop
  | nil : RunsEach [] []
  | cons {arm : Arm} {arms : List Arm} {run runs : List PrintedAttr} (h : Runs arm.text run)
      (hs : RunsEach arms runs) : RunsEach (arm :: arms) (run ++ runs)

end

/-- The text that attributes come to be. -/
def runText (run : List PrintedAttr) : Text := run.flatMap fun a => a.gap ++ a.body

/-- **Two attributes in a row have a space between them.** -/
def Apart (run : List PrintedAttr) : Prop := run.IsChain fun _ a => ' ' ∈ a.gap

namespace Runs

theorem append {text text' : List PrintedText} {run run' : List PrintedAttr} (h : Runs text run)
    (h' : Runs text' run') : Runs (text ++ text') (run ++ run') := by
  induction text generalizing run with
  | nil =>
    cases h
    exact h'
  | cons p text ih =>
    cases h with
    | attr h => exact .attr (ih h)
    | flow ht hi h =>
      rw [List.append_assoc]
      exact .flow ht hi (ih h)

/-- A run of two texts is a run of the first and a run of the second. -/
theorem of_append {text text' : List PrintedText} {run : List PrintedAttr}
    (h : Runs (text ++ text') run) :
    ∃ first later, run = first ++ later ∧ Runs text first ∧ Runs text' later := by
  induction text generalizing run with
  | nil => exact ⟨[], run, rfl, .nil, h⟩
  | cons p text ih =>
    rw [List.cons_append] at h
    cases h with
    | attr h =>
      obtain ⟨first, later, rfl, hfirst, hlater⟩ := ih h
      exact ⟨_ :: first, later, rfl, .attr hfirst, hlater⟩
    | flow ht hi h =>
      obtain ⟨first, later, rfl, hfirst, hlater⟩ := ih h
      exact ⟨_ ++ first, later, (List.append_assoc ..).symm, .flow ht hi hfirst, hlater⟩

theorem of_flow {head : FlowHead} {arms : List Arm} {run : List PrintedAttr}
    (h : Runs [.flow head arms] run) : ∃ taken, head.Takes arms taken ∧ RunsEach taken run := by
  cases h with
  | flow ht hi h =>
    cases h
    rw [List.append_nil]
    exact ⟨_, ht, hi⟩

theorem flow_single {head : FlowHead} {arms taken : List Arm} {run : List PrintedAttr}
    (ht : head.Takes arms taken) (hi : RunsEach taken run) : Runs [.flow head arms] run := by
  have h := Runs.flow ht hi .nil
  rwa [List.append_nil] at h

end Runs

theorem RunsEach.of_single {arm : Arm} {run : List PrintedAttr} (h : RunsEach [arm] run) :
    Runs arm.text run := by
  cases h with
  | cons h hs =>
    cases hs
    rwa [List.append_nil]

theorem RunsEach.single {arm : Arm} {run : List PrintedAttr} (h : Runs arm.text run) :
    RunsEach [arm] run := by
  have hs := RunsEach.cons h .nil
  rwa [List.append_nil] at hs

/-- What holds of all attributes that the arms come to be holds of all that a run of them does. -/
theorem RunsEach.forall {P : PrintedAttr → Prop} {taken : List Arm} {run : List PrintedAttr}
    (h : RunsEach taken run)
    (harms : ∀ arm ∈ taken, ∀ inner, Runs arm.text inner → ∀ a ∈ inner, P a) : ∀ a ∈ run, P a := by
  induction taken generalizing run with
  | nil =>
    cases h
    exact nofun
  | cons arm taken ih =>
    obtain ⟨harm, htaken⟩ := List.forall_mem_cons.mp harms
    cases h with
    | cons h hs => exact List.forall_mem_append.mpr ⟨harm _ h, ih hs htaken⟩

theorem FlowHead.Takes.subset {head : FlowHead} {arms taken : List Arm}
    (h : head.Takes arms taken) : taken ⊆ arms := by
  cases h with
  | one _ ha | ifEmpty _ ha => exact List.cons_subset.mpr ⟨ha, List.nil_subset _⟩
  | fallThrough => exact List.nil_subset _
  | turns _ ht => exact fun arm harm => (ht arm harm).1

mutual

/-- Control flow can always run. -/
theorem exists_runs : ∀ text : List PrintedText, ∃ run, Runs text run
  | [] => ⟨[], .nil⟩
  | .attr a :: text => by
    obtain ⟨run, h⟩ := exists_runs text
    exact ⟨a :: run, .attr h⟩
  | .flow head arms :: text => by
    obtain ⟨run, h⟩ := exists_runs text
    obtain ⟨taken, inner, ht, hi⟩ := exists_takes head arms
    exact ⟨inner ++ run, .flow ht hi h⟩

theorem exists_takes (head : FlowHead) : ∀ arms : List Arm,
    ∃ taken inner, head.Takes arms taken ∧ RunsEach taken inner
  | [] => by
    cases hl : head.isLoop with
    | true => exact ⟨[], [], .turns hl nofun, .nil⟩
    | false => exact ⟨[], [], .fallThrough hl nofun, .nil⟩
  | ⟨kind, text⟩ :: arms => by
    cases hl : head.isLoop with
    | true => exact ⟨[], [], .turns hl nofun, .nil⟩
    | false =>
      obtain ⟨run, h⟩ := exists_runs text
      exact ⟨[⟨kind, text⟩], run, .one hl List.mem_cons_self, .single h⟩

end

theorem Apart.of_append {run run' : List PrintedAttr} (h : Apart (run ++ run')) :
    Apart run ∧ Apart run' := ⟨h.left_of_append, h.right_of_append⟩

theorem apart_of_spaced {run : List PrintedAttr} (h : ∀ a ∈ run, ' ' ∈ a.gap) : Apart run := by
  induction run with
  | nil => exact .nil
  | cons a run ih =>
    obtain ⟨_, hrun⟩ := List.forall_mem_cons.mp h
    refine List.isChain_cons.mpr ⟨fun b hb => hrun b (List.mem_of_mem_head? hb), ih hrun⟩

/-- Attributes that all have a space in front may follow. -/
theorem Apart.append {run run' : List PrintedAttr} (h : Apart run)
    (h' : ∀ a ∈ run', ' ' ∈ a.gap) : Apart (run ++ run') :=
  List.IsChain.append h (apart_of_spaced h') fun _ _ b hb => h' b (List.mem_of_mem_head? hb)

/-! ## 3. Loops -/

/-- In some turn of a loop an attribute is given. -/
def bodiesGiveAttribute (branches : List Branch) : Bool :=
  branches.any fun b => b.kind != .default && b.givesAttribute

mutual

/-- No loop in the node gives an attribute that is printed without a space. -/
def Node.loopsApart (spaced : Bool) : Node → Bool
  | .flow f => f.loopsApart spaced
  | _ => true

/-- **No loop gives an attribute that is printed without a space**: where a loop body gives
attributes, something in front of the loop gives one as well, or all of it stands in a tag. -/
def loopsApart (spaced : Bool) : List Node → Bool
  | [] => true
  | n :: nodes => n.loopsApart spaced && loopsApart (spaced || n.givesAttribute) nodes

/-- No loop in the control flow gives an attribute that is printed without a space. -/
def Flow.loopsApart (spaced : Bool) : Flow → Bool
  | ⟨_, _, head, branches⟩ =>
    (spaced || !(head.isLoop && bodiesGiveAttribute branches))
      && branchesLoopsApart spaced branches

/-- No loop in the branches gives an attribute that is printed without a space. -/
def branchesLoopsApart (spaced : Bool) : List Branch → Bool
  | [] => true
  | b :: branches => b.loopsApart spaced && branchesLoopsApart spaced branches

/-- No loop in the branch gives an attribute that is printed without a space. -/
def Branch.loopsApart (spaced : Bool) : Branch → Bool
  | ⟨_, _, nodes⟩ => TemplateMarkup.loopsApart spaced nodes

end

/-- An arm is printed for a branch of its kind. -/
theorem exists_branch_of_arm {spaced : Bool} {branches : List Branch} {arm : Arm}
    (h : arm ∈ printedArms spaced branches) :
    ∃ b ∈ branches, arm.kind = b.kind ∧ arm.text = printed spaced b.nodes := by
  induction branches with
  | nil => simp [printedArms] at h
  | cons b branches ih =>
    obtain ⟨id, kind, nodes⟩ := b
    rw [printedArms, Branch.printed] at h
    rcases List.mem_cons.mp h with rfl | h
    · exact ⟨_, List.mem_cons_self, rfl, rfl⟩
    · obtain ⟨b, hb, hk⟩ := ih h
      exact ⟨b, List.mem_cons_of_mem _ hb, hk⟩

theorem arm_of_branch {spaced : Bool} {branches : List Branch} {b : Branch} (h : b ∈ branches) :
    (⟨b.kind, printed spaced b.nodes⟩ : Arm) ∈ printedArms spaced branches := by
  induction branches with
  | nil => cases h
  | cons b' branches ih =>
    obtain ⟨id, kind, nodes⟩ := b'
    rw [printedArms, Branch.printed]
    rcases List.mem_cons.mp h with rfl | h
    · exact List.mem_cons_self
    · exact List.mem_cons_of_mem _ (ih h)

theorem someBranchGivesAttribute_iff {branches : List Branch} :
    someBranchGivesAttribute branches = true ↔
      ∃ b ∈ branches, someGivesAttribute b.nodes = true := by
  induction branches with
  | nil => simp [someBranchGivesAttribute]
  | cons b branches ih =>
    obtain ⟨id, kind, nodes⟩ := b
    rw [someBranchGivesAttribute, Bool.or_eq_true, ih, List.exists_mem_cons_iff,
      Branch.givesAttribute]

theorem bodiesGiveAttribute_iff {branches : List Branch} :
    bodiesGiveAttribute branches = true ↔
      ∃ b ∈ branches, b.kind ≠ .default ∧ someGivesAttribute b.nodes = true := by
  rw [bodiesGiveAttribute, List.any_eq_true]
  refine exists_congr fun b => and_congr_right fun _ => ?_
  obtain ⟨id, kind, nodes⟩ := b
  rw [Bool.and_eq_true, bne_iff_ne, Branch.givesAttribute]

/-- Any arm may be the only one that is taken. -/
theorem FlowHead.takes_single (head : FlowHead) {arms : List Arm} {arm : Arm} (h : arm ∈ arms) :
    head.Takes arms [arm] := by
  cases hl : head.isLoop with
  | false => exact .one hl h
  | true =>
    by_cases hd : arm.kind = .default
    · exact .ifEmpty hl h hd
    · exact .turns hl fun _ ha => by
        obtain rfl := List.mem_singleton.mp ha
        exact ⟨h, hd⟩

/-- One branch is taken. -/
theorem runs_branch {spaced : Bool} {id : NodeId} {s : Span} {head : FlowHead}
    {branches : List Branch} {b : Branch} (hb : b ∈ branches) {run : List PrintedAttr}
    (h : Runs (printed spaced b.nodes) run) :
    Runs ((Node.flow ⟨id, s, head, branches⟩).printed spaced) run := by
  rw [Node.printed, Flow.printed]
  exact .flow_single (head.takes_single (arm_of_branch hb)) (.single h)

/-! ## 4. Where gaps are -/

mutual

/-- The attributes of a run are given by the node, and where it is spaced they all are. -/
theorem Node.gaps_of_runs (spaced : Bool) : ∀ (n : Node) {run : List PrintedAttr},
    Runs (n.printed spaced) run →
    ∀ a ∈ run, n.givesAttribute = true ∧ (spaced = true → ' ' ∈ a.gap)
  | .attr id s name value, run, h => by
    rw [Node.printed] at h
    cases h with
    | attr h =>
      cases h
      rw [List.forall_mem_singleton, Node.givesAttribute]
      refine ⟨rfl, fun hs => ?_⟩
      rw [hs, if_pos rfl]
      exact List.mem_singleton_self _
  | .flow ⟨id, s, head, branches⟩, run, h => by
    rw [Node.printed, Flow.printed] at h
    rw [Node.givesAttribute, Flow.givesAttribute, someBranchGivesAttribute_iff]
    obtain ⟨taken, ht, hi⟩ := h.of_flow
    refine hi.forall fun arm harm inner hinner a ha => ?_
    obtain ⟨b, hb, _, htext⟩ := exists_branch_of_arm (ht.subset harm)
    rw [htext] at hinner
    obtain ⟨hgives, hgap⟩ := branches_gaps_of_runs spaced branches b hb hinner a ha
    exact ⟨⟨b, hb, hgives⟩, hgap⟩
  | .raw .., run, h | .print .., run, h | .call .., run, h | .binding .., run, h
  | .openTag .., run, h | .closeTag .., run, h | .attrValue .., run, h | .comment .., run, h => by
    simp only [Node.printed] at h
    cases h
    exact nofun

theorem gaps_of_runs (spaced : Bool) : ∀ (nodes : List Node) {run : List PrintedAttr},
    Runs (printed spaced nodes) run →
    ∀ a ∈ run, someGivesAttribute nodes = true ∧ (spaced = true → ' ' ∈ a.gap)
  | [], run, h => by
    rw [printed] at h
    cases h
    exact nofun
  | n :: nodes, run, h => by
    rw [printed] at h
    obtain ⟨first, later, rfl, hfirst, hlater⟩ := h.of_append
    rw [someGivesAttribute]
    refine List.forall_mem_append.mpr ⟨fun a ha => ?_, fun a ha => ?_⟩
    · obtain ⟨hgives, hgap⟩ := n.gaps_of_runs spaced hfirst a ha
      exact ⟨by rw [hgives, Bool.true_or], hgap⟩
    · obtain ⟨hgives, hgap⟩ := gaps_of_runs _ nodes hlater a ha
      exact ⟨by rw [hgives, Bool.or_true], fun hs => hgap (by rw [hs, Bool.true_or])⟩

theorem branches_gaps_of_runs (spaced : Bool) : ∀ (branches : List Branch),
    ∀ b ∈ branches, ∀ {run : List PrintedAttr}, Runs (printed spaced b.nodes) run →
    ∀ a ∈ run, someGivesAttribute b.nodes = true ∧ (spaced = true → ' ' ∈ a.gap)
  | [] => nofun
  | ⟨_, _, nodes⟩ :: branches =>
    List.forall_mem_cons.mpr ⟨fun h => gaps_of_runs spaced nodes h,
      branches_gaps_of_runs spaced branches⟩

end

/-- What gives no attribute runs to none. -/
theorem run_eq_nil {P : Prop} {run : List PrintedAttr} (h : ∀ a ∈ run, P) (hP : ¬ P) : run = [] :=
  List.eq_nil_iff_forall_not_mem.mpr fun a ha => hP (h a ha)

/-! ## 5. Attributes that stay apart -/

mutual

theorem Node.apart_of_loopsApart (spaced : Bool) : ∀ (n : Node) {run : List PrintedAttr},
    n.loopsApart spaced = true → Runs (n.printed spaced) run → Apart run
  | .attr id s name value, run, _, h => by
    rw [Node.printed] at h
    cases h with
    | attr h =>
      cases h
      exact .singleton _
  | .flow ⟨id, s, head, branches⟩, run, hl, h => by
    have hgaps := Node.gaps_of_runs spaced (.flow ⟨id, s, head, branches⟩) h
    rw [Node.printed, Flow.printed] at h
    rw [Node.loopsApart, Flow.loopsApart, Bool.and_eq_true] at hl
    obtain ⟨taken, ht, hi⟩ := h.of_flow
    -- one arm by itself is a branch; only a loop takes more of them
    have single {arm : Arm} (ha : arm ∈ printedArms spaced branches) (hi : RunsEach [arm] run) :
        Apart run := by
      obtain ⟨b, hb, _, htext⟩ := exists_branch_of_arm ha
      have hrun := hi.of_single
      rw [htext] at hrun
      exact branches_apart_of_loopsApart spaced branches hl.2 b hb hrun
    cases ht with
    | one _ ha => exact single ha hi
    | ifEmpty _ ha => exact single ha hi
    | fallThrough =>
      cases hi
      exact .nil
    | turns hloop ht =>
      cases spaced with
      | true => exact apart_of_spaced fun a ha => (hgaps a ha).2 rfl
      | false =>
        obtain hnone : bodiesGiveAttribute branches = false := by simpa [hloop] using hl.1
        have hempty : run = [] := by
          refine run_eq_nil (P := bodiesGiveAttribute branches = true) ?_ (by simp [hnone])
          refine hi.forall fun arm harm inner hinner a ha => ?_
          obtain ⟨hmem, hd⟩ := ht arm harm
          obtain ⟨b, hb, hkind, htext⟩ := exists_branch_of_arm hmem
          rw [htext] at hinner
          exact bodiesGiveAttribute_iff.mpr
            ⟨b, hb, hkind ▸ hd, (gaps_of_runs false b.nodes hinner a ha).1⟩
        rw [hempty]
        exact .nil
  | .raw .., run, _, h | .print .., run, _, h | .call .., run, _, h | .binding .., run, _, h
  | .openTag .., run, _, h | .closeTag .., run, _, h | .attrValue .., run, _, h
  | .comment .., run, _, h => by
    simp only [Node.printed] at h
    cases h
    exact .nil

/-- **Where no loop gives an attribute without a space, all attributes stay apart.** -/
theorem apart_of_loopsApart (spaced : Bool) : ∀ (nodes : List Node) {run : List PrintedAttr},
    loopsApart spaced nodes = true → Runs (printed spaced nodes) run → Apart run
  | [], run, _, h => by
    rw [printed] at h
    cases h
    exact .nil
  | n :: nodes, run, hl, h => by
    rw [printed] at h
    rw [loopsApart, Bool.and_eq_true] at hl
    obtain ⟨first, later, rfl, hfirst, hlater⟩ := h.of_append
    cases hs : spaced || n.givesAttribute with
    | true =>
      refine (n.apart_of_loopsApart spaced hl.1 hfirst).append fun a ha => ?_
      exact (gaps_of_runs _ nodes hlater a ha).2 hs
    | false =>
      obtain ⟨_, hn⟩ := Bool.or_eq_false_iff.mp hs
      rw [run_eq_nil (fun a ha => (n.gaps_of_runs spaced hfirst a ha).1) (by simp [hn]),
        List.nil_append]
      exact apart_of_loopsApart _ nodes hl.2 hlater

theorem branches_apart_of_loopsApart (spaced : Bool) : ∀ (branches : List Branch),
    branchesLoopsApart spaced branches = true →
    ∀ b ∈ branches, ∀ {run : List PrintedAttr}, Runs (printed spaced b.nodes) run → Apart run
  | [], _ => nofun
  | ⟨_, _, nodes⟩ :: branches, hl => by
    rw [branchesLoopsApart, Bool.and_eq_true, Branch.loopsApart] at hl
    exact List.forall_mem_cons.mpr ⟨fun h => apart_of_loopsApart spaced nodes hl.1 h,
      branches_apart_of_loopsApart spaced branches hl.2⟩

end

/-! ## 6. Attributes that run into one another -/

mutual

theorem Node.exists_run_of_gives : ∀ n : Node, n.givesAttribute = true →
    ∃ a run, Runs (n.printed false) (a :: run) ∧ a.gap = []
  | .attr id s name value, _ => by
    rw [Node.printed, if_neg Bool.false_ne_true]
    exact ⟨_, [], .attr .nil, rfl⟩
  | .flow ⟨id, s, head, branches⟩, h => by
    rw [Node.givesAttribute, Flow.givesAttribute, someBranchGivesAttribute_iff] at h
    obtain ⟨b, hb, hgives⟩ := h
    obtain ⟨a, run, hrun, hgap⟩ := branches_exists_run_of_gives branches b hb hgives
    exact ⟨a, run, runs_branch hb hrun, hgap⟩
  | .raw .., h | .print .., h | .call .., h | .binding .., h | .openTag .., h | .closeTag .., h
  | .attrValue .., h | .comment .., h => by simp [Node.givesAttribute] at h

/-- The first attribute of a block may have no gap. -/
theorem exists_run_of_gives : ∀ nodes : List Node, someGivesAttribute nodes = true →
    ∃ a run, Runs (printed false nodes) (a :: run) ∧ a.gap = []
  | [], h => by simp [someGivesAttribute] at h
  | n :: nodes, h => by
    rw [printed]
    cases hn : n.givesAttribute with
    | true =>
      obtain ⟨a, run, hrun, hgap⟩ := n.exists_run_of_gives hn
      obtain ⟨later, hlater⟩ := exists_runs (printed (false || true) nodes)
      exact ⟨a, run ++ later, hrun.append hlater, hgap⟩
    | false =>
      rw [someGivesAttribute, hn, Bool.false_or] at h
      obtain ⟨a, run, hrun, hgap⟩ := exists_run_of_gives nodes h
      obtain ⟨first, hfirst⟩ := exists_runs (n.printed false)
      have hempty := run_eq_nil (fun a ha => (n.gaps_of_runs false hfirst a ha).1) (by simp [hn])
      rw [hempty] at hfirst
      exact ⟨a, run, hfirst.append hrun, hgap⟩

theorem branches_exists_run_of_gives : ∀ branches : List Branch,
    ∀ b ∈ branches, someGivesAttribute b.nodes = true →
    ∃ a run, Runs (printed false b.nodes) (a :: run) ∧ a.gap = []
  | [] => nofun
  | ⟨_, _, nodes⟩ :: branches =>
    List.forall_mem_cons.mpr ⟨exists_run_of_gives nodes, branches_exists_run_of_gives branches⟩

end

/-- **The second turn of a loop begins right behind the first.** -/
theorem exists_run_of_turns {id : NodeId} {s : Span} {head : FlowHead} {branches : List Branch}
    {b : Branch} (hl : head.isLoop = true) (hb : b ∈ branches) (hd : b.kind ≠ .default)
    (hgives : someGivesAttribute b.nodes = true) :
    ∃ run, Runs ((Node.flow ⟨id, s, head, branches⟩).printed false) run ∧ ¬ Apart run := by
  obtain ⟨a, turn, hturn, hgap⟩ := exists_run_of_gives b.nodes hgives
  have htakes : head.Takes (printedArms false branches)
      [⟨b.kind, printed false b.nodes⟩, ⟨b.kind, printed false b.nodes⟩] := by
    refine .turns hl fun arm harm => ?_
    obtain rfl : arm = ⟨b.kind, printed false b.nodes⟩ := by simpa using harm
    exact ⟨arm_of_branch hb, hd⟩
  refine ⟨(a :: turn) ++ (a :: turn), ?_, fun h => ?_⟩
  · rw [Node.printed, Flow.printed]
    exact .flow_single htakes (.cons hturn (.single hturn))
  · obtain ⟨_, _, hseam⟩ := List.isChain_append.mp h
    have hspace := hseam _ (List.getLast_mem_getLast? (List.cons_ne_nil a turn)) a rfl
    rw [hgap] at hspace
    cases hspace

mutual

theorem Node.exists_run_of_not_loopsApart (spaced : Bool) : ∀ n : Node,
    n.loopsApart spaced = false → ∃ run, Runs (n.printed spaced) run ∧ ¬ Apart run
  | .flow ⟨id, s, head, branches⟩, h => by
    rw [Node.loopsApart, Flow.loopsApart] at h
    rcases Bool.and_eq_false_iff.mp h with hloop | hbranches
    · obtain ⟨rfl, hl, hgives⟩ : spaced = false ∧ head.isLoop = true
          ∧ bodiesGiveAttribute branches = true := by simpa using hloop
      obtain ⟨b, hb, hd, hgives⟩ := bodiesGiveAttribute_iff.mp hgives
      exact exists_run_of_turns hl hb hd hgives
    · obtain ⟨b, hb, run, hrun, hapart⟩ :=
        branches_exists_run_of_not_loopsApart spaced branches hbranches
      exact ⟨run, runs_branch hb hrun, hapart⟩
  | .raw .., h | .print .., h | .call .., h | .binding .., h | .openTag .., h | .closeTag .., h
  | .attr .., h | .attrValue .., h | .comment .., h => by simp [Node.loopsApart] at h

/-- **Where a loop gives an attribute without a space, two attributes can run into one another.** -/
theorem exists_run_of_not_loopsApart (spaced : Bool) : ∀ nodes : List Node,
    loopsApart spaced nodes = false → ∃ run, Runs (printed spaced nodes) run ∧ ¬ Apart run
  | [], h => by simp [loopsApart] at h
  | n :: nodes, h => by
    rw [loopsApart] at h
    rw [printed]
    rcases Bool.and_eq_false_iff.mp h with hn | hnodes
    · obtain ⟨run, hrun, hapart⟩ := n.exists_run_of_not_loopsApart spaced hn
      obtain ⟨later, hlater⟩ := exists_runs (printed (spaced || n.givesAttribute) nodes)
      exact ⟨run ++ later, hrun.append hlater, fun h => hapart h.of_append.1⟩
    · obtain ⟨run, hrun, hapart⟩ := exists_run_of_not_loopsApart _ nodes hnodes
      obtain ⟨first, hfirst⟩ := exists_runs (n.printed spaced)
      exact ⟨first ++ run, hfirst.append hrun, fun h => hapart h.of_append.2⟩

theorem branches_exists_run_of_not_loopsApart (spaced : Bool) : ∀ branches : List Branch,
    branchesLoopsApart spaced branches = false →
    ∃ b ∈ branches, ∃ run, Runs (printed spaced b.nodes) run ∧ ¬ Apart run
  | [], h => by simp [branchesLoopsApart] at h
  | ⟨id, kind, nodes⟩ :: branches, h => by
    rw [branchesLoopsApart, Branch.loopsApart] at h
    rw [List.exists_mem_cons_iff]
    rcases Bool.and_eq_false_iff.mp h with hnodes | hbranches
    · exact .inl (exists_run_of_not_loopsApart spaced nodes hnodes)
    · exact .inr (branches_exists_run_of_not_loopsApart spaced branches hbranches)

end

/-! ## 7. Attributes of tags and of blocks -/

mutual

theorem Node.loopsApart_true : ∀ n : Node, n.loopsApart true = true
  | .flow ⟨id, s, head, branches⟩ => by
    rw [Node.loopsApart, Flow.loopsApart, Bool.true_or, Bool.true_and]
    exact branchesLoopsApart_true branches
  | .raw .. | .print .. | .call .. | .binding .. | .openTag .. | .closeTag .. | .attr ..
  | .attrValue .. | .comment .. => by simp only [Node.loopsApart]

/-- In a tag no attribute is printed without a space. -/
theorem loopsApart_true : ∀ nodes : List Node, loopsApart true nodes = true
  | [] => by rw [loopsApart]
  | n :: nodes => by
    rw [loopsApart, n.loopsApart_true, Bool.true_or, loopsApart_true nodes, Bool.and_self]

theorem branchesLoopsApart_true : ∀ branches : List Branch, branchesLoopsApart true branches = true
  | [] => by rw [branchesLoopsApart]
  | ⟨_, _, nodes⟩ :: branches => by
    rw [branchesLoopsApart, Branch.loopsApart, loopsApart_true nodes,
      branchesLoopsApart_true branches, Bool.and_self]

end

/-- **Attributes stay apart in print**, whatever branches are taken and however often loops turn: in
a tag always, and at the root of a block if and only if no loop gives an attribute that is printed
without a space. -/
theorem apart_iff_loopsApart {nodes : List Node} (h : onlyAttrs nodes = true) :
    (∀ (id : NodeId) (s : Span) (name : Node) (selfClosing : Bool),
      (Node.openTag id s name nodes selfClosing).source false
        = '<' :: name.source false ++ printedText (printed true nodes)
          ++ (if selfClosing then "/>" else ">").toList)
      ∧ (∀ run, Runs (printed true nodes) run → Apart run)
      ∧ source nodes = printedText (printed false nodes)
      ∧ ((∀ run, Runs (printed false nodes) run → Apart run) ↔ loopsApart false nodes = true) := by
  refine ⟨fun id s name selfClosing => ?_, fun run => ?_, ?_, fun hapart => ?_, fun hl run => ?_⟩
  · rw [printedText_printed true nodes h, Node.source]
  · exact apart_of_loopsApart true nodes (loopsApart_true nodes)
  · rw [printedText_printed false nodes h, source]
  · by_contra hl
    obtain ⟨run, hrun, hnot⟩ :=
      exists_run_of_not_loopsApart false nodes (Bool.eq_false_iff.mpr hl)
    exact hnot (hapart run hrun)
  · exact apart_of_loopsApart false nodes hl

/-- An attribute without a value. -/
def flag (name : Char) : Node := .attr default default (.raw default default [name]) none

/-- The attributes of `{if $c}a{/if}{for $x in $l} b{ifempty} c{/for}`. -/
def flagsBeforeLoop : List Node :=
  [.flow ⟨default, default, .ifThen, [⟨default, .cond "$c".toList, [flag 'a']⟩]⟩,
    .flow ⟨default, default, .forEach ['x'] "$l".toList,
      [⟨default, .loopBody, [flag 'b']⟩, ⟨default, .default, [flag 'c']⟩]⟩]

/-- A loop behind an attribute keeps its own attributes apart, also where that one is not given. -/
theorem apart_flagsBeforeLoop :
    onlyAttrs flagsBeforeLoop = true
      ∧ source flagsBeforeLoop
        = "\x7bif $c\x7da\x7b/if\x7d\x7bfor $x in $l\x7d b\x7bifempty\x7d c\x7b/for\x7d".toList
      ∧ ∀ run, Runs (printed false flagsBeforeLoop) run → Apart run := by
  have h : onlyAttrs flagsBeforeLoop = true := by decide
  exact ⟨h, by decide, (apart_iff_loopsApart h).2.2.2.mpr (by decide)⟩

/-- The attributes of `{for $x in $l} a{/for}`. -/
def flagOfLoop : List Node :=
  [.flow ⟨default, default, .forEach ['x'] "$l".toList, [⟨default, .loopBody, [flag 'a']⟩]⟩]

/-- A block of attributes that is `{for $x in $l} a{/for}` is printed without the space, and two
turns of the loop make one attribute of two. -/
theorem not_apart_flagOfLoop :
    onlyAttrs flagOfLoop = true
      ∧ source flagOfLoop = "\x7bfor $x in $l\x7da\x7b/for\x7d".toList
      ∧ ((Template.read "\x7bfor $x in $l\x7d a\x7b/for\x7d".toList .attributes
          (.startingAt 1)).toOption.map fun r => source (r.1.rewrite {} r.2).result.nodes)
        = some (source flagOfLoop)
      ∧ ∃ run, Runs (printed false flagOfLoop) run ∧ runText run = ['a', 'a'] ∧ ¬ Apart run := by
  have hturn : Runs (printed false [flag 'a']) [⟨[], ['a']⟩] := .attr .nil
  have htakes : (FlowHead.forEach ['x'] "$l".toList).Takes
      [⟨.loopBody, printed false [flag 'a']⟩]
      [⟨.loopBody, printed false [flag 'a']⟩, ⟨.loopBody, printed false [flag 'a']⟩] :=
    .turns rfl (by simp)
  refine ⟨by decide, by decide, by decide +kernel, [⟨[], ['a']⟩, ⟨[], ['a']⟩], ?_, rfl, ?_⟩
  · have hturns : RunsEach
        [⟨.loopBody, printed false [flag 'a']⟩, ⟨.loopBody, printed false [flag 'a']⟩]
        ([⟨[], ['a']⟩] ++ [⟨[], ['a']⟩]) := .cons hturn (.single hturn)
    exact .flow_single htakes hturns
  · intro h
    simp [Apart] at h

end TemplateMarkup
