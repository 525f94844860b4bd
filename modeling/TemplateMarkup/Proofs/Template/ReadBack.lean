/-
# Reading source text back

The source text of a body is read as that body again, but for names and places, if the body reads
back (`readsBack`): its commands are those that their text is read as, no text holds a `\x7b` or
stands beside other text, and the branches of control flow come in the order in which they are read.

What reads back is legible (`legible_of_readsBack`) and has no text to join (`joined_of_readsBack`),
so its source text is read as the tree itself.
-/
import TemplateMarkup.Proofs.Template.Legible

namespace TemplateMarkup

/-! ## 1. What reads back -/

/-- Between braces the text is read as the command. -/
def readsAs (inner : Text) (command : Command) : Bool :=
  splitCommand? none (inner ++ ['}']) == some (inner, [])
    && (Command.read (Text.trim inner)).toOption == some command

/-- The command that opens control flow is read as what it is. -/
def FlowHead.readsBack : FlowHead → Bool
  | ifThen => true
  | switch expr => readsAs ("switch ".toList ++ expr) (.switch expr)
  | forEach var expr => readsAs ("for $".toList ++ var ++ " in ".toList ++ expr) (.forEach var expr)

/-- So is the command before a branch, and the branch may stand there. -/
def BranchKind.readsBack (isFirst : Bool) : FlowHead → BranchKind → Bool
  | .ifThen, .cond expr =>
    readsAs ((if isFirst then "if " else "elseif ").toList ++ expr)
      (if isFirst then .ifThen expr else .elseIf expr)
  | .ifThen, .default => !isFirst
  | .switch _, .cond expr => readsAs ("case ".toList ++ expr) (.caseOf expr)
  | .switch _, .default => true
  | .forEach _ _, .loopBody => isFirst
  | .forEach _ _, .default => !isFirst
  | _, _ => false

/-- Only a `{switch}` may have no branches. -/
def FlowHead.mayBeEmpty : FlowHead → Bool
  | switch _ => true
  | _ => false

mutual

/-- The node is read from its source text. -/
def Node.readsBack : Node → Bool
  | .raw _ _ t => !t.isEmpty && t.all (· != '{')
  | .print _ _ expr => readsAs expr (.print expr)
  | .call _ _ callee params =>
    params.isEmpty && readsAs ("call ".toList ++ callee ++ " /".toList) (.call callee true)
  | .flow f => f.readsBack
  | _ => false

/-- The nodes are read from their source text. -/
def readsBack : List Node → Bool
  | [] => true
  | n :: nodes =>
    n.readsBack && (n.rawText?.isNone || nodes.head?.all fun m => m.rawText?.isNone)
      && readsBack nodes

/-- The control flow is read from its source text. -/
def Flow.readsBack : Flow → Bool
  | ⟨_, _, head, branches⟩ =>
    head.readsBack && (head.mayBeEmpty || !branches.isEmpty) && branchesReadBack head true branches

/-- The branches are read from their source text. -/
def branchesReadBack (head : FlowHead) (isFirst : Bool) : List Branch → Bool
  | [] => true
  | ⟨_, kind, nodes⟩ :: branches =>
    kind.readsBack isFirst head && (kind != .default || branches.isEmpty) && readsBack nodes
      && branchesReadBack head false branches

end

/-! ## 2. It is legible -/

theorem spells_of_readsAs {inner : Text} {command : Command} (h : readsAs inner command = true) :
    Spells inner command := by
  obtain ⟨hsplit, hread⟩ := Bool.and_eq_true_iff.mp h
  exact ⟨unbraced_iff.mpr (beq_iff_eq.mp hsplit), Command.toOption_read.mp (beq_iff_eq.mp hread)⟩

theorem FlowHead.legible_of_readsBack {head : FlowHead} (h : head.readsBack = true) :
    head.Legible := by
  cases head with
  | ifThen => trivial
  | switch e | forEach v e => exact spells_of_readsAs h

theorem BranchKind.legible_of_readsBack {isFirst : Bool} {head : FlowHead} {kind : BranchKind}
    (h : kind.readsBack isFirst head = true) : kind.Legible isFirst head := by
  cases head <;> cases kind <;> simp only [BranchKind.readsBack, Bool.not_eq_true'] at h
  case ifThen.cond | switch.cond => exact spells_of_readsAs h
  all_goals first
    | exact h
    | exact trivial
    | cases h

mutual

/-- A node that reads back is legible. -/
theorem Node.legible_of_readsBack : ∀ n : Node, n.readsBack = true → n.Legible
  | .raw id location t, h => by
    simp only [Node.readsBack, Bool.and_eq_true, Bool.not_eq_true', List.isEmpty_eq_false_iff,
      List.all_eq_true, bne_iff_ne] at h
    rw [Node.Legible]
    exact ⟨h.1, fun hm => h.2 _ hm rfl⟩
  | .print id location expr, h => by
    rw [Node.readsBack] at h
    rw [Node.Legible]
    exact spells_of_readsAs h
  | .call id location callee [], h => by
    rw [Node.readsBack, Bool.and_eq_true] at h
    rw [Node.Legible]
    exact spells_of_readsAs h.2
  | .call id location callee (p :: params), h => by
    simp [Node.readsBack] at h
  | .flow f, h => by
    rw [Node.readsBack] at h
    rw [Node.Legible]
    exact f.legible_of_readsBack h
  | .binding .., h | .openTag .., h | .closeTag .., h | .attr .., h | .attrValue .., h
  | .comment .., h => by
    simp [Node.readsBack] at h

/-- So are nodes that read back. -/
theorem legible_of_readsBack : ∀ nodes : List Node, readsBack nodes = true → LegibleNodes nodes
  | [], _ => by
    rw [LegibleNodes]
    trivial
  | n :: nodes, h => by
    simp only [readsBack, Bool.and_eq_true] at h
    rw [LegibleNodes]
    exact ⟨n.legible_of_readsBack h.1.1, legible_of_readsBack nodes h.2⟩

theorem Flow.legible_of_readsBack : ∀ f : Flow, f.readsBack = true → f.Legible
  | ⟨id, location, head, branches⟩, h => by
    simp only [Flow.readsBack, Bool.and_eq_true, Bool.or_eq_true, Bool.not_eq_true',
      List.isEmpty_eq_false_iff] at h
    obtain ⟨⟨hhead, hempty⟩, hbranches⟩ := h
    rw [Flow.Legible]
    refine ⟨FlowHead.legible_of_readsBack hhead, fun hnil => ?_,
      legibleBranches_of_readBack branches hbranches⟩
    cases head with
    | switch expr => exact ⟨expr, rfl⟩
    | ifThen | forEach v e => exact absurd hnil (hempty.resolve_left nofun)

theorem legibleBranches_of_readBack : ∀ (branches : List Branch) {head : FlowHead}
    {isFirst : Bool}, branchesReadBack head isFirst branches = true →
    LegibleBranches head isFirst branches
  | [], _, _, _ => by
    rw [LegibleBranches]
    trivial
  | ⟨id, kind, nodes⟩ :: branches, head, isFirst, h => by
    simp only [branchesReadBack, Bool.and_eq_true, Bool.or_eq_true, bne_iff_ne,
      List.isEmpty_iff] at h
    obtain ⟨⟨⟨hkind, hlast⟩, hnodes⟩, hbranches⟩ := h
    rw [LegibleBranches]
    exact ⟨BranchKind.legible_of_readsBack hkind, fun hd => hlast.resolve_left (absurd hd),
      legible_of_readsBack nodes hnodes, legibleBranches_of_readBack branches hbranches⟩

end

/-! ## 3. It has no text to join -/

/-- Text that is not empty stays in front of nodes that do not begin with text. -/
theorem raw_before_of_head? {id : NodeId} {location : Span} {t : Text} {nodes : List Node}
    (h : nodes.head?.all (fun m => m.rawText?.isNone) = true) :
    (Node.raw id location t).before nodes = .raw id location t :: nodes := by
  cases nodes with
  | nil => rfl
  | cons m nodes => exact raw_before_cons id location t (by simpa using h) nodes

mutual

/-- A node that reads back is itself when its text is joined. -/
theorem Node.joined_of_readsBack : ∀ n : Node, n.readsBack = true → n.joined false = n
  | .raw .., _ | .print .., _ => by
    rw [Node.joined]
    all_goals nofun
  | .call id location callee [], _ => by rw [Node.joined, joinedParams]
  | .call id location callee (p :: params), h => by simp [Node.readsBack] at h
  | .flow f, h => by
    rw [Node.readsBack] at h
    rw [Node.joined, f.joined_of_readsBack h]
  | .binding .., h | .openTag .., h | .closeTag .., h | .attr .., h | .attrValue .., h
  | .comment .., h => by
    simp [Node.readsBack] at h

/-- So are nodes that read back. -/
theorem joined_of_readsBack : ∀ nodes : List Node, readsBack nodes = true →
    joined false nodes = nodes
  | [], _ => by rw [joined]
  | n :: nodes, h => by
    simp only [readsBack, Bool.and_eq_true, Bool.or_eq_true] at h
    obtain ⟨⟨hn, hapart⟩, hnodes⟩ := h
    rw [joined, n.joined_of_readsBack hn, joined_of_readsBack nodes hnodes]
    cases hraw : n.rawText? with
    | none => rw [if_neg nofun, Node.before_of_rawText? hraw]
    | some t =>
      obtain ⟨id, location, rfl⟩ := Node.eq_raw_of_rawText? hraw
      have hne : t ≠ [] := by
        rintro rfl
        simp [Node.readsBack] at hn
      rw [if_neg (by simpa using hne), raw_before_of_head? (hapart.resolve_left (by simp [hraw]))]

theorem Flow.joined_of_readsBack : ∀ f : Flow, f.readsBack = true → f.joined false = f
  | ⟨id, location, head, branches⟩, h => by
    simp only [Flow.readsBack, Bool.and_eq_true] at h
    rw [Flow.joined, joinedBranches_of_readBack branches h.2]

theorem joinedBranches_of_readBack : ∀ (branches : List Branch) {head : FlowHead}
    {isFirst : Bool}, branchesReadBack head isFirst branches = true →
    joinedBranches false branches = branches
  | [], _, _, _ => by rw [joinedBranches]
  | ⟨id, kind, nodes⟩ :: branches, head, isFirst, h => by
    simp only [branchesReadBack, Bool.and_eq_true] at h
    rw [joinedBranches, Branch.joined, joined_of_readsBack nodes h.1.2,
      joinedBranches_of_readBack branches h.2]

end

/-! ## 4. Templates -/

/-- **Source text is read back.**  The source text of nodes that read back is read as the body of a
template, and its nodes are these but for names and places. -/
theorem Template.read_source {nodes : List Node} (h : readsBack nodes = true) (kind : ContentKind)
    (ids : IdSource) :
    ∃ t ids', Template.read (source nodes) kind ids = .ok (t, ids') ∧ t.kind = kind
      ∧ bare t.nodes = bare nodes := by
  have hread := Template.read_of_legible (legible_of_readsBack nodes h) kind ids
  rwa [joined_of_readsBack nodes h] at hread

end TemplateMarkup
