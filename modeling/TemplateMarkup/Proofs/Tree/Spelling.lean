/-
# Spelling html out

`flatten` undoes the structure of html: tags, attributes, values and comments become the text that
stands for them in the source, and that text joins the raw text around it.  Prints, calls, bindings
and control flow stay nodes, and the branches of control flow are flattened by themselves.  A
flattened list has the source text of the list it comes from (`source_flatten`).

What is spelled so far is a `Spelled`: the text that comes first, and the nodes after it, which do
not begin with raw text.  So a list is spelled from its end, and text is joined as it comes.
-/
import TemplateMarkup.Proofs.Tree.Bare

namespace TemplateMarkup

/-! ## 1. Text before nodes -/

/-- Text, and nodes after it that do not begin with raw text. -/
structure Spelled where
  text : Text
  nodes : List Node
  apart : ∀ n ∈ nodes.head?, n.rawText? = none

namespace Spelled

/-- Nothing is left. -/
def done : Spelled := ⟨[], [], nofun⟩

/-- More text at the start. -/
def lead (t : Text) (s : Spelled) : Spelled := ⟨t ++ s.text, s.nodes, s.apart⟩

/-- The text and the nodes as one list. -/
def toNodes (s : Spelled) : List Node :=
  if s.text.isEmpty then s.nodes else .raw default default s.text :: s.nodes

/-- A node at the start. -/
def after (n : Node) (h : n.rawText? = none) (s : Spelled) : Spelled :=
  ⟨[], n :: s.toNodes, fun m hm => by
    cases hm
    exact h⟩

@[simp] theorem lead_text (t : Text) (s : Spelled) : (s.lead t).text = t ++ s.text := rfl

@[simp] theorem lead_nodes (t : Text) (s : Spelled) : (s.lead t).nodes = s.nodes := rfl

@[simp] theorem lead_nil (s : Spelled) : s.lead [] = s := rfl

theorem lead_lead (t u : Text) (s : Spelled) : (s.lead u).lead t = s.lead (t ++ u) := by
  simp [lead]

end Spelled

/-! ## 2. Spelling -/

mutual

/-- The node spelled out, before what is spelled already; `spaced` tells whether an attribute needs
a space before it. -/
def Node.spell (spaced : Bool) : Node → Spelled → Spelled
  | .raw _ _ t, s => s.lead t
  | .print _ _ e, s => s.after (.print default default e) rfl
  | .call _ _ callee params, s => s.after (.call default default callee (bareParams params)) rfl
  | .binding _ _ var value, s => s.after (.binding default default var value.bare) rfl
  | .flow f, s => s.after (.flow (f.spelled spaced)) rfl
  | .openTag _ _ name children selfClosing, s =>
    (name.spell false (spell true children
      (s.lead (if selfClosing then "/>" else ">").toList))).lead ['<']
  | .closeTag _ _ name, s => (name.spell false (s.lead ['>'])).lead "</".toList
  | .attr _ _ name none, s => (name.spell false s).lead (if spaced then [' '] else [])
  | .attr _ _ name (some value), s =>
    (name.spell false ((value.spell false s).lead ['='])).lead (if spaced then [' '] else [])
  | .attrValue _ _ quotes children, s =>
    (spell false children (s.lead quotes.char?.toList)).lead quotes.char?.toList
  | .comment _ _ children, s => (spell false children (s.lead "-->".toList)).lead "<!--".toList

/-- The nodes spelled out, before what is spelled already. -/
def spell (spaced : Bool) : List Node → Spelled → Spelled
  | [], s => s
  | n :: nodes, s => n.spell spaced (spell (spaced || n.givesAttribute) nodes s)

/-- The control flow with its branches flattened. -/
def Flow.spelled (spaced : Bool) : Flow → Flow
  | ⟨_, _, head, branches⟩ => ⟨default, default, head, spelledBranches spaced branches⟩

/-- The branches flattened. -/
def spelledBranches (spaced : Bool) : List Branch → List Branch
  | [] => []
  | b :: branches => b.spelled spaced :: spelledBranches spaced branches

/-- The branch flattened. -/
def Branch.spelled (spaced : Bool) : Branch → Branch
  | ⟨_, kind, nodes⟩ => ⟨default, kind, (spell spaced nodes .done).toNodes⟩

end

/-- The nodes without the structure of html. -/
def flatten (nodes : List Node) : List Node := (spell false nodes .done).toNodes

/-! ## 3. The source of what is spelled -/

/-- The source text of what is spelled; `spaced` makes no difference to it. -/
def Spelled.Writes (s : Spelled) (t : Text) : Prop := ∀ spaced, sourceAfter spaced s.toNodes = t

namespace Spelled

theorem writes_done : done.Writes [] := fun _ => rfl

theorem Writes.lead {s : Spelled} {t : Text} (h : s.Writes t) (u : Text) :
    (s.lead u).Writes (u ++ t) := by
  intro spaced
  have hs := h spaced
  unfold toNodes Spelled.lead at *
  dsimp only at *
  cases u with
  | nil => exact hs
  | cons c cs =>
    rw [List.cons_append, List.isEmpty_cons, if_neg (by simp), sourceAfter, Node.source]
    cases ht : s.text with
    | nil =>
      rw [ht] at hs
      simp only [List.isEmpty_nil, if_true] at hs
      have := h (spaced || (Node.raw default default (c :: (cs ++ []))).givesAttribute)
      unfold toNodes at this
      rw [ht] at this
      simp only [List.isEmpty_nil, if_true] at this
      rw [this]
      simp
    | cons d ds =>
      rw [ht] at hs
      simp only [List.isEmpty_cons, Bool.false_eq_true, if_false, sourceAfter, Node.source,
        Node.givesAttribute] at hs ⊢
      rw [← hs]
      simp

theorem Writes.after {s : Spelled} {t u : Text} (h : s.Writes t) {n : Node}
    (hn : n.rawText? = none) (hu : ∀ spaced, n.source spaced = u) :
    (s.after n hn).Writes (u ++ t) := by
  intro spaced
  unfold toNodes Spelled.after
  dsimp only
  rw [List.isEmpty_nil, if_pos rfl, sourceAfter, hu, h]

end Spelled

mutual

/-- **A node is spelled as it is written.** -/
theorem Node.writes_spell : ∀ (n : Node) (spaced : Bool) {s : Spelled} {t : Text}, s.Writes t →
    (n.spell spaced s).Writes (n.source spaced ++ t)
  | .raw _ _ u, spaced, s, t, h => by
    rw [Node.spell, Node.source]
    exact h.lead u
  | .print _ _ e, spaced, s, t, h => by
    rw [Node.spell, Node.source]
    exact h.after rfl fun _ => by rw [Node.source]
  | .call id loc callee params, spaced, s, t, h => by
    rw [Node.spell]
    refine h.after rfl fun spaced' => ?_
    have hb := (Node.call id loc callee params).source_bare spaced'
    rw [Node.bare] at hb
    rw [hb]
    cases params <;> rw [Node.source, Node.source]
  | .binding id loc var value, spaced, s, t, h => by
    rw [Node.spell]
    refine h.after rfl fun spaced' => ?_
    have hb := (Node.binding id loc var value).source_bare spaced'
    rw [Node.bare] at hb
    rw [hb]
    cases value <;> simp only [Node.source]
  | .flow f, spaced, s, t, h => by
    rw [Node.spell, Node.source]
    exact h.after rfl fun _ => by rw [Node.source, f.source_spelled]
  | .openTag _ _ name children selfClosing, spaced, s, t, h => by
    rw [Node.spell, Node.source]
    have := (name.writes_spell false (writes_spell children true
      (h.lead (if selfClosing then "/>" else ">").toList))).lead ['<']
    simpa using this
  | .closeTag _ _ name, spaced, s, t, h => by
    rw [Node.spell, Node.source]
    have := (name.writes_spell false (h.lead ['>'])).lead "</".toList
    simpa using this
  | .attr _ _ name none, spaced, s, t, h => by
    rw [Node.spell, Node.source]
    have := (name.writes_spell false h).lead (if spaced then [' '] else [])
    simpa using this
  | .attr _ _ name (some value), spaced, s, t, h => by
    rw [Node.spell, Node.source]
    have := (name.writes_spell false ((value.writes_spell false h).lead ['='])).lead
      (if spaced then [' '] else [])
    simpa using this
  | .attrValue _ _ quotes children, spaced, s, t, h => by
    rw [Node.spell, Node.source, Quotes.around]
    have := (writes_spell children false (h.lead quotes.char?.toList)).lead quotes.char?.toList
    simpa using this
  | .comment _ _ children, spaced, s, t, h => by
    rw [Node.spell, Node.source]
    have := (writes_spell children false (h.lead "-->".toList)).lead "<!--".toList
    simpa using this

/-- **So is a list of nodes.** -/
theorem writes_spell : ∀ (nodes : List Node) (spaced : Bool) {s : Spelled} {t : Text},
    s.Writes t → (spell spaced nodes s).Writes (sourceAfter spaced nodes ++ t)
  | [], spaced, s, t, h => by
    rw [spell, sourceAfter]
    exact h
  | n :: nodes, spaced, s, t, h => by
    rw [spell, sourceAfter, List.append_assoc]
    exact n.writes_spell spaced (writes_spell nodes _ h)

theorem Flow.source_spelled : ∀ (f : Flow) (spaced spaced' : Bool),
    (f.spelled spaced).source spaced' = f.source spaced
  | ⟨_, _, head, branches⟩, spaced, spaced' => by
    rw [Flow.spelled, Flow.source, Flow.source, source_spelledBranches branches]

theorem source_spelledBranches : ∀ (branches : List Branch) (spaced spaced' : Bool)
    (head : FlowHead) (isFirst : Bool),
    branchesSource spaced' head isFirst (spelledBranches spaced branches)
      = branchesSource spaced head isFirst branches
  | [], spaced, spaced', head, isFirst => by
    rw [spelledBranches, branchesSource, branchesSource]
  | ⟨_, kind, nodes⟩ :: branches, spaced, spaced', head, isFirst => by
    rw [spelledBranches, branchesSource, branchesSource, source_spelledBranches branches,
      Branch.spelled, Branch.source, Branch.source,
      writes_spell nodes spaced Spelled.writes_done spaced', List.append_nil]

end

/-- **Flattened nodes have the same source text.** -/
theorem source_flatten (nodes : List Node) : source (flatten nodes) = source nodes := by
  have := writes_spell nodes false Spelled.writes_done false
  rwa [List.append_nil] at this

end TemplateMarkup
