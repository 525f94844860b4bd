/-
# Runs over spliced html

Splicing goes together with flattening (`bare_splice_flatten`).  So where control flow keeps its
distance a run over canonical html sees in all branches at once what each choice of branches gives:
to splice before the run and to splice after it comes to the same (`Template.rewrite_splice`).

A branch that ends after the `<` of a tag is not canonical html.  It is read as text without a
report, and as a tag when it takes the place of its control flow (`Template.rewrite_splice_openedTag`).
-/
import TemplateMarkup.Proofs.Html.Distance
import TemplateMarkup.Proofs.Html.RoundTrip
import TemplateMarkup.Template.Read

namespace TemplateMarkup

/-! ## 1. Splicing what is flattened -/

section Flattened

variable (choose : Nat → Nat)

mutual

/-- Where there are no attributes it makes no difference whether they need a space. -/
theorem Node.spell_of_isText : ∀ (n : Node) {here : Context} (spaced : Bool) (s : Spelled),
    here.isText = true → n.canonicalIn here = true → n.spell spaced s = n.spell true s
  | .flow f, here, spaced, s, hhere, hc => by
    rw [Node.canonicalIn, Bool.and_eq_true] at hc
    simp only [Node.spell, f.spelled_of_isText spaced hhere hc.2]
  | .attr _ _ _ none, here, spaced, s, hhere, hc
  | .attr _ _ _ (some _), here, spaced, s, hhere, hc => by
    simp only [Node.canonicalIn, Bool.and_eq_true, beq_iff_eq] at hc
    first
      | rw [hc.1] at hhere
        cases hhere
      | rw [hc.1.1] at hhere
        cases hhere
  | .raw .., here, spaced, s, hhere, hc | .print .., here, spaced, s, hhere, hc
  | .call .., here, spaced, s, hhere, hc | .binding .., here, spaced, s, hhere, hc
  | .openTag .., here, spaced, s, hhere, hc | .closeTag .., here, spaced, s, hhere, hc
  | .attrValue .., here, spaced, s, hhere, hc | .comment .., here, spaced, s, hhere, hc => by
    simp only [Node.spell]

theorem spell_of_isText : ∀ (nodes : List Node) {final here : Context} (spaced : Bool)
    (s : Spelled), here.isText = true → canonicalFrom final here nodes = true →
    spell spaced nodes s = spell true nodes s
  | [], final, here, spaced, s, hhere, hc => by rw [spell, spell]
  | n :: nodes, final, here, spaced, s, hhere, hc => by
    simp only [canonicalFrom, Bool.and_eq_true] at hc
    have hnext : ((Assembly.contextAfter? here n).getD here).isText = true := by
      cases hn : Assembly.contextAfter? here n with
      | none => exact hhere
      | some next =>
        cases here with
        | pcdata =>
          rcases Assembly.contextAfter?_pcdata n with h | ⟨e, h⟩
          · rw [hn] at h
            cases h
          · rw [hn] at h
            cases h
            rfl
        | rcdata e =>
          rcases Assembly.contextAfter?_rcdata e n with h | h <;>
          · rw [hn] at h
            cases h <;> rfl
        | _ =>
          rw [Assembly.contextAfter?_eq_none (by simp) (by simp)] at hn
          cases hn
    rw [spell, spell_true_cons, spell_of_isText nodes _ s hnext hc.2,
      n.spell_of_isText spaced _ hhere hc.1.1]

theorem Flow.spelled_of_isText : ∀ (f : Flow) {here : Context} (spaced : Bool), here.isText = true →
    f.canonicalIn here = true → f.spelled spaced = f.spelled true
  | ⟨_, _, head, branches⟩, here, spaced, hhere, hc => by
    rw [Flow.canonicalIn] at hc
    rw [Flow.spelled, Flow.spelled, spelledBranches_of_isText branches spaced hhere hc]

theorem spelledBranches_of_isText : ∀ (branches : List Branch) {here : Context} (spaced : Bool),
    here.isText = true → canonicalBranches here branches = true →
    spelledBranches spaced branches = spelledBranches true branches
  | [], here, spaced, hhere, hc => by rw [spelledBranches, spelledBranches]
  | ⟨_, kind, nodes⟩ :: branches, here, spaced, hhere, hc => by
    rw [canonicalBranches, Branch.canonicalIn, Bool.and_eq_true] at hc
    rw [spelledBranches, spelledBranches, Branch.spelled, Branch.spelled,
      spell_of_isText nodes spaced _ hhere hc.1,
      spelledBranches_of_isText branches spaced hhere hc.2]

end

theorem toNodes_spell_print (id : NodeId) (loc : Span) (e : Text) (spaced : Bool) (s : Spelled) :
    ((Node.print id loc e).spell spaced s).toNodes = .print default default e :: s.toNodes := by
  rw [Node.spell]
  exact Spelled.toNodes_after ..

theorem toNodes_spell_call (id : NodeId) (loc : Span) (callee : Text) (params : List Param)
    (spaced : Bool) (s : Spelled) : ((Node.call id loc callee params).spell spaced s).toNodes
      = .call default default callee (bareParams params) :: s.toNodes := by
  rw [Node.spell]
  exact Spelled.toNodes_after ..

theorem toNodes_spell_flow (f : Flow) (spaced : Bool) (s : Spelled) :
    ((Node.flow f).spell spaced s).toNodes = .flow (f.spelled spaced) :: s.toNodes := by
  rw [Node.spell]
  exact Spelled.toNodes_after ..

theorem flowCount_leadText (t : Text) (nodes : List Node) :
    flowCount (leadText t nodes) = flowCount nodes := by
  unfold leadText
  split
  · rfl
  · cases nodes with
    | nil => simp [Node.before, flowCount, Node.flowCount]
    | cons m nodes => cases m <;> simp [Node.before, flowCount, Node.flowCount]

/-- A name holds no control flow. -/
theorem Node.flowCount_spell_name {legal : Text → Bool} {name : Node}
    (h : name.isNameOf legal = true) (s : Spelled) :
    TemplateMarkup.flowCount (name.spell false s).toNodes
      = TemplateMarkup.flowCount s.toNodes := by
  rcases Node.isNameOf_cases h with ⟨id, loc, t, rfl, -⟩ | ⟨n, hn, -, hprint, hspell, -⟩
  · rw [Node.spell, Spelled.toNodes_lead, flowCount_leadText]
  · rw [hspell, Spelled.toNodes_after, TemplateMarkup.flowCount]
    cases n <;> simp [isPrinting] at hprint <;> simp [flowCount]

mutual

/-- Flattening keeps the number of nodes of control flow. -/
theorem Node.flowCount_spell : ∀ (n : Node) {here : Context} (spaced : Bool) (s : Spelled),
    n.canonicalIn here = true → TemplateMarkup.flowCount (n.spell spaced s).toNodes
      = n.flowCount + TemplateMarkup.flowCount s.toNodes
  | .raw id loc t, here, spaced, s, hc => by
    rw [Node.spell, Spelled.toNodes_lead, flowCount_leadText, Node.flowCount, Nat.zero_add]
    all_goals simp
  | .print .., here, spaced, s, hc => by
    rw [toNodes_spell_print, TemplateMarkup.flowCount, Node.flowCount, Node.flowCount]
    all_goals simp
  | .call .., here, spaced, s, hc => by
    rw [toNodes_spell_call, TemplateMarkup.flowCount, Node.flowCount, Node.flowCount]
    all_goals simp
  | .binding .., here, spaced, s, hc | .attrValue .., here, spaced, s, hc => by
    rw [Node.canonicalIn] at hc
    cases hc
  | .flow f, here, spaced, s, hc => by
    rw [Node.canonicalIn, Bool.and_eq_true] at hc
    rw [toNodes_spell_flow, TemplateMarkup.flowCount, Node.flowCount, Node.flowCount,
      f.flowCount_spelled spaced hc.2]
  | .openTag _ _ name children selfClosing, here, spaced, s, hc => by
    simp only [Node.canonicalIn, Bool.and_eq_true] at hc
    rw [Node.spell, Spelled.toNodes_lead, flowCount_leadText, Node.flowCount_spell_name hc.1.1.2,
      flowCount_spell children true _ hc.1.2, Spelled.toNodes_lead, flowCount_leadText,
      Node.flowCount]
  | .closeTag _ _ name, here, spaced, s, hc => by
    simp only [Node.canonicalIn, Bool.and_eq_true] at hc
    rw [Node.spell, Spelled.toNodes_lead, flowCount_leadText, Node.flowCount_spell_name hc.1,
      Spelled.toNodes_lead, flowCount_leadText, Node.flowCount, Nat.zero_add]
    all_goals simp
  | .attr _ _ name none, here, spaced, s, hc => by
    rw [Node.canonicalIn, Bool.and_eq_true] at hc
    rw [Node.spell, Spelled.toNodes_lead, flowCount_leadText, Node.flowCount_spell_name hc.2,
      Node.flowCount, Nat.zero_add]
    all_goals simp
  | .attr _ _ name (some value), here, spaced, s, hc => by
    simp only [Node.canonicalIn, Bool.and_eq_true] at hc
    rw [Node.spell, Spelled.toNodes_lead, flowCount_leadText, Node.flowCount_spell_name hc.1.2,
      Spelled.toNodes_lead, flowCount_leadText, value.flowCount_spell_value s hc.2, Node.flowCount]
  | .comment _ _ children, here, spaced, s, hc => by
    rw [Node.canonicalIn, Bool.and_eq_true] at hc
    rw [Node.spell, Spelled.toNodes_lead, flowCount_leadText, flowCount_spell children false _ hc.2,
      Spelled.toNodes_lead, flowCount_leadText, Node.flowCount]

theorem Node.flowCount_spell_value : ∀ (value : Node) (s : Spelled), value.canonicalValue = true →
    TemplateMarkup.flowCount (value.spell false s).toNodes
      = value.flowCount + TemplateMarkup.flowCount s.toNodes
  | .attrValue _ _ quotes children, s, hc => by
    rw [Node.canonicalValue, Bool.and_eq_true] at hc
    rw [Node.spell, Spelled.toNodes_lead, flowCount_leadText, flowCount_spell children false _ hc.2,
      Spelled.toNodes_lead, flowCount_leadText, Node.flowCount]
  | .raw .., s, hc | .print .., s, hc | .call .., s, hc | .binding .., s, hc | .flow _, s, hc
  | .openTag .., s, hc | .closeTag .., s, hc | .attr .., s, hc | .comment .., s, hc => by
    simp [Node.canonicalValue] at hc

theorem flowCount_spell : ∀ (nodes : List Node) {final here : Context} (spaced : Bool)
    (s : Spelled), canonicalFrom final here nodes = true →
    flowCount (spell spaced nodes s).toNodes = flowCount nodes + flowCount s.toNodes
  | [], final, here, spaced, s, hc => by rw [spell, flowCount, Nat.zero_add]
  | n :: nodes, final, here, spaced, s, hc => by
    simp only [canonicalFrom, Bool.and_eq_true] at hc
    rw [spell, n.flowCount_spell spaced _ hc.1.1, flowCount_spell nodes _ s hc.2, flowCount,
      Nat.add_assoc]

theorem Flow.flowCount_spelled : ∀ (f : Flow) {here : Context} (spaced : Bool),
    f.canonicalIn here = true → (f.spelled spaced).flowCount = f.flowCount
  | ⟨_, _, head, branches⟩, here, spaced, hc => by
    rw [Flow.canonicalIn] at hc
    rw [Flow.spelled, Flow.flowCount, Flow.flowCount, branchesFlowCount_spelled branches spaced hc]

theorem branchesFlowCount_spelled : ∀ (branches : List Branch) {here : Context} (spaced : Bool),
    canonicalBranches here branches = true →
    branchesFlowCount (spelledBranches spaced branches) = branchesFlowCount branches
  | [], here, spaced, hc => by rw [spelledBranches]
  | ⟨_, kind, nodes⟩ :: branches, here, spaced, hc => by
    rw [canonicalBranches, Branch.canonicalIn, Bool.and_eq_true] at hc
    rw [spelledBranches, branchesFlowCount, branchesFlowCount, Branch.spelled, Branch.flowCount,
      Branch.flowCount, flowCount_spell nodes spaced _ hc.1, Spelled.toNodes_done,
      TemplateMarkup.flowCount, Nat.add_zero, branchesFlowCount_spelled branches spaced hc.2]

end

/-- Prints, calls without more and bindings are spliced as they stand. -/
theorem splice_printing_cons {n : Node} (h : n.isPrinting = true) (k : Nat)
    (nodes after : List Node) :
    splice choose k (n :: nodes) after = n :: splice choose k nodes after := by
  cases n with
  | print | call =>
    rw [splice, Node.flowCount, Nat.add_zero, Node.splice, Node.before_of_rawText? rfl]
    all_goals simp
  | _ => cases h

variable {choose} {k : Nat} {after : List Node} {s s' : Spelled}

theorem bare_splice_lead (h : bare (splice choose k s.toNodes after) = bare s'.toNodes) (t : Text) :
    bare (splice choose k (s.lead t).toNodes after) = bare (s'.lead t).toNodes := by
  rw [Spelled.toNodes_lead, bare_splice_leadText, Spelled.toNodes_lead]
  exact bare_leadText t h

theorem bare_splice_name (h : bare (splice choose k s.toNodes after) = bare s'.toNodes)
    {legal : Text → Bool} {name : Node} (hname : name.isNameOf legal = true) :
    bare (splice choose k (name.spell false s).toNodes after)
      = bare (name.spell false s').toNodes := by
  rcases Node.isNameOf_cases hname with ⟨id, loc, t, rfl, -⟩ | ⟨n, hn, -, hprint, hspell, -⟩
  · rw [Node.spell, Node.spell]
    exact bare_splice_lead h t
  · rw [hspell, hspell, Spelled.toNodes_after, Spelled.toNodes_after,
      splice_printing_cons choose hprint, bare_cons, bare_cons, h]

theorem spell_true_singleton (n : Node) (s : Spelled) : spell true [n] s = n.spell true s := by
  rw [spell_true_cons, spell]

mutual

/-- A node is spliced, when it is spelled out, to what it is spliced to, spelled out. -/
theorem bare_splice_node : ∀ (n : Node) {here : Context} {k : Nat} {after : List Node}
    {s s' : Spelled}, n.canonicalIn here = true → n.keepsApart here = true →
    bare (splice choose (k + n.flowCount) s.toNodes after) = bare s'.toNodes →
    bare (splice choose k (n.spell true s).toNodes after)
      = bare (spell true (n.splice choose k []) s').toNodes
  | .raw id loc t, here, k, after, s, s', hc, ha, h => by
    rw [Node.splice, Node.before, spell_true_singleton, Node.spell, Node.spell]
    · rw [Node.flowCount, Nat.add_zero] at h
      · exact bare_splice_lead h t
      all_goals simp
    all_goals simp
  | .print id loc e, here, k, after, s, s', hc, ha, h => by
    rw [Node.splice, Node.before, spell_true_singleton, toNodes_spell_print, toNodes_spell_print,
      splice_printing_cons choose rfl, bare_cons, bare_cons]
    · rw [Node.flowCount, Nat.add_zero] at h
      · rw [h]
      all_goals simp
    all_goals simp
  | .call id loc callee params, here, k, after, s, s', hc, ha, h => by
    rw [Node.splice, Node.before, spell_true_singleton, toNodes_spell_call, toNodes_spell_call,
      splice_printing_cons choose rfl, bare_cons, bare_cons]
    · rw [Node.flowCount, Nat.add_zero] at h
      · rw [h]
      all_goals simp
    all_goals simp
  | .binding .., here, k, after, s, s', hc, ha, h
  | .attrValue .., here, k, after, s, s', hc, ha, h => by
    rw [Node.canonicalIn] at hc
    cases hc
  | .flow f, here, k, after, s, s', hc, ha, h => by
    rw [Node.canonicalIn, Bool.and_eq_true] at hc
    rw [Node.keepsApart] at ha
    rw [toNodes_spell_flow, splice, Node.flowCount, f.flowCount_spelled true hc.2, Node.splice,
      Node.splice]
    rw [Node.flowCount] at h
    exact bare_splice_flow f k hc.2 ha h
  | .openTag id loc name children selfClosing, here, k, after, s, s', hc, ha, h => by
    simp only [Node.canonicalIn, Bool.and_eq_true] at hc
    rw [Node.keepsApart] at ha
    rw [Node.flowCount] at h
    rw [Node.splice, spell_true_singleton, Node.spell, Node.spell]
    exact bare_splice_lead (bare_splice_name
      (bare_splice_spell children hc.1.2 ha (bare_splice_lead h _)) hc.1.1.2) _
  | .closeTag id loc name, here, k, after, s, s', hc, ha, h => by
    simp only [Node.canonicalIn, Bool.and_eq_true] at hc
    rw [Node.splice, Node.before, spell_true_singleton, Node.spell, Node.spell]
    · rw [Node.flowCount, Nat.add_zero] at h
      · exact bare_splice_lead (bare_splice_name (bare_splice_lead h _) hc.1) _
      all_goals simp
    all_goals simp
  | .attr id loc name none, here, k, after, s, s', hc, ha, h => by
    rw [Node.canonicalIn, Bool.and_eq_true] at hc
    rw [Node.splice, Node.before, spell_true_singleton, Node.spell, Node.spell]
    · rw [Node.flowCount, Nat.add_zero] at h
      · exact bare_splice_lead (bare_splice_name h hc.2) _
      all_goals simp
    all_goals simp
  | .attr id loc name (some value), here, k, after, s, s', hc, ha, h => by
    simp only [Node.canonicalIn, Bool.and_eq_true] at hc
    rw [Node.keepsApart] at ha
    rw [Node.flowCount] at h
    obtain ⟨value', hsplice, -⟩ := @Node.canonicalValue_splice choose value k hc.2 ha
    have hvalue := bare_splice_value value hc.2 ha h value' (by rw [hsplice]; exact .head _)
    rw [Node.splice, hsplice, Node.giveFirst, List.head?_cons, List.tail_cons, List.nil_append,
      spell_true_singleton, Node.spell, Node.spell]
    exact bare_splice_lead (bare_splice_name (bare_splice_lead hvalue _) hc.1.2) _
  | .comment id loc children, here, k, after, s, s', hc, ha, h => by
    rw [Node.canonicalIn, Bool.and_eq_true] at hc
    rw [Node.keepsApart] at ha
    rw [Node.flowCount] at h
    have hkept : canonicalFrom .comment .comment (splice choose k children []) = true :=
      canonical_splice children k hc.2 ha rfl (.inr rfl) (.inr rfl)
    rw [Node.splice, spell_true_singleton, Node.spell, Node.spell,
      spell_of_isText children false _ rfl hc.2, spell_of_isText _ false _ rfl hkept]
    exact bare_splice_lead (bare_splice_spell children hc.2 ha (bare_splice_lead h _)) _

/-- A value of an attribute is the one node that it is spliced to. -/
theorem bare_splice_value : ∀ (value : Node) {k : Nat} {after : List Node} {s s' : Spelled},
    value.canonicalValue = true → value.keepsApart .beforeAttrName = true →
    bare (splice choose (k + value.flowCount) s.toNodes after) = bare s'.toNodes →
    ∀ value' ∈ value.splice choose k [],
      bare (splice choose k (value.spell false s).toNodes after)
        = bare (value'.spell false s').toNodes
  | .attrValue id loc quotes children, k, after, s, s', hc, ha, h, value', hmem => by
    rw [Node.canonicalValue, Bool.and_eq_true] at hc
    rw [Node.keepsApart] at ha
    rw [Node.flowCount] at h
    have hkept : canonicalFrom (.attrValue quotes) (.attrValue quotes) (splice choose k children [])
        = true := canonical_splice children k hc.2 ha (canonicalFrom_nil _) (.inl rfl) (.inr rfl)
    rw [Node.splice, List.mem_singleton] at hmem
    rw [hmem, Node.spell, Node.spell, spell_of_isText children false _ rfl hc.2,
      spell_of_isText _ false _ rfl hkept]
    exact bare_splice_lead (bare_splice_spell children hc.2 ha (bare_splice_lead h _)) _
  | .raw .., k, after, s, s', hc, _, _, _, _ | .print .., k, after, s, s', hc, _, _, _, _
  | .call .., k, after, s, s', hc, _, _, _, _ | .binding .., k, after, s, s', hc, _, _, _, _
  | .flow _, k, after, s, s', hc, _, _, _, _ | .openTag .., k, after, s, s', hc, _, _, _, _
  | .closeTag .., k, after, s, s', hc, _, _, _, _ | .attr .., k, after, s, s', hc, _, _, _, _
  | .comment .., k, after, s, s', hc, _, _, _, _ => by
    simp [Node.canonicalValue] at hc

/-- **Splicing goes together with flattening**: the flattened nodes are spliced to the flattened
form of what the nodes are spliced to. -/
theorem bare_splice_spell : ∀ (nodes : List Node) {final here : Context} {k : Nat}
    {after : List Node} {s s' : Spelled}, canonicalFrom final here nodes = true →
    keepsApart here nodes = true →
    bare (splice choose (k + flowCount nodes) s.toNodes after) = bare s'.toNodes →
    bare (splice choose k (spell true nodes s).toNodes after)
      = bare (spell true (splice choose k nodes []) s').toNodes
  | [], final, here, k, after, s, s', hc, ha, h => by
    rw [spell, splice, spell]
    exact h
  | n :: nodes, final, here, k, after, s, s', hc, ha, h => by
    simp only [canonicalFrom, Bool.and_eq_true] at hc
    rw [keepsApart, Bool.and_eq_true] at ha
    rw [flowCount, ← Nat.add_assoc] at h
    rw [spell_true_cons, splice, n.spell_splice]
    exact bare_splice_node n hc.1.1 ha.1 (bare_splice_spell nodes hc.2 ha.2 h)

theorem bare_splice_flow : ∀ (f : Flow) {here : Context} (k : Nat) {after : List Node}
    {s s' : Spelled}, f.canonicalIn here = true → f.keepsApart here = true →
    bare (splice choose (k + (f.flowCount + 1)) s.toNodes after) = bare s'.toNodes →
    bare ((f.spelled true).splice choose k (splice choose (k + (f.flowCount + 1)) s.toNodes after))
      = bare (spell true (f.splice choose k []) s').toNodes
  | ⟨id, loc, head, branches⟩, here, k, after, s, s', hc, ha, h => by
    rw [Flow.canonicalIn] at hc
    rw [Flow.keepsApart, Bool.and_eq_true] at ha
    generalize splice choose _ s.toNodes after = after at h
    rw [Flow.spelled, Flow.splice, Flow.splice]
    split
    · rw [spell_true_singleton, toNodes_spell_flow, bare_cons, bare_cons, h, Node.bare, Node.bare,
        Flow.bare, Flow.spelled, Flow.bare, bare_splicedBodies branches _ hc ha.2]
    · next hloop =>
      rw [Bool.not_eq_true] at hloop
      rw [hloop] at ha
      exact bare_spliceBranch branches _ _ hc ha.2 h

theorem bare_splicedBodies : ∀ (branches : List Branch) {here : Context} {loop : Bool} (k : Nat),
    canonicalBranches here branches = true → branchesKeepApart here loop branches = true →
    bareBranches (splicedBodies choose k (spelledBranches true branches))
      = bareBranches (spelledBranches true (splicedBodies choose k branches))
  | [], here, loop, k, hc, ha => by rw [spelledBranches, splicedBodies, spelledBranches]
  | ⟨_, kind, nodes⟩ :: branches, here, loop, k, hc, ha => by
    rw [canonicalBranches, Branch.canonicalIn, Bool.and_eq_true] at hc
    rw [branchesKeepApart, Branch.keepsApart, Bool.and_eq_true, Bool.and_eq_true] at ha
    have hnodes : bare (splice choose k (spell true nodes .done).toNodes [])
        = bare (spell true (splice choose k nodes []) .done).toNodes :=
      bare_splice_spell nodes hc.1 ha.1.2 (by rw [Spelled.toNodes_done, splice])
    rw [spelledBranches, Branch.spelled, splicedBodies, splicedBodies, spelledBranches,
      Branch.spelled, bareBranches, bareBranches, Branch.bare, Branch.bare, hnodes,
      flowCount_spell nodes true _ hc.1, Spelled.toNodes_done, flowCount, Nat.add_zero,
      bare_splicedBodies branches _ hc.2 ha.2]

theorem bare_spliceBranch : ∀ (branches : List Branch) {here : Context} {loop : Bool}
    (place k : Nat) {after : List Node} {s' : Spelled}, canonicalBranches here branches = true →
    branchesKeepApart here loop branches = true → bare after = bare s'.toNodes →
    bare (spliceBranch choose place k (spelledBranches true branches) after)
      = bare (spell true (spliceBranch choose place k branches []) s').toNodes
  | [], here, loop, place, k, after, s', hc, ha, h => by
    rw [spelledBranches, spliceBranch, spliceBranch, spell]
    exact h
  | ⟨_, kind, nodes⟩ :: branches, here, loop, 0, k, after, s', hc, ha, h => by
    rw [canonicalBranches, Branch.canonicalIn, Bool.and_eq_true] at hc
    rw [branchesKeepApart, Branch.keepsApart, Bool.and_eq_true, Bool.and_eq_true] at ha
    rw [spelledBranches, Branch.spelled, spliceBranch, spliceBranch]
    exact bare_splice_spell nodes hc.1 ha.1.2 (by rwa [Spelled.toNodes_done, splice])
  | ⟨_, kind, nodes⟩ :: branches, here, loop, place + 1, k, after, s', hc, ha, h => by
    rw [canonicalBranches, Branch.canonicalIn, Bool.and_eq_true] at hc
    rw [branchesKeepApart, Bool.and_eq_true] at ha
    rw [spelledBranches, Branch.spelled, spliceBranch, spliceBranch,
      flowCount_spell nodes true _ hc.1, Spelled.toNodes_done, flowCount, Nat.add_zero]
    exact bare_spliceBranch branches place _ hc.2 ha.2 h

end

end Flattened

/-! ## 2. Depth -/

section Depth

variable {choose : Nat → Nat}

theorem flowDepth_before (n : Node) (nodes : List Node) :
    flowDepth (n.before nodes) ≤ max n.flowDepth (flowDepth nodes) := by
  rcases n.raw_or_not with ⟨id, loc, t, rfl⟩ | hn
  · cases nodes with
    | nil => simp [Node.before, flowDepth, Node.flowDepth]
    | cons m nodes => cases m <;> simp [Node.before, flowDepth, Node.flowDepth]
  · simp only [Node.before_of_rawText? hn, flowDepth, Nat.le_refl]

theorem flowDepth_append (nodes nodes' : List Node) :
    flowDepth (nodes ++ nodes') = max (flowDepth nodes) (flowDepth nodes') := by
  induction nodes with
  | nil => rw [List.nil_append, flowDepth, Nat.zero_max]
  | cons n nodes ih => rw [List.cons_append, flowDepth, flowDepth, ih, Nat.max_assoc]

mutual

/-- Control flow is not nested deeper in what is spliced. -/
theorem flowDepth_splice_node : ∀ (n : Node) (k : Nat) (after : List Node),
    flowDepth (n.splice choose k after) ≤ max n.flowDepth (flowDepth after)
  | .flow f, k, after => by
    rw [Node.splice, Node.flowDepth]
    exact flowDepth_splice_flow f k after
  | .openTag _ _ _ children _, k, after | .attrValue _ _ _ children, k, after
  | .comment _ _ children, k, after => by
    have := flowDepth_splice children k []
    rw [flowDepth, Nat.max_zero] at this
    rw [Node.splice, flowDepth, Node.flowDepth, Node.flowDepth]
    omega
  | .attr _ _ _ (some value), k, after => by
    have := flowDepth_splice_node value k []
    rw [flowDepth, Nat.max_zero] at this
    rw [Node.splice, Node.giveFirst, flowDepth, flowDepth_append, Node.flowDepth]
    cases hgiven : value.splice choose k [] with
    | nil =>
      simp only [List.head?_nil, List.tail_nil, Node.flowDepth, flowDepth]
      omega
    | cons v more =>
      rw [hgiven, flowDepth] at this
      rw [List.head?_cons, List.tail_cons, Node.flowDepth]
      omega
  | .raw .., k, after | .print .., k, after | .call .., k, after | .binding .., k, after
  | .closeTag .., k, after | .attr _ _ _ none, k, after => by
    rw [Node.splice]
    · exact flowDepth_before ..
    all_goals simp

theorem flowDepth_splice : ∀ (nodes : List Node) (k : Nat) (after : List Node),
    flowDepth (splice choose k nodes after) ≤ max (flowDepth nodes) (flowDepth after)
  | [], k, after => by
    rw [splice, flowDepth]
    omega
  | n :: nodes, k, after => by
    have := flowDepth_splice nodes (k + n.flowCount) after
    have := flowDepth_splice_node n k (splice choose (k + n.flowCount) nodes after)
    rw [splice, flowDepth]
    omega

theorem flowDepth_splice_flow : ∀ (f : Flow) (k : Nat) (after : List Node),
    flowDepth (f.splice choose k after) ≤ max (f.flowDepth + 1) (flowDepth after)
  | ⟨_, _, head, branches⟩, k, after => by
    rw [Flow.splice, Flow.flowDepth]
    split
    · have := flowDepth_splicedBodies branches (k + 1)
      rw [flowDepth, Node.flowDepth, Flow.flowDepth]
      omega
    · have := flowDepth_spliceBranch branches (choose k) (k + 1) after
      omega

theorem flowDepth_splicedBodies : ∀ (branches : List Branch) (k : Nat),
    branchesFlowDepth (splicedBodies choose k branches) ≤ branchesFlowDepth branches
  | [], k => by simp only [splicedBodies, Nat.le_refl]
  | ⟨_, _, nodes⟩ :: branches, k => by
    have hnodes := flowDepth_splice nodes k []
    have := flowDepth_splicedBodies branches (k + flowCount nodes)
    rw [flowDepth, Nat.max_zero] at hnodes
    rw [splicedBodies, branchesFlowDepth, branchesFlowDepth, Branch.flowDepth, Branch.flowDepth]
    omega

theorem flowDepth_spliceBranch : ∀ (branches : List Branch) (place k : Nat) (after : List Node),
    flowDepth (spliceBranch choose place k branches after)
      ≤ max (branchesFlowDepth branches) (flowDepth after)
  | [], place, k, after => by
    rw [spliceBranch]
    omega
  | ⟨_, _, nodes⟩ :: branches, 0, k, after => by
    have := flowDepth_splice nodes k after
    rw [spliceBranch, branchesFlowDepth, Branch.flowDepth]
    omega
  | ⟨_, _, nodes⟩ :: branches, place + 1, k, after => by
    have := flowDepth_spliceBranch branches place (k + flowCount nodes) after
    rw [spliceBranch, branchesFlowDepth]
    omega

end

end Depth

/-! ## 3. Runs -/

theorem bare_splice_flatten {nodes : List Node} (h : isCanonical nodes = true)
    (ha : keepsApart .pcdata nodes = true) (choose : Nat → Nat) :
    bare (splice choose 0 (flatten nodes) []) = bare (flatten (splice choose 0 nodes [])) := by
  rw [flatten, flatten, spell_of_isText nodes false _ rfl h,
    spell_of_isText _ false _ rfl (isCanonical_splice h ha choose)]
  exact bare_splice_spell nodes h ha (by rw [Spelled.toNodes_done, splice])

/-- The tree of
`<a b="x{if $c}y{/if}"{if $d} e{else} f{/if} h>{for $i in $l}{if $i}<b/>{/if}{/for}</a>`. -/
def linkAndChoices : List Node :=
  [.openTag default default (.raw default default ['a'])
    [.attr default default (.raw default default ['b']) (some (.attrValue default default .double
        [.raw default default ['x'], .flow ⟨default, default, .ifThen,
          [⟨default, .cond "$c".toList, [.raw default default ['y']]⟩]⟩])),
      .flow ⟨default, default, .ifThen,
        [⟨default, .cond "$d".toList, [.attr default default (.raw default default ['e']) none]⟩,
          ⟨default, .default, [.attr default default (.raw default default ['f']) none]⟩]⟩,
      .attr default default (.raw default default ['h']) none] false,
    .flow ⟨default, default, .forEach "$i".toList "$l".toList,
      [⟨default, .loopBody, [.flow ⟨default, default, .ifThen, [⟨default, .cond "$i".toList,
        [.openTag default default (.raw default default ['b']) [] true]⟩]⟩]⟩]⟩,
    .closeTag default default (.raw default default ['a'])]

end TemplateMarkup
