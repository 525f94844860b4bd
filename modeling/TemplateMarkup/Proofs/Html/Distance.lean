/-
# Control flow that keeps its distance

A branch that takes the place of its `{if}` or `{switch}` comes to stand beside the nodes around it.
Two kinds of neighbours would run into one another then.  In a comment, or in the body of an element
of text, what is joined may be an end.  And a value without quotes that ends a branch would go on in
what comes after it.  `keepsApart` keeps them out, and html that is canonical and keeps apart stays
canonical when it is spliced (`isCanonical_splice`).
-/
import TemplateMarkup.Proofs.Html.Canonical
import TemplateMarkup.Proofs.Tree.Splicing

namespace TemplateMarkup

/-! ## 1. What keeps its distance -/

/-- Contexts in which text may be joined to text: where every character is content by itself, and
between attributes, where there is none. -/
def Context.joins : Context → Bool
  | pcdata | attrValue _ | beforeAttrName => true
  | _ => false

mutual

/-- An `{if}` or `{switch}` in the node can be replaced by any of its branches. -/
def Node.keepsApart (here : Context) : Node → Bool
  | .flow f => f.keepsApart here
  | .openTag _ _ _ children _ => keepsApart .beforeAttrName children
  | .attr _ _ _ (some value) => value.keepsApart .beforeAttrName
  | .attrValue _ _ quotes children => keepsApart (.attrValue quotes) children
  | .comment _ _ children => keepsApart .comment children
  | _ => true

/-- An `{if}` or `{switch}` in the nodes, which begin in context `here`, can be replaced by any of
its branches. -/
def keepsApart (here : Context) : List Node → Bool
  | [] => true
  | n :: nodes =>
    n.keepsApart here && keepsApart ((Assembly.contextAfter? here n).getD here) nodes

/-- Where a branch takes the place of the control flow, text may be joined. -/
def Flow.keepsApart (here : Context) : Flow → Bool
  | ⟨_, _, head, branches⟩ =>
    (head.isLoop || here.joins) && branchesKeepApart here head.isLoop branches

/-- No branch that takes the place of control flow ends in a value without quotes. -/
def branchesKeepApart (here : Context) (loop : Bool) : List Branch → Bool
  | [] => true
  | b :: branches => b.keepsApart here loop && branchesKeepApart here loop branches

/-- A branch that takes the place of control flow does not end in a value without quotes. -/
def Branch.keepsApart (here : Context) (loop : Bool) : Branch → Bool
  | ⟨_, _, nodes⟩ => (loop || !lastEndsBare nodes) && TemplateMarkup.keepsApart here nodes

end

/-- The nodes begin with raw text. -/
def startsRaw (nodes : List Node) : Bool := nodes.head?.any fun n => n.rawText?.isSome

/-- The nodes begin with control flow. -/
def startsFlow (nodes : List Node) : Bool := nodes.head?.any Node.isFlow

theorem Node.mayPrecede_iff (n : Node) (nodes : List Node) :
    n.mayPrecede nodes = true ↔ (startsRaw nodes = true → n.rawText? = none)
      ∧ (startsFlow nodes = true → n.endsBare = false) := by
  cases nodes with
  | nil => simp [mayPrecede, startsRaw, startsFlow]
  | cons m nodes =>
    cases m <;> simp [mayPrecede, startsRaw, startsFlow, isFlow, rawText?]

theorem lastEndsBare_cons (n : Node) (nodes : List Node) :
    lastEndsBare (n :: nodes) = if nodes = [] then n.endsBare else lastEndsBare nodes := by
  unfold lastEndsBare
  cases nodes with
  | nil => simp
  | cons m nodes => simp

/-- Text that is content stays so when it is joined. -/
theorem Context.admits_append {here : Context} (hj : here.joins = true) {t u : Text}
    (ht : here.admits t = true) (hu : here.admits u = true) : here.admits (t ++ u) = true := by
  cases here with
  | pcdata =>
    rw [Context.admits, List.all_append]
    exact Bool.and_eq_true_iff.mpr ⟨ht, hu⟩
  | attrValue quotes =>
    rw [Context.admits] at ht hu ⊢
    cases hq : quotes.char? with
    | none =>
      simp only [hq] at ht hu ⊢
      rw [List.all_append]
      exact Bool.and_eq_true_iff.mpr ⟨ht, hu⟩
    | some quote =>
      simp only [hq] at ht hu ⊢
      rw [List.all_append]
      exact Bool.and_eq_true_iff.mpr ⟨ht, hu⟩
  | beforeAttrName => cases ht
  | _ => cases hj

theorem canonicalFrom_nil (here : Context) : canonicalFrom here here [] = true := by
  rw [canonicalFrom, beq_self_eq_true]

/-- A canonical value is one. -/
theorem Node.eq_attrValue_of_canonicalValue {value : Node} (h : value.canonicalValue = true) :
    ∃ id loc quotes children, value = .attrValue id loc quotes children := by
  cases value <;> first | exact ⟨_, _, _, _, rfl⟩ | simp [Node.canonicalValue] at h

/-- What a value without quotes begins with stays. -/
theorem startsBare_splice (choose : Nat → Nat) (k : Nat) {nodes : List Node}
    (h : startsBare nodes = true) : startsBare (splice choose k nodes []) = true := by
  cases nodes with
  | nil => cases h
  | cons n nodes =>
    rw [splice]
    generalize splice choose (k + n.flowCount) nodes [] = after
    cases n with
    | raw id loc t =>
      cases t with
      | nil => cases h
      | cons c t =>
        rw [Node.splice]
        · cases after with
          | nil => exact h
          | cons m after => cases m <;> exact h
        all_goals simp
    | print | call =>
      rw [Node.splice]
      · rfl
      all_goals simp
    | _ => cases h

section Keeping

variable {choose : Nat → Nat}

/-- A node that is not control flow leaves a node of its kind in its place. -/
theorem Node.splice_cons (n : Node) (choose : Nat → Nat) (h : n.isFlow = false) (k : Nat)
    (after : List Node) : ∃ m nodes, n.splice choose k after = m :: nodes
      ∧ m.rawText?.isSome = n.rawText?.isSome ∧ m.isFlow = false := by
  cases n with
  | flow f => cases h
  | raw id loc t =>
    rw [Node.splice]
    · cases after with
      | nil => exact ⟨_, _, rfl, rfl, rfl⟩
      | cons m nodes => cases m <;> exact ⟨_, _, rfl, rfl, rfl⟩
    all_goals simp
  | attr id loc name value =>
    cases value with
    | none =>
      rw [Node.splice]
      · exact ⟨_, _, rfl, rfl, rfl⟩
      all_goals simp
    | some value =>
      rw [Node.splice]
      exact ⟨_, _, rfl, rfl, rfl⟩
  | openTag | attrValue | comment =>
    rw [Node.splice]
    exact ⟨_, _, rfl, rfl, rfl⟩
  | _ =>
    rw [Node.splice]
    · exact ⟨_, _, rfl, rfl, rfl⟩
    all_goals simp

/-- Nodes that do not begin with raw text do so only where text may be joined. -/
theorem joins_or_startsRaw {here : Context} {n : Node} {nodes : List Node}
    (h : startsRaw (n :: nodes) = false) (ha : n.keepsApart here = true) (k : Nat)
    (after : List Node) :
    here.joins = true ∨ startsRaw (splice choose k (n :: nodes) after) = false := by
  rw [startsRaw, List.head?_cons, Option.any_some] at h
  rw [splice]
  generalize splice choose (k + n.flowCount) nodes after = after
  cases hn : n.isFlow with
  | false =>
    obtain ⟨m, rest, hsplice, hm, -⟩ := n.splice_cons choose hn k after
    rw [hsplice, startsRaw, List.head?_cons, Option.any_some, hm]
    exact .inr h
  | true =>
    obtain ⟨⟨id, loc, head, branches⟩, rfl⟩ : ∃ f, n = .flow f := by
      cases n <;> first | exact ⟨_, rfl⟩ | cases hn
    rw [Node.keepsApart, Flow.keepsApart, Bool.and_eq_true, Bool.or_eq_true] at ha
    rw [Node.splice, Flow.splice]
    split
    · exact .inr rfl
    · next hloop => exact .inl (ha.1.resolve_left hloop)

mutual

/-- A value without quotes that comes last has come last before. -/
theorem Node.lastEndsBare_splice : ∀ (n : Node) {here : Context} (k : Nat) {after : List Node},
    n.canonicalIn here = true → n.keepsApart here = true →
    lastEndsBare (n.splice choose k after) = true →
    after = [] ∧ n.endsBare = true ∨ lastEndsBare after = true
  | .flow f, here, k, after, hc, ha, h => by
    rw [Node.canonicalIn, Bool.and_eq_true] at hc
    rw [Node.keepsApart] at ha
    rw [Node.splice] at h
    exact .inr (f.lastEndsBare_splice k hc.2 ha h)
  | .raw id loc t, here, k, after, hc, ha, h => by
    rw [Node.splice] at h
    · cases after with
      | nil => cases h
      | cons m after =>
        rcases m.raw_or_not with ⟨id', loc', u, rfl⟩ | hm
        · rw [Node.before, lastEndsBare_cons] at h
          rw [lastEndsBare_cons]
          exact .inr h
        · rw [raw_before_cons _ _ _ hm, lastEndsBare_cons, if_neg (by simp)] at h
          exact .inr h
    all_goals simp
  | .attr id loc name (some value), here, k, after, hc, ha, h => by
    rw [Node.canonicalIn, Bool.and_eq_true] at hc
    obtain ⟨id', loc', quotes, children, rfl⟩ := Node.eq_attrValue_of_canonicalValue hc.2
    rw [Node.splice, Node.splice, Node.giveFirst, List.head?_cons, List.tail_cons, List.nil_append,
      lastEndsBare_cons] at h
    split at h
    · next hnil =>
      cases quotes <;> first | exact .inl ⟨hnil, rfl⟩ | cases h
    · exact .inr h
  | .attrValue .., here, k, after, hc, ha, h | .binding .., here, k, after, hc, ha, h => by
    rw [Node.canonicalIn] at hc
    cases hc
  | .openTag .., here, k, after, hc, ha, h | .comment .., here, k, after, hc, ha, h => by
    rw [Node.splice, lastEndsBare_cons] at h
    split at h
    · cases h
    · exact .inr h
  | .print .., here, k, after, hc, ha, h | .call .., here, k, after, hc, ha, h
  | .closeTag .., here, k, after, hc, ha, h | .attr _ _ _ none, here, k, after, hc, ha, h => by
    rw [Node.splice, Node.before_of_rawText? rfl, lastEndsBare_cons] at h
    · split at h
      · cases h
      · exact .inr h
    all_goals simp

theorem lastEndsBare_splice : ∀ (nodes : List Node) {final here : Context} (k : Nat)
    {after : List Node}, canonicalFrom final here nodes = true → keepsApart here nodes = true →
    lastEndsBare (splice choose k nodes after) = true →
    after = [] ∧ lastEndsBare nodes = true ∨ lastEndsBare after = true
  | [], final, here, k, after, hc, ha, h => by
    rw [splice] at h
    exact .inr h
  | n :: nodes, final, here, k, after, hc, ha, h => by
    simp only [canonicalFrom, Bool.and_eq_true] at hc
    rw [keepsApart, Bool.and_eq_true] at ha
    rw [splice] at h
    rcases n.lastEndsBare_splice k hc.1.1 ha.1 h with ⟨hnil, hbare⟩ | h
    · cases nodes with
      | nil =>
        rw [splice] at hnil
        rw [lastEndsBare_cons, if_pos rfl]
        exact .inl ⟨hnil, hbare⟩
      | cons m nodes =>
        -- Control flow does not stand after such a value, and another node is not lost.
        have hm : m.isFlow = false := by
          have hprec := ((n.mayPrecede_iff _).mp hc.1.2).2
          rw [hbare] at hprec
          exact Bool.not_eq_true _ ▸ fun hm => Bool.noConfusion (hprec hm)
        obtain ⟨m', rest, hsplice, -⟩ := m.splice_cons choose hm (k + n.flowCount)
          (splice choose (k + n.flowCount + m.flowCount) nodes after)
        rw [splice, hsplice] at hnil
        cases hnil
    · rcases lastEndsBare_splice nodes _ hc.2 ha.2 h with ⟨hnil, h⟩ | h
      · refine .inl ⟨hnil, ?_⟩
        rw [lastEndsBare_cons, if_neg (fun hn => by subst hn; cases h)]
        exact h
      · exact .inr h

theorem Flow.lastEndsBare_splice : ∀ (f : Flow) {here : Context} (k : Nat) {after : List Node},
    f.canonicalIn here = true → f.keepsApart here = true →
    lastEndsBare (f.splice choose k after) = true → lastEndsBare after = true
  | ⟨id, loc, head, branches⟩, here, k, after, hc, ha, h => by
    rw [Flow.canonicalIn] at hc
    rw [Flow.keepsApart, Bool.and_eq_true] at ha
    rw [Flow.splice] at h
    split at h
    · rw [lastEndsBare_cons] at h
      split at h
      · cases h
      · exact h
    · next hloop =>
      rw [Bool.not_eq_true] at hloop
      rw [hloop] at ha
      exact lastEndsBare_spliceBranch branches _ _ hc ha.2 h

theorem lastEndsBare_spliceBranch : ∀ (branches : List Branch) {here : Context} (place k : Nat)
    {after : List Node}, canonicalBranches here branches = true →
    branchesKeepApart here false branches = true →
    lastEndsBare (spliceBranch choose place k branches after) = true → lastEndsBare after = true
  | [], here, place, k, after, hc, ha, h => by
    rwa [spliceBranch] at h
  | ⟨_, _, nodes⟩ :: branches, here, 0, k, after, hc, ha, h => by
    rw [canonicalBranches, Branch.canonicalIn, Bool.and_eq_true] at hc
    rw [branchesKeepApart, Branch.keepsApart, Bool.false_or, Bool.and_eq_true, Bool.and_eq_true,
      Bool.not_eq_true'] at ha
    rw [spliceBranch] at h
    rcases lastEndsBare_splice nodes k hc.1 ha.1.2 h with ⟨-, hlast⟩ | h
    · rw [ha.1.1] at hlast
      cases hlast
    · exact h
  | ⟨_, _, nodes⟩ :: branches, here, place + 1, k, after, hc, ha, h => by
    rw [canonicalBranches, Bool.and_eq_true] at hc
    rw [branchesKeepApart, Bool.and_eq_true] at ha
    rw [spliceBranch] at h
    exact lastEndsBare_spliceBranch branches place _ hc.2 ha.2 h

end

/-- Raw text before canonical nodes, which it may join. -/
theorem canonicalFrom_before {n : Node} {final here : Context} {after : List Node}
    (hc : n.canonicalIn here = true)
    (hafter : canonicalFrom final ((Assembly.contextAfter? here n).getD here) after = true)
    (hraw : n.rawText?.isSome = true → here.joins = true ∨ startsRaw after = false)
    (hbare : n.endsBare = true → startsFlow after = false) :
    canonicalFrom final here (n.before after) = true := by
  have hcons (h : startsRaw after = true → n.rawText? = none) :
      canonicalFrom final here (n :: after) = true := by
    simp only [canonicalFrom, Bool.and_eq_true]
    refine ⟨⟨hc, (n.mayPrecede_iff _).mpr ⟨h, fun hf => ?_⟩⟩, hafter⟩
    cases hn : n.endsBare with
    | false => rfl
    | true =>
      rw [hbare hn] at hf
      cases hf
  rcases n.raw_or_not with ⟨id, loc, t, rfl⟩ | hn
  · cases after with
    | nil => exact hcons fun h => by cases h
    | cons m after =>
      rcases m.raw_or_not with ⟨id', loc', u, rfl⟩ | hm
      · rcases hraw rfl with hj | hstart
        · have hnext (t : Text) : (Assembly.contextAfter? here (.raw id loc t)).getD here = here :=
            rfl
          rw [hnext] at hafter
          simp only [canonicalFrom, Node.canonicalIn, Bool.and_eq_true] at hc hafter
          rw [Node.before]
          simp only [canonicalFrom, Node.canonicalIn, Bool.and_eq_true]
          have hprec := (Node.mayPrecede_iff _ _).mp hafter.1.2
          refine ⟨⟨⟨?_, Context.admits_append hj hc.2 hafter.1.1.2⟩, (Node.mayPrecede_iff _ _).mpr
            ⟨fun hs => (nomatch hprec.1 hs), fun _ => rfl⟩⟩, hafter.2⟩
          cases t <;> first | rfl | cases hc.1
        · cases hstart
      · rw [raw_before_cons _ _ _ hm]
        refine hcons fun h => ?_
        rw [startsRaw, List.head?_cons, Option.any_some, hm] at h
        cases h
  · rw [Node.before_of_rawText? hn]
    exact hcons fun _ => hn

mutual

/-- **Canonical html stays canonical** when branches take the place of control flow that keeps its
distance, before canonical html that may be joined. -/
theorem Node.canonical_splice : ∀ (n : Node) {final here : Context} (k : Nat) {after : List Node},
    n.canonicalIn here = true → n.keepsApart here = true →
    canonicalFrom final ((Assembly.contextAfter? here n).getD here) after = true →
    (n.rawText?.isSome = true → here.joins = true ∨ startsRaw after = false) →
    (n.endsBare = true → startsFlow after = false) →
    canonicalFrom final here (n.splice choose k after) = true
  | .flow f, final, here, k, after, hc, ha, hafter, _, _ => by
    rw [Node.canonicalIn, Bool.and_eq_true] at hc
    rw [Node.keepsApart] at ha
    rw [Node.splice]
    exact f.canonical_splice k hc.1 hc.2 ha hafter
  | .openTag id loc name children selfClosing, final, here, k, after, hc, ha, hafter, _, _ => by
    simp only [Node.canonicalIn, Bool.and_eq_true, Bool.not_eq_true', Bool.and_eq_false_iff] at hc
    obtain ⟨⟨⟨hhere, hname⟩, hchildren⟩, hself⟩ := hc
    rw [Node.keepsApart] at ha
    have hnext (l : List Node) :
        Assembly.contextAfter? here (.openTag id loc name children selfClosing)
          = Assembly.contextAfter? here (.openTag id loc name l selfClosing) := by
      cases here <;> cases selfClosing <;> rfl
    rw [hnext (splice choose k children [])] at hafter
    rw [Node.splice, ← Node.before_of_rawText? rfl]
    refine canonicalFrom_before ?_ hafter (fun h => by cases h) (fun h => by cases h)
    simp only [Node.canonicalIn, Bool.and_eq_true, Bool.not_eq_true', Bool.and_eq_false_iff]
    refine ⟨⟨⟨hhere, hname⟩, canonical_splice children k hchildren ha rfl (.inl rfl) (.inr rfl)⟩,
      hself.imp_right fun hlast => ?_⟩
    cases hsplice : lastEndsBare (splice choose k children []) with
    | false => rfl
    | true =>
      rcases lastEndsBare_splice children k hchildren ha hsplice with ⟨-, h⟩ | h
      · rw [hlast] at h
        cases h
      · cases h
  | .attr id loc name (some value), final, here, k, after, hc, ha, hafter, _, hbare => by
    simp only [Node.canonicalIn, Bool.and_eq_true] at hc
    rw [Node.keepsApart] at ha
    obtain ⟨value', hsplice, hvalue, hsame⟩ := value.canonicalValue_splice k hc.2 ha
    rw [Node.splice, hsplice, Node.giveFirst, List.head?_cons, List.tail_cons, List.nil_append,
      ← Node.before_of_rawText? rfl]
    refine canonicalFrom_before ?_ hafter (fun h => by cases h) (fun h => hbare ?_)
    · simp only [Node.canonicalIn, Bool.and_eq_true]
      exact ⟨hc.1, hvalue⟩
    · rw [← h, hsame]
  | .attrValue .., final, here, k, after, hc, ha, _, _, _
  | .binding .., final, here, k, after, hc, ha, _, _, _ => by
    rw [Node.canonicalIn] at hc
    cases hc
  | .comment id loc children, final, here, k, after, hc, ha, hafter, _, _ => by
    rw [Node.canonicalIn, Bool.and_eq_true] at hc
    rw [Node.keepsApart] at ha
    rw [Node.splice, ← Node.before_of_rawText? rfl]
    refine canonicalFrom_before ?_ hafter (fun h => by cases h) (fun h => by cases h)
    rw [Node.canonicalIn, Bool.and_eq_true]
    exact ⟨hc.1, canonical_splice children k hc.2 ha rfl (.inr rfl) (.inr rfl)⟩
  | .raw .., final, here, k, after, hc, ha, hafter, hraw, hbare
  | .print .., final, here, k, after, hc, ha, hafter, hraw, hbare
  | .call .., final, here, k, after, hc, ha, hafter, hraw, hbare
  | .closeTag .., final, here, k, after, hc, ha, hafter, hraw, hbare
  | .attr _ _ _ none, final, here, k, after, hc, ha, hafter, hraw, hbare => by
    rw [Node.splice]
    · exact canonicalFrom_before hc hafter hraw hbare
    all_goals simp

/-- So does a canonical value. -/
theorem Node.canonicalValue_splice : ∀ (value : Node) (k : Nat), value.canonicalValue = true →
    value.keepsApart .beforeAttrName = true →
    ∃ value', value.splice choose k [] = [value'] ∧ value'.canonicalValue = true
      ∧ ∀ id loc name, (Node.attr id loc name (some value')).endsBare
        = (Node.attr id loc name (some value)).endsBare
  | .attrValue id loc quotes children, k, hc, ha => by
    rw [Node.canonicalValue, Bool.and_eq_true, Bool.or_eq_true] at hc
    rw [Node.keepsApart] at ha
    refine ⟨.attrValue id loc quotes (splice choose k children []), by rw [Node.splice], ?_,
      fun _ _ _ => by cases quotes <;> rfl⟩
    rw [Node.canonicalValue, Bool.and_eq_true, Bool.or_eq_true]
    exact ⟨hc.1.imp_right (startsBare_splice choose k),
      canonical_splice children k hc.2 ha (canonicalFrom_nil _) (.inl rfl) (.inr rfl)⟩
  | .raw .., k, hc, _ | .print .., k, hc, _ | .call .., k, hc, _ | .binding .., k, hc, _
  | .flow _, k, hc, _ | .openTag .., k, hc, _ | .closeTag .., k, hc, _ | .attr .., k, hc, _
  | .comment .., k, hc, _ => by
    simp [Node.canonicalValue] at hc

theorem canonical_splice : ∀ (nodes : List Node) {final here mid : Context} (k : Nat)
    {after : List Node}, canonicalFrom mid here nodes = true → keepsApart here nodes = true →
    canonicalFrom final mid after = true → (mid.joins = true ∨ startsRaw after = false) →
    (lastEndsBare nodes = false ∨ startsFlow after = false) →
    canonicalFrom final here (splice choose k nodes after) = true
  | [], final, here, mid, k, after, hc, ha, hafter, hj, hb => by
    rw [canonicalFrom, beq_iff_eq] at hc
    subst hc
    rwa [splice]
  | n :: nodes, final, here, mid, k, after, hc, ha, hafter, hj, hb => by
    simp only [canonicalFrom, Bool.and_eq_true] at hc
    obtain ⟨⟨hn, hprec⟩, hnodes⟩ := hc
    rw [keepsApart, Bool.and_eq_true] at ha
    have hrest := canonical_splice nodes (k + n.flowCount) hnodes ha.2 hafter hj (by
      cases nodes with
      | nil => exact .inl rfl
      | cons m nodes => rwa [lastEndsBare_cons, if_neg (by simp)] at hb)
    obtain ⟨hraw, hbare⟩ := (n.mayPrecede_iff nodes).mp hprec
    rw [splice]
    refine n.canonical_splice k hn ha.1 hrest (fun ht => ?_) (fun hends => ?_)
    · cases nodes with
      | nil =>
        obtain ⟨id, loc, t, rfl⟩ := n.raw_or_not.resolve_right fun h => by simp [h] at ht
        rw [canonicalFrom, beq_iff_eq] at hnodes
        have hmid : here = mid := hnodes
        rw [splice, hmid]
        exact hj
      | cons m nodes =>
        obtain ⟨id, loc, t, rfl⟩ := n.raw_or_not.resolve_right fun h => by simp [h] at ht
        have hm : startsRaw (m :: nodes) = false :=
          Bool.not_eq_true _ ▸ fun hm => by cases hraw hm
        rw [keepsApart, Bool.and_eq_true] at ha
        exact joins_or_startsRaw hm (by exact ha.2.1) _ _
    · cases nodes with
      | nil =>
        rw [lastEndsBare_cons, if_pos rfl, hends] at hb
        rw [splice]
        exact hb.resolve_left (by simp)
      | cons m nodes =>
        have hm : m.isFlow = false := by
          rw [hends] at hbare
          exact Bool.not_eq_true _ ▸ fun hm => Bool.noConfusion (hbare hm)
        obtain ⟨m', rest, hsplice, -, hm'⟩ := m.splice_cons choose hm (k + n.flowCount)
          (splice choose (k + n.flowCount + m.flowCount) nodes after)
        rw [splice, hsplice]
        exact hm'

theorem Flow.canonical_splice : ∀ (f : Flow) {final here : Context} (k : Nat) {after : List Node},
    here.isBetween = true → f.canonicalIn here = true → f.keepsApart here = true →
    canonicalFrom final here after = true →
    canonicalFrom final here (f.splice choose k after) = true
  | ⟨id, loc, head, branches⟩, final, here, k, after, hhere, hc, ha, hafter => by
    rw [Flow.canonicalIn] at hc
    rw [Flow.keepsApart, Bool.and_eq_true, Bool.or_eq_true] at ha
    rw [Flow.splice]
    split
    · rw [← Node.before_of_rawText? rfl]
      refine canonicalFrom_before ?_ hafter (fun h => by cases h) (fun h => by cases h)
      rw [Node.canonicalIn, Flow.canonicalIn, Bool.and_eq_true]
      exact ⟨hhere, canonical_splicedBodies branches _ hc ha.2⟩
    · next hloop =>
      rw [Bool.not_eq_true] at hloop
      rw [hloop] at ha
      exact canonical_spliceBranch branches _ _ (ha.1.resolve_left (by simp)) hc ha.2 hafter

theorem canonical_splicedBodies : ∀ (branches : List Branch) {here : Context} {loop : Bool}
    (k : Nat), canonicalBranches here branches = true →
    branchesKeepApart here loop branches = true →
    canonicalBranches here (splicedBodies choose k branches) = true
  | [], here, loop, k, hc, ha => by rwa [splicedBodies]
  | ⟨_, _, nodes⟩ :: branches, here, loop, k, hc, ha => by
    rw [canonicalBranches, Branch.canonicalIn, Bool.and_eq_true] at hc
    rw [branchesKeepApart, Branch.keepsApart, Bool.and_eq_true, Bool.and_eq_true] at ha
    rw [splicedBodies, canonicalBranches, Branch.canonicalIn, Bool.and_eq_true]
    exact ⟨canonical_splice nodes k hc.1 ha.1.2 (canonicalFrom_nil _) (.inr rfl) (.inr rfl),
      canonical_splicedBodies branches _ hc.2 ha.2⟩

theorem canonical_spliceBranch : ∀ (branches : List Branch) {final here : Context} (place k : Nat)
    {after : List Node}, here.joins = true → canonicalBranches here branches = true →
    branchesKeepApart here false branches = true → canonicalFrom final here after = true →
    canonicalFrom final here (spliceBranch choose place k branches after) = true
  | [], final, here, place, k, after, hj, hc, ha, hafter => by rwa [spliceBranch]
  | ⟨_, _, nodes⟩ :: branches, final, here, 0, k, after, hj, hc, ha, hafter => by
    rw [canonicalBranches, Branch.canonicalIn, Bool.and_eq_true] at hc
    rw [branchesKeepApart, Branch.keepsApart, Bool.false_or, Bool.and_eq_true, Bool.and_eq_true,
      Bool.not_eq_true'] at ha
    rw [spliceBranch]
    exact canonical_splice nodes k hc.1 ha.1.2 hafter (.inl hj) (.inl ha.1.1)
  | ⟨_, _, nodes⟩ :: branches, final, here, place + 1, k, after, hj, hc, ha, hafter => by
    rw [canonicalBranches, Bool.and_eq_true] at hc
    rw [branchesKeepApart, Bool.and_eq_true] at ha
    rw [spliceBranch]
    exact canonical_spliceBranch branches place _ hj hc.2 ha.2 hafter

end

end Keeping

/-- Canonical html whose control flow keeps its distance is canonical when it is spliced. -/
theorem isCanonical_splice {nodes : List Node} (h : isCanonical nodes = true)
    (ha : keepsApart .pcdata nodes = true) (choose : Nat → Nat) :
    isCanonical (splice choose 0 nodes []) = true :=
  canonical_splice nodes 0 h ha (canonicalFrom_nil _) (.inl rfl) (.inr rfl)

end TemplateMarkup
