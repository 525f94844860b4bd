/-
# Names drawn by reading

Reading draws names in order, and each goes to one node, branch or parameter, or to a text that is
dropped because blanks between the parameters of a call mean nothing.  So the names in the tree,
listed in the order in which they were drawn (`treeNames`: a construct after its parts), are some of
the names drawn, in order (`Template.names_sublist`).

Names start over after 2^32 of them.  As long as fewer are drawn they are all different
(`IdSource.taken_nodup`), and each node of the tree is known by its name
(`Template.occurrences_eq_singleton`).
-/
import TemplateMarkup.Proofs.Tree.Authored
import TemplateMarkup.Proofs.Template.Written

namespace TemplateMarkup

/-! ## 1. Sources of names -/

namespace IdSource

/-- The source after `n` names have been taken. -/
def after (ids : IdSource) : Nat → IdSource
  | 0 => ids
  | n + 1 => ids.rest.after n

/-- The next `n` names. -/
def taken (ids : IdSource) : Nat → List NodeId
  | 0 => []
  | n + 1 => ids.next :: ids.rest.taken n

/-- The number of names between two moments of a source that are not far apart. -/
def gap (ids ids' : IdSource) : Nat := (ids'.next.val - ids.next.val).toNat

theorem after_add (ids : IdSource) (m n : Nat) : ids.after (m + n) = (ids.after m).after n := by
  induction m generalizing ids with
  | zero => simp [after]
  | succ m ih =>
    rw [Nat.succ_add]
    exact ih ids.rest

theorem taken_add (ids : IdSource) (m n : Nat) :
    ids.taken (m + n) = ids.taken m ++ (ids.after m).taken n := by
  induction m generalizing ids with
  | zero => simp [after, taken]
  | succ m ih =>
    rw [Nat.succ_add, taken, ih ids.rest]
    rfl

theorem val_after (ids : IdSource) (n : Nat) :
    (ids.after n).next.val = ids.next.val + UInt32.ofNat n := by
  induction n generalizing ids with
  | zero => simp [after]
  | succ n ih =>
    rw [after, ih, rest, UInt32.ofNat_add, UInt32.add_comm (UInt32.ofNat n), ← UInt32.add_assoc]
    rfl

theorem gap_after (ids : IdSource) {n : Nat} (h : n < 2 ^ 32) : ids.gap (ids.after n) = n := by
  rw [gap, val_after, UInt32.add_comm, UInt32.add_sub_cancel]
  exact UInt32.toNat_ofNat_of_lt' h

/-- A name is among the next ones by its distance from the first. -/
theorem mem_taken {ids : IdSource} {n : Nat} {id : NodeId} (h : id ∈ ids.taken n) :
    ∃ k < n, id.val = ids.next.val + UInt32.ofNat k := by
  induction n generalizing ids with
  | zero => cases h
  | succ n ih =>
    rcases List.mem_cons.mp h with rfl | h
    · exact ⟨0, by omega, by simp⟩
    · obtain ⟨k, hk, heq⟩ := ih h
      refine ⟨k + 1, by omega, ?_⟩
      rw [heq, rest, UInt32.ofNat_add, UInt32.add_comm (UInt32.ofNat k), ← UInt32.add_assoc]
      rfl

/-- **Names are all different until they start over.** -/
theorem taken_nodup (ids : IdSource) {n : Nat} (h : n ≤ 2 ^ 32) : (ids.taken n).Nodup := by
  induction n generalizing ids with
  | zero => exact List.nodup_nil
  | succ n ih =>
    rw [taken, List.nodup_cons]
    refine ⟨fun hm => ?_, ih _ (by omega)⟩
    obtain ⟨k, hk, heq⟩ := mem_taken hm
    -- the first name comes back only after all others
    have hk' : k < UInt32.size := by
      rw [UInt32.size]
      omega
    have hnat := congrArg UInt32.toNat heq
    rw [rest, UInt32.toNat_add, UInt32.toNat_add, UInt32.toNat_ofNat_of_lt' hk',
      UInt32.toNat_one] at hnat
    have := ids.next.val.toNat_lt
    omega

end IdSource

/-! ## 2. The names in a tree -/

mutual

/-- The names in a node, each construct after its parts. -/
def Node.names : Node → List NodeId
  | .raw id .. | .print id .. => [id]
  | .call id _ _ params => paramsNames params ++ [id]
  | .binding id _ _ value => value.names ++ [id]
  | .flow f => f.names
  | .openTag id _ name children _ => name.names ++ treeNames children ++ [id]
  | .closeTag id _ name => name.names ++ [id]
  | .attr id _ name none => name.names ++ [id]
  | .attr id _ name (some value) => name.names ++ value.names ++ [id]
  | .attrValue id _ _ children => treeNames children ++ [id]
  | .comment id _ children => treeNames children ++ [id]

/-- The names in a tree. -/
def treeNames : List Node → List NodeId
  | [] => []
  | n :: nodes => n.names ++ treeNames nodes

/-- The names in a value. -/
def Value.names : Value → List NodeId
  | .expr _ => []
  | .content _ nodes => treeNames nodes

/-- The names in parameters. -/
def paramsNames : List Param → List NodeId
  | [] => []
  | p :: params => p.names ++ paramsNames params

/-- The names in a parameter. -/
def Param.names : Param → List NodeId
  | ⟨id, _, _, value⟩ => value.names ++ [id]

/-- The names in control flow. -/
def Flow.names : Flow → List NodeId
  | ⟨id, _, _, branches⟩ => branchesNames branches ++ [id]

/-- The names in branches. -/
def branchesNames : List Branch → List NodeId
  | [] => []
  | b :: branches => b.names ++ branchesNames branches

/-- The names in a branch. -/
def Branch.names : Branch → List NodeId
  | ⟨id, _, nodes⟩ => treeNames nodes ++ [id]

end

theorem treeNames_append (l l' : List Node) : treeNames (l ++ l') = treeNames l ++ treeNames l' := by
  induction l with
  | nil => rfl
  | cons n l ih => simp only [List.cons_append, treeNames, ih, List.append_assoc]

theorem paramsNames_append (l l' : List Param) :
    paramsNames (l ++ l') = paramsNames l ++ paramsNames l' := by
  induction l with
  | nil => rfl
  | cons p l ih => simp only [List.cons_append, paramsNames, ih, List.append_assoc]

theorem branchesNames_append (l l' : List Branch) :
    branchesNames (l ++ l') = branchesNames l ++ branchesNames l' := by
  induction l with
  | nil => rfl
  | cons b l ih => simp only [List.cons_append, branchesNames, ih, List.append_assoc]

/-- The names of the nodes in a list, in no order. -/
def nodeIds (nodes : List Node) : Multiset NodeId := ↑(nodes.map Node.id)

@[simp] theorem nodeIds_append (l l' : List Node) : nodeIds (l ++ l') = nodeIds l + nodeIds l' := by
  simp [nodeIds]

/-- A construct and what is in it. -/
theorem nodeIds_cons_le {n : Node} {l : List Node} {inner : List NodeId}
    (h : nodeIds l ≤ inner) : nodeIds (n :: l) ≤ (inner ++ [n.id] : List NodeId) := by
  have hcons : nodeIds (n :: l) = nodeIds l + {n.id} := by
    rw [add_comm, Multiset.singleton_add, nodeIds, List.map_cons, ← Multiset.cons_coe]
    rfl
  rw [hcons, ← Multiset.coe_add, Multiset.coe_singleton]
  gcongr

theorem nodeIds_append_le {l l' : List Node} {m m' : List NodeId} (h : nodeIds l ≤ m)
    (h' : nodeIds l' ≤ m') : nodeIds (l ++ l') ≤ (m ++ m' : List NodeId) := by
  rw [nodeIds_append, ← Multiset.coe_add]
  exact add_le_add h h'

/-- A part with a name of its own that is no node. -/
theorem nodeIds_le_append {l : List Node} {m m' : List NodeId} (h : nodeIds l ≤ m) :
    nodeIds l ≤ (m ++ m' : List NodeId) := by
  rw [← Multiset.coe_add]
  exact h.trans (Multiset.le_add_right _ _)

mutual

theorem Node.nodeIds_walk_le : ∀ n : Node, nodeIds n.walk ≤ n.names
  | .raw id _ _ | .print id _ _ => le_refl _
  | .call id s callee params => by
    rw [Node.walk, Node.names]
    exact nodeIds_cons_le (nodeIds_walkParams_le params)
  | .binding id s var value => by
    rw [Node.walk, Node.names]
    exact nodeIds_cons_le value.nodeIds_walk_le
  | .flow ⟨id, s, head, branches⟩ => by
    rw [Node.walk, Node.names, Flow.walk, Flow.names]
    exact nodeIds_cons_le (nodeIds_walkBranches_le branches)
  | .openTag id s name children selfClosing => by
    rw [Node.walk, Node.names]
    exact nodeIds_cons_le (nodeIds_append_le name.nodeIds_walk_le (nodeIds_walk_le children))
  | .closeTag id s name => by
    rw [Node.walk, Node.names]
    exact nodeIds_cons_le name.nodeIds_walk_le
  | .attr id s name none => by
    rw [Node.walk, Node.names]
    exact nodeIds_cons_le name.nodeIds_walk_le
  | .attr id s name (some value) => by
    rw [Node.walk, Node.names]
    exact nodeIds_cons_le (nodeIds_append_le name.nodeIds_walk_le value.nodeIds_walk_le)
  | .attrValue id s quotes children => by
    rw [Node.walk, Node.names]
    exact nodeIds_cons_le (nodeIds_walk_le children)
  | .comment id s children => by
    rw [Node.walk, Node.names]
    exact nodeIds_cons_le (nodeIds_walk_le children)

/-- **Every node of a tree has its own place among the names.** -/
theorem nodeIds_walk_le : ∀ nodes : List Node, nodeIds (walk nodes) ≤ treeNames nodes
  | [] => le_refl _
  | n :: nodes => by
    rw [walk, treeNames]
    exact nodeIds_append_le n.nodeIds_walk_le (nodeIds_walk_le nodes)

theorem Value.nodeIds_walk_le : ∀ value : Value, nodeIds value.walk ≤ value.names
  | .expr _ => le_refl _
  | .content _ nodes => by
    rw [Value.walk, Value.names]
    exact TemplateMarkup.nodeIds_walk_le nodes

theorem nodeIds_walkParams_le : ∀ params : List Param,
    nodeIds (walkParams params) ≤ paramsNames params
  | [] => le_refl _
  | p :: params => by
    rw [walkParams, paramsNames]
    exact nodeIds_append_le p.nodeIds_walk_le (nodeIds_walkParams_le params)

theorem Param.nodeIds_walk_le : ∀ p : Param, nodeIds p.walk ≤ p.names
  | ⟨id, s, name, value⟩ => by
    rw [Param.walk, Param.names]
    exact nodeIds_le_append value.nodeIds_walk_le

theorem nodeIds_walkBranches_le : ∀ branches : List Branch,
    nodeIds (walkBranches branches) ≤ branchesNames branches
  | [] => le_refl _
  | b :: branches => by
    rw [walkBranches, branchesNames]
    exact nodeIds_append_le b.nodeIds_walk_le (nodeIds_walkBranches_le branches)

theorem Branch.nodeIds_walk_le : ∀ b : Branch, nodeIds b.walk ≤ b.names
  | ⟨id, kind, nodes⟩ => by
    rw [Branch.walk, Branch.names]
    exact nodeIds_le_append (TemplateMarkup.nodeIds_walk_le nodes)

end

/-- **Where all names differ, a node is the only one of its name.** -/
theorem occurrences_of_nodup {nodes : List Node} (h : (treeNames nodes).Nodup) {n : Node}
    (hn : n ∈ walk nodes) (ha : n.isAuthored = true) : occurrences n.id nodes = [n] := by
  have hnodup : ((walk nodes).map Node.id).Nodup := by
    have := Multiset.nodup_of_le (nodeIds_walk_le nodes) (Multiset.coe_nodup.mpr h)
    exact Multiset.coe_nodup.mp this
  have hsub : (occurrences n.id nodes).Sublist (walk nodes) := List.filter_sublist
  have hmem : n ∈ occurrences n.id nodes := by
    rw [occurrences, List.mem_filter]
    simp [hn, ha]
  -- two of them would stand at two places of the walk with one name
  have hids : ((occurrences n.id nodes).map Node.id).Nodup := hnodup.sublist (hsub.map _)
  have hall : ∀ m ∈ occurrences n.id nodes, m.id = n.id := by
    intro m hm
    rw [occurrences, List.mem_filter] at hm
    simpa using (Bool.and_eq_true_iff.mp hm.2).2
  generalize occurrences n.id nodes = l at *
  rcases l with _ | ⟨m, _ | ⟨m', l⟩⟩
  · cases hmem
  · rw [List.mem_singleton] at hmem
    rw [hmem]
  · have h1 := hall m (by simp)
    have h2 := hall m' (by simp)
    simp [h1, h2] at hids

/-! ## 3. Bodies -/

/-- The names in the finished parts of an open construct. -/
def Frame.names : Frame → List NodeId
  | call _ _ params | paramBody _ _ params _ _ _ => paramsNames params.reverse
  | ifBranch _ branches _ | switchBranch _ _ branches _ | forEmpty _ _ _ branches =>
    branchesNames branches.reverse
  | _ => []

/-- The names in open constructs and before them. -/
def framesNames : List (Frame × List Node) → List NodeId
  | [] => []
  | (frame, outer) :: frames => framesNames frames ++ treeNames outer.reverse ++ frame.names

/-- The names in what has been read of a body. -/
def Body.names (b : Body) : List NodeId :=
  framesNames b.frames ++ treeNames b.nodes.reverse

/-- Going from one body to another took `n` names from the source, and the names in the second
are those in the first, `extra`, and some of those taken, in order. -/
structure Body.Draws (b : Body) (extra : List NodeId) (n : Nat) (b' : Body) : Prop where
  few : n ≤ 2
  names : b'.names.Sublist (b.names ++ extra ++ b.ids.taken n)
  ids : b'.ids = b.ids.after n

namespace Body

theorem names_enter (b : Body) (frame : Frame) :
    (b.enter frame).names = b.names ++ frame.names := by
  simp [names, enter, framesNames, treeNames]

theorem names_add (b : Body) (node : NodeId → Node) :
    (b.add node).names = b.names ++ (node b.ids.next).names := by
  simp [names, add, treeNames_append, treeNames]

/-- A construct is opened, or goes on. -/
theorem draws_enter (b : Body) {frame : Frame} {extra : List NodeId}
    (h : frame.names.Sublist extra) : b.Draws extra 0 (b.enter frame) where
  few := by omega
  names := by
    rw [names_enter, IdSource.taken, List.append_nil]
    exact (List.Sublist.refl _).append h
  ids := rfl

/-- A construct goes on after a branch or a parameter, whose name is the next one. -/
theorem draws_part (b : Body) {frame : Frame} {extra kept : List NodeId}
    (h : frame.names = kept ++ [b.ids.next]) (hk : kept.Sublist extra) :
    b.Draws extra 1 ({ b with ids := b.ids.rest }.enter frame) where
  few := by omega
  names := by
    rw [names_enter, h, ← List.append_assoc]
    exact ((List.Sublist.refl _).append hk).append (List.Sublist.refl _)
  ids := rfl

/-- A node is finished. -/
theorem draws_add (b : Body) {node : NodeId → Node} {extra kept : List NodeId}
    (h : (node b.ids.next).names = kept ++ [b.ids.next]) (hk : kept.Sublist extra) :
    b.Draws extra 1 (b.add node) where
  few := by omega
  names := by
    rw [names_add, h, ← List.append_assoc]
    exact ((List.Sublist.refl _).append hk).append (List.Sublist.refl _)
  ids := rfl

/-- A node is finished with its last branch. -/
theorem draws_last (b : Body) {node : NodeId → Node} {extra : List NodeId}
    (h : (node b.ids.rest.next).names = extra ++ [b.ids.next] ++ [b.ids.rest.next]) :
    b.Draws extra 2 ({ b with ids := b.ids.rest }.add node) where
  few := by omega
  names := by
    rw [names_add, h, List.append_assoc extra, ← List.append_assoc]
    exact List.Sublist.refl _
  ids := rfl

end Body

theorem branchesNames_reverse_cons (b : Branch) (branches : List Branch) :
    branchesNames (b :: branches).reverse
      = branchesNames branches.reverse ++ treeNames b.nodes ++ [b.id] := by
  obtain ⟨id, kind, nodes⟩ := b
  simp [branchesNames_append, branchesNames, Branch.names]

theorem paramsNames_reverse_cons (p : Param) (params : List Param) :
    paramsNames (p :: params).reverse
      = paramsNames params.reverse ++ p.value.names ++ [p.id] := by
  obtain ⟨id, location, name, value⟩ := p
  simp [paramsNames_append, paramsNames, Param.names]

/-- **A command that ends a body keeps the names in it**, text between parameters aside. -/
theorem Frame.resume_draws {b b' : Body} {inner : List Node} {command : Command} {location : Span}
    {frame : Frame} (h : frame.resume b inner command location = .ok b') :
    ∃ n, b.Draws (frame.names ++ treeNames inner.reverse) n b' := by
  have front {l l' : List NodeId} : l.Sublist (l ++ l') := List.sublist_append_left _ _
  have all {l : List NodeId} : l.Sublist l := List.Sublist.refl _
  -- a branch ends, and another begins or the node is finished
  have branch (branches : List Branch) (kind : BranchKind) :
      branchesNames (⟨b.ids.next, kind, inner.reverse⟩ :: branches).reverse
        = branchesNames branches.reverse ++ treeNames inner.reverse ++ [b.ids.next] :=
    branchesNames_reverse_cons ..
  have last (opener : Span) (head : FlowHead) (branches : List Branch) (kind : BranchKind) :
      (flowNode opener location head (⟨b.ids.next, kind, inner.reverse⟩ :: branches)
        b.ids.rest.next).names
        = branchesNames branches.reverse ++ treeNames inner.reverse ++ [b.ids.next]
          ++ [b.ids.rest.next] := by
    rw [flowNode, Node.names, Flow.names, branch]
  cases frame with
  | letBody opener var kind =>
    cases of_expectClose h
    exact ⟨1, b.draws_add rfl all⟩
  | call opener callee params =>
    have h := of_expectBlank h
    dsimp only at h
    split at h
    · cases h
      refine ⟨1, b.draws_part ?_ front⟩
      rw [Frame.names, paramsNames_reverse_cons, Value.names, List.append_nil]
      rfl
    · cases h
      exact ⟨0, b.draws_enter front⟩
    · cases of_expectClose h
      exact ⟨1, b.draws_add rfl front⟩
  | paramBody opener callee params paramOpener name kind =>
    cases of_expectClose h
    refine ⟨1, b.draws_part ?_ all⟩
    rw [Frame.names, paramsNames_reverse_cons, Value.names]
    rfl
  | ifBranch opener branches kind =>
    simp only [resume] at h
    split at h
    · split at h <;> cases h
      exact ⟨1, b.draws_part (branch ..) all⟩
    · split at h <;> cases h
      exact ⟨1, b.draws_part (branch ..) all⟩
    · cases of_expectClose h
      exact ⟨2, b.draws_last (last ..)⟩
  | switchHead opener expr =>
    have h := of_expectBlank h
    split at h
    · cases h
      exact ⟨0, b.draws_enter (List.nil_sublist _)⟩
    · cases h
      exact ⟨0, b.draws_enter (List.nil_sublist _)⟩
    · cases of_expectClose h
      exact ⟨1, b.draws_add rfl (List.nil_sublist _)⟩
  | switchBranch opener expr branches kind =>
    simp only [resume] at h
    split at h
    · split at h <;> cases h
      exact ⟨1, b.draws_part (branch ..) all⟩
    · split at h <;> cases h
      exact ⟨1, b.draws_part (branch ..) all⟩
    · cases of_expectClose h
      exact ⟨2, b.draws_last (last ..)⟩
  | forBody opener var expr =>
    simp only [resume] at h
    split at h
    · cases h
      exact ⟨1, b.draws_part (branch ..) all⟩
    · cases of_expectClose h
      exact ⟨2, b.draws_last (last ..)⟩
  | forEmpty opener var expr branches =>
    cases of_expectClose h
    exact ⟨2, b.draws_last (last ..)⟩

namespace Body

/-- What is inside the innermost construct comes after what is around it. -/
theorem draws_of_resume {b b' : Body} {frame : Frame} {outer : List Node}
    {frames : List (Frame × List Node)} {n : Nat} (hf : b.frames = (frame, outer) :: frames)
    (h : Body.Draws { b with nodes := outer, frames := frames }
      (frame.names ++ treeNames b.nodes.reverse) n b') : b.Draws [] n b' where
  few := h.few
  names := by
    have hb : b.names = Body.names { b with nodes := outer, frames := frames }
        ++ (frame.names ++ treeNames b.nodes.reverse) := by
      simp only [names, hf, framesNames, List.append_assoc]
    rw [List.append_nil, hb]
    exact h.names
  ids := h.ids

/-- **A token keeps the names that are there**, and those it takes come after them. -/
theorem step_draws {b b' : Body} {token : Token} (h : b.step token = .ok b') :
    ∃ n, b.Draws [] n b' := by
  have all {l : List NodeId} : l.Sublist l := List.Sublist.refl _
  have same {b' : Body} (hn : b'.names = b.names) (hi : b'.ids = b.ids) : b.Draws [] 0 b' :=
    ⟨by omega, by simp [hn, IdSource.taken], hi⟩
  cases token with
  | text text location =>
    cases h
    exact ⟨1, b.draws_add rfl all⟩
  | command command location =>
    simp only [step] at h
    split at h
    case h_12 =>
      unfold endPart at h
      split at h
      · cases h
      · next hf =>
        obtain ⟨n, hd⟩ := Frame.resume_draws h
        exact ⟨n, draws_of_resume hf hd⟩
    all_goals cases h
    all_goals first
      | exact ⟨1, b.draws_add rfl all⟩
      | exact ⟨0, b.draws_enter all⟩
      | exact ⟨0, same rfl rfl⟩

/-- The number of names that tokens take. -/
def draws (b : Body) : List Token → Nat
  | [] => 0
  | token :: tokens =>
    match b.step token with
    | .ok b' => b.ids.gap b'.ids + b'.draws tokens
    | .error _ => 0

/-- **Reading draws names in order**, and those that are kept are some of them. -/
theorem readScan_draws : ∀ (tokens : List Token) (error : Option SyntaxError) {b b' : Body},
    b.readScan tokens error = .ok b' →
    b'.names.Sublist (b.names ++ b.ids.taken (b.draws tokens))
      ∧ b'.ids = b.ids.after (b.draws tokens)
  | [], none, b, b', h => by
    cases h
    exact ⟨by simp [draws, IdSource.taken], rfl⟩
  | [], some error, b, b', h => by cases h
  | token :: tokens, error, b, b', h => by
    rw [readScan] at h
    cases hs : b.step token with
    | error r =>
      rw [hs] at h
      cases h
    | ok b₁ =>
      rw [hs] at h
      obtain ⟨n, hd⟩ := step_draws hs
      obtain ⟨hnames, hids⟩ := readScan_draws tokens error h
      have hgap : b.ids.gap b₁.ids = n := by
        have := hd.few
        rw [hd.ids]
        exact b.ids.gap_after (by omega)
      rw [draws, hs]
      dsimp only
      rw [hgap, IdSource.taken_add, IdSource.after_add, ← hd.ids]
      refine ⟨hnames.trans ?_, hids⟩
      rw [← List.append_assoc]
      refine List.Sublist.append ?_ all
      simpa using hd.names
where
  all {l : List NodeId} : l.Sublist l := List.Sublist.refl _

end Body

/-! ## 4. Templates -/

/-- The number of names that reading a source as a template body takes, that of the template
included. -/
def Template.draws (src : Text) (ids : IdSource) : Nat :=
  (Body.empty ids).draws (Token.scan 0 src).1 + 1

/-- **The names in a template are some of those drawn**, and the template's own is the last. -/
theorem Template.names_sublist {src : Text} {kind : ContentKind} {ids ids' : IdSource}
    {t : Template} (h : Template.read src kind ids = .ok (t, ids')) :
    (treeNames t.nodes ++ [t.id]).Sublist (ids.taken (Template.draws src ids))
      ∧ ids' = ids.after (Template.draws src ids) := by
  obtain ⟨body, hscan, hf, hnodes, hid, _, rfl⟩ := Template.body_of_read h
  obtain ⟨hnames, hids⟩ := Body.readScan_draws _ _ hscan
  have hids : body.ids = ids.after ((Body.empty ids).draws (Token.scan 0 src).1) := hids
  rw [draws, IdSource.taken_add, IdSource.after_add, ← hids, hnodes, hid]
  refine ⟨List.Sublist.append ?_ (List.Sublist.refl _), rfl⟩
  simpa [Body.names, hf, framesNames, Body.empty, treeNames] using hnames

/-- **A node of a template is the only one of its name**, if names have not started over. -/
theorem Template.occurrences_of_read {src : Text} {kind : ContentKind} {ids ids' : IdSource}
    {t : Template} (h : Template.read src kind ids = .ok (t, ids'))
    (hd : Template.draws src ids < 2 ^ 32) {n : Node} (hn : n ∈ walk t.nodes)
    (ha : n.isAuthored = true) : occurrences n.id t.nodes = [n] := by
  refine occurrences_of_nodup ?_ hn ha
  have hsub := (List.sublist_append_left _ _).trans (Template.names_sublist h).1
  exact (ids.taken_nodup hd.le).sublist hsub

end TemplateMarkup
