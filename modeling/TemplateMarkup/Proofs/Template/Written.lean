/-
# What reading gives

A template that has been read holds text, prints, calls, bindings and control flow, at every depth,
and no node of html (`Template.written_of_read`): those come from giving structure to html alone.
-/
import TemplateMarkup.Template.Read
import TemplateMarkup.Tree.Walk

namespace TemplateMarkup

/-! ## 1. Nodes of the source -/

/-- Text, a print, a call, a binding or control flow. -/
def Node.isWritten : Node → Bool
  | .raw .. | .print .. | .call .. | .binding .. | .flow _ => true
  | _ => false

/-- The nodes and all that is in them are nodes of the source. -/
def AllWritten (nodes : List Node) : Prop := ∀ n ∈ walk nodes, n.isWritten = true

/-- What is in a value is of the source. -/
def Value.Written (v : Value) : Prop := ∀ n ∈ v.walk, n.isWritten = true

/-- What is in parameters is of the source. -/
def WrittenParams (params : List Param) : Prop := ∀ n ∈ walkParams params, n.isWritten = true

/-- What is in branches is of the source. -/
def WrittenBranches (branches : List Branch) : Prop :=
  ∀ n ∈ walkBranches branches, n.isWritten = true

theorem written_nil : AllWritten [] := by
  simp [AllWritten, walk]

theorem written_cons {n : Node} {nodes : List Node} :
    AllWritten (n :: nodes) ↔ (∀ m ∈ n.walk, m.isWritten = true) ∧ AllWritten nodes := by
  simp only [AllWritten, walk, List.mem_append, or_imp, forall_and]

theorem written_append {l l' : List Node} : AllWritten (l ++ l') ↔ AllWritten l ∧ AllWritten l' := by
  induction l with
  | nil => simp [written_nil]
  | cons n l ih => rw [List.cons_append, written_cons, written_cons, ih, and_assoc]

theorem written_reverse {nodes : List Node} : AllWritten nodes.reverse ↔ AllWritten nodes := by
  induction nodes with
  | nil => rfl
  | cons n nodes ih =>
    rw [List.reverse_cons, written_append, ih, written_cons, written_cons]
    simp only [written_nil, and_true]
    exact and_comm

theorem writtenParams_reverse_cons {p : Param} {params : List Param} :
    WrittenParams (p :: params).reverse ↔ p.value.Written ∧ WrittenParams params.reverse := by
  have happ (l : List Param) : walkParams (l ++ [p]) = walkParams l ++ p.value.walk := by
    induction l with
    | nil =>
      obtain ⟨id, s, name, value⟩ := p
      simp [walkParams, Param.walk]
    | cons q l ih => simp [walkParams, ih]
  rw [List.reverse_cons, WrittenParams, happ]
  simp only [List.mem_append, or_imp, forall_and]
  exact and_comm

theorem writtenBranches_reverse_cons {b : Branch} {branches : List Branch} :
    WrittenBranches (b :: branches).reverse
      ↔ AllWritten b.nodes ∧ WrittenBranches branches.reverse := by
  have happ (l : List Branch) : walkBranches (l ++ [b]) = walkBranches l ++ walk b.nodes := by
    induction l with
    | nil =>
      obtain ⟨id, kind, nodes⟩ := b
      simp [walkBranches, Branch.walk]
    | cons q l ih => simp [walkBranches, ih]
  rw [List.reverse_cons, WrittenBranches, happ]
  simp only [List.mem_append, or_imp, forall_and]
  exact and_comm

/-! ## 2. Walks -/

/-- With each node a list has all that is in it. -/
def WalkClosed (l : List Node) : Prop := ∀ m ∈ l, m.walk ⊆ l

theorem WalkClosed.append {l l' : List Node} (h : WalkClosed l) (h' : WalkClosed l') :
    WalkClosed (l ++ l') := by
  intro m hm
  rcases List.mem_append.mp hm with hm | hm
  · exact fun k hk => List.mem_append_left _ (h m hm hk)
  · exact fun k hk => List.mem_append_right _ (h' m hm hk)

theorem WalkClosed.cons {n : Node} {inner : List Node} (hn : n.walk = n :: inner)
    (h : WalkClosed inner) : WalkClosed (n :: inner) := by
  intro m hm
  rcases List.mem_cons.mp hm with rfl | hm
  · rw [hn]
    exact fun _ hk => hk
  · exact fun k hk => List.mem_cons_of_mem _ (h m hm hk)

theorem walkClosed_nil : WalkClosed [] := nofun

mutual

/-- **The nodes in a node of a walk are in the walk.** -/
theorem Node.walkClosed : ∀ n : Node, WalkClosed n.walk
  | .raw id s t => by
    rw [Node.walk]
    exact .cons (by rw [Node.walk]) walkClosed_nil
  | .print id s e => by
    rw [Node.walk]
    exact .cons (by rw [Node.walk]) walkClosed_nil
  | .call id s callee params => by
    rw [Node.walk]
    exact .cons (by rw [Node.walk]) (walkClosed_params params)
  | .binding id s var value => by
    rw [Node.walk]
    exact .cons (by rw [Node.walk]) value.walkClosed
  | .flow ⟨id, s, head, branches⟩ => by
    rw [Node.walk, Flow.walk]
    exact .cons (by rw [Node.walk, Flow.walk]) (walkClosed_branches branches)
  | .openTag id s name children selfClosing => by
    rw [Node.walk]
    exact .cons (by rw [Node.walk]) (name.walkClosed.append (walkClosed_nodes children))
  | .closeTag id s name => by
    rw [Node.walk]
    exact .cons (by rw [Node.walk]) name.walkClosed
  | .attr id s name none => by
    rw [Node.walk]
    exact .cons (by rw [Node.walk]) name.walkClosed
  | .attr id s name (some value) => by
    rw [Node.walk]
    exact .cons (by rw [Node.walk]) (name.walkClosed.append value.walkClosed)
  | .attrValue id s quotes children => by
    rw [Node.walk]
    exact .cons (by rw [Node.walk]) (walkClosed_nodes children)
  | .comment id s children => by
    rw [Node.walk]
    exact .cons (by rw [Node.walk]) (walkClosed_nodes children)

theorem walkClosed_nodes : ∀ nodes : List Node, WalkClosed (walk nodes)
  | [] => by
    rw [walk]
    exact walkClosed_nil
  | n :: nodes => by
    rw [walk]
    exact n.walkClosed.append (walkClosed_nodes nodes)

theorem Value.walkClosed : ∀ value : Value, WalkClosed value.walk
  | .expr _ => by
    rw [Value.walk]
    exact walkClosed_nil
  | .content _ nodes => by
    rw [Value.walk]
    exact walkClosed_nodes nodes

theorem walkClosed_params : ∀ params : List Param, WalkClosed (walkParams params)
  | [] => by
    rw [walkParams]
    exact walkClosed_nil
  | ⟨id, s, name, value⟩ :: params => by
    rw [walkParams, Param.walk]
    exact value.walkClosed.append (walkClosed_params params)

theorem walkClosed_branches : ∀ branches : List Branch, WalkClosed (walkBranches branches)
  | [] => by
    rw [walkBranches]
    exact walkClosed_nil
  | ⟨id, kind, nodes⟩ :: branches => by
    rw [walkBranches, Branch.walk]
    exact (walkClosed_nodes nodes).append (walkClosed_branches branches)

end

/-- A node is in its own walk. -/
theorem Node.mem_walk (n : Node) : n ∈ n.walk := by
  cases n with
  | attr id s name value => cases value <;> rw [Node.walk] <;> exact List.mem_cons_self
  | _ => rw [Node.walk]; exact List.mem_cons_self

/-- Nodes are in their own walk. -/
theorem subset_walk (nodes : List Node) : nodes ⊆ walk nodes := by
  induction nodes with
  | nil => exact nofun
  | cons n nodes ih =>
    rw [walk]
    intro m hm
    rcases List.mem_cons.mp hm with rfl | hm
    · exact List.mem_append_left _ m.mem_walk
    · exact List.mem_append_right _ (ih hm)

/-! ## 3. Bodies -/

/-- What is in the finished parts of an open construct is of the source. -/
def Frame.Written : Frame → Prop
  | call _ _ params | paramBody _ _ params _ _ _ => WrittenParams params.reverse
  | ifBranch _ branches _ | switchBranch _ _ branches _ | forEmpty _ _ _ branches =>
    WrittenBranches branches.reverse
  | _ => True

/-- What has been read of a body is of the source. -/
structure Body.Written (b : Body) : Prop where
  nodes : AllWritten b.nodes
  frames : ∀ f ∈ b.frames, f.1.Written ∧ AllWritten f.2

namespace Body

theorem Written.add {b : Body} (h : b.Written) {node : NodeId → Node}
    (hn : ∀ m ∈ (node b.ids.next).walk, m.isWritten = true) : (b.add node).Written :=
  ⟨written_cons.mpr ⟨hn, h.nodes⟩, h.frames⟩

theorem Written.enter {b : Body} (h : b.Written) {frame : Frame} (hf : frame.Written) :
    (b.enter frame).Written where
  nodes := written_nil
  frames := by
    intro f hm
    rcases List.mem_cons.mp hm with rfl | hm
    · exact ⟨hf, h.nodes⟩
    · exact h.frames f hm

theorem Written.ids {b : Body} (h : b.Written) (ids : IdSource) :
    ({ b with ids := ids } : Body).Written := ⟨h.nodes, h.frames⟩

end Body

theorem writtenParams_nil : WrittenParams [] := by
  simp [WrittenParams, walkParams]

theorem writtenBranches_nil : WrittenBranches [] := by
  simp [WrittenBranches, walkBranches]

/-- A node with nothing in it but what is of the source. -/
theorem isWritten_of_cons {n m : Node} {inner : List Node} (hn : n.isWritten = true)
    (h : ∀ k ∈ inner, k.isWritten = true) (hm : m ∈ n :: inner) : m.isWritten = true := by
  rcases List.mem_cons.mp hm with rfl | hm
  · exact hn
  · exact h m hm

theorem of_expectClose {α : Type} {ids : IdSource} {name : String} {command : Command}
    {location : Span} {f : Unit → Except Rejection α} {r : α}
    (h : (expectClose ids name command location >>= f) = .ok r) : f () = .ok r := by
  unfold expectClose at h
  split at h
  · exact h
  · cases h

theorem of_expectBlank {α : Type} {ids : IdSource} {name : String} {nodes : List Node}
    {f : Unit → Except Rejection α} {r : α}
    (h : (expectBlank ids name nodes >>= f) = .ok r) : f () = .ok r := by
  unfold expectBlank at h
  split at h
  · exact h
  · cases h

/-- **A command that ends a body leaves only nodes of the source.** -/
theorem Frame.written_resume {b b' : Body} {inner : List Node} {command : Command}
    {location : Span} {frame : Frame} (h : frame.resume b inner command location = .ok b')
    (hb : b.Written) (hf : frame.Written) (hi : AllWritten inner) : b'.Written := by
  have hi := written_reverse.mpr hi
  have flow (opener : Span) (head : FlowHead) {branches : List Branch} (ids : IdSource)
      (hbr : WrittenBranches branches.reverse) :
      (Body.add { b with ids := ids } (flowNode opener location head branches)).Written := by
    refine (hb.ids ids).add fun m hm => ?_
    rw [flowNode, Node.walk, Flow.walk] at hm
    exact isWritten_of_cons rfl hbr hm
  have branch {branches : List Branch} (kind : BranchKind)
      (hbr : WrittenBranches branches.reverse) :
      WrittenBranches (⟨b.ids.next, kind, inner.reverse⟩ :: branches).reverse :=
    writtenBranches_reverse_cons.mpr ⟨hi, hbr⟩
  cases frame with
  | letBody opener var kind =>
    cases of_expectClose h
    refine hb.add fun m hm => ?_
    rw [Node.walk] at hm
    exact isWritten_of_cons rfl hi hm
  | call opener callee params =>
    have h := of_expectBlank h
    dsimp only at h
    split at h
    · cases h
      refine (hb.ids _).enter (writtenParams_reverse_cons.mpr ⟨?_, hf⟩)
      simp [Value.Written, Value.walk]
    · cases h
      exact hb.enter hf
    · cases of_expectClose h
      refine hb.add fun m hm => ?_
      rw [Node.walk] at hm
      exact isWritten_of_cons rfl hf hm
  | paramBody opener callee params paramOpener name kind =>
    cases of_expectClose h
    refine (hb.ids _).enter (writtenParams_reverse_cons.mpr ⟨?_, hf⟩)
    rw [Value.Written, Value.walk]
    exact hi
  | ifBranch opener branches kind =>
    simp only [resume] at h
    split at h
    · split at h <;> cases h
      exact (hb.ids _).enter (branch kind hf)
    · split at h <;> cases h
      exact (hb.ids _).enter (branch kind hf)
    · cases of_expectClose h
      exact flow opener _ _ (branch kind hf)
  | switchHead opener expr =>
    have h := of_expectBlank h
    split at h
    · cases h
      exact hb.enter writtenBranches_nil
    · cases h
      exact hb.enter writtenBranches_nil
    · cases of_expectClose h
      exact flow opener _ b.ids writtenBranches_nil
  | switchBranch opener expr branches kind =>
    simp only [resume] at h
    split at h
    · split at h <;> cases h
      exact (hb.ids _).enter (branch kind hf)
    · split at h <;> cases h
      exact (hb.ids _).enter (branch kind hf)
    · cases of_expectClose h
      exact flow opener _ _ (branch kind hf)
  | forBody opener var expr =>
    simp only [resume] at h
    split at h
    · cases h
      exact (hb.ids _).enter (branch .loopBody writtenBranches_nil)
    · cases of_expectClose h
      exact flow opener _ _ (branch .loopBody writtenBranches_nil)
  | forEmpty opener var expr branches =>
    cases of_expectClose h
    exact flow opener _ _ (branch .default hf)

namespace Body

/-- **So does every token.** -/
theorem written_step {b b' : Body} {token : Token} (h : b.step token = .ok b')
    (hb : b.Written) : b'.Written := by
  have leaf {node : NodeId → Node} (hw : (node b.ids.next).walk = [node b.ids.next])
      (hn : (node b.ids.next).isWritten = true) : (b.add node).Written := by
    refine hb.add fun m hm => ?_
    rw [hw, List.mem_singleton] at hm
    rw [hm]
    exact hn
  cases token with
  | text text location =>
    cases h
    exact leaf rfl rfl
  | command command location =>
    simp only [step] at h
    split at h
    case h_12 =>
      unfold endPart at h
      split at h
      · cases h
      · next frame outer frames hf =>
        have hframe := hb.frames (frame, outer) (by rw [hf]; exact List.mem_cons_self)
        refine Frame.written_resume h ⟨hframe.2, fun f hm => hb.frames f ?_⟩ hframe.1 hb.nodes
        rw [hf]
        exact List.mem_cons_of_mem _ hm
    all_goals cases h
    all_goals first
      | exact hb
      | exact leaf rfl rfl
      | exact hb.enter trivial
      | exact hb.enter writtenParams_nil
      | exact hb.enter writtenBranches_nil
      | exact ⟨hb.nodes, hb.frames⟩

theorem written_readScan : ∀ (tokens : List Token) (error : Option SyntaxError) {b b' : Body},
    b.readScan tokens error = .ok b' → b.Written → b'.Written
  | [], none, b, b', h, hb => by
    cases h
    exact hb
  | [], some error, b, b', h, hb => by cases h
  | token :: tokens, error, b, b', h, hb => by
    rw [readScan] at h
    cases hs : b.step token with
    | error r =>
      rw [hs] at h
      cases h
    | ok b₁ =>
      rw [hs] at h
      exact written_readScan tokens error h (written_step hs hb)

end Body

/-! ## 4. Templates -/

/-- What can be checked of a result holds of one. -/
theorem exists_ok_of_any {ε α : Type} {r : Except ε α} {p : α → Bool}
    (h : r.toOption.any p = true) : ∃ a, r = .ok a ∧ p a = true := by
  cases r with
  | error e => cases h
  | ok a => exact ⟨a, rfl, h⟩

/-- What a template that has been read was read from: a body without open constructs. -/
theorem Template.body_of_read {src : Text} {kind : ContentKind} {ids ids' : IdSource}
    {t : Template} (h : Template.read src kind ids = .ok (t, ids')) :
    ∃ body, (Body.empty ids).readScan (Token.scan 0 src).1 (Token.scan 0 src).2 = .ok body
      ∧ body.frames = [] ∧ t.nodes = body.nodes.reverse ∧ t.id = body.ids.next
      ∧ t.kind = kind ∧ ids' = body.ids.rest := by
  unfold Template.read at h
  dsimp only at h
  cases hscan : (Body.empty ids).readScan (Token.scan 0 src).1 (Token.scan 0 src).2 with
  | error r =>
    rw [hscan] at h
    cases h
  | ok body =>
    rw [hscan] at h
    cases hf : body.frames with
    | cons frame frames =>
      simp only [bind, Except.bind, Body.finish, hf] at h
      cases h
    | nil =>
      simp only [bind, Except.bind, Body.finish, hf] at h
      cases h
      exact ⟨body, rfl, hf, rfl, rfl, rfl, rfl⟩

/-- **A template that has been read holds only nodes of the source.** -/
theorem Template.written_of_read {src : Text} {kind : ContentKind} {ids ids' : IdSource}
    {t : Template} (h : Template.read src kind ids = .ok (t, ids')) : AllWritten t.nodes := by
  obtain ⟨body, hscan, _, hnodes, _⟩ := Template.body_of_read h
  rw [hnodes]
  exact written_reverse.mpr (Body.written_readScan _ _ hscan ⟨written_nil, nofun⟩).nodes

end TemplateMarkup
