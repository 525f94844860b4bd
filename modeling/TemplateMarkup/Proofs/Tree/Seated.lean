/-
# Where the nodes of a tree stand

A span is sound for a source if it is a stretch of whole characters of it.  A node is seated if its
own place is sound and, as long as nothing has been reported, every stretch of it (its tag, the
parameters of a call) lies in it and the nodes of a stretch lie in the stretch.

Seating speaks of a node and the nodes directly in it.  Where all nodes of a tree are seated, each
lies in every node around it (`Node.SeatedDeep.within`).
-/
import Mathlib.Order.MinMax
import Mathlib.Data.Nat.Basic
import TemplateMarkup.Html.Rewrite
import TemplateMarkup.Proofs.Template.Written

namespace TemplateMarkup

/-! ## 1. Offsets of a source -/

namespace Text

/-- The offset is that of a character of the source, or of its end. -/
def Boundary (src : Text) (offset : Nat) : Prop :=
  ∃ before after, src = before ++ after ∧ size before = offset

theorem Boundary.le_size {src : Text} {offset : Nat} (h : src.Boundary offset) :
    offset ≤ src.size := by
  obtain ⟨before, after, rfl, rfl⟩ := h
  rw [size_append]
  exact Nat.le_add_right ..

theorem boundary_append (before after : Text) : (before ++ after).Boundary before.size :=
  ⟨before, after, rfl, rfl⟩

theorem boundary_zero (src : Text) : src.Boundary 0 := boundary_append [] src

theorem boundary_size (src : Text) : src.Boundary src.size := ⟨src, [], by simp, rfl⟩

/-- The offset is that of a character and, if `clean`, it lies between two others. -/
def Offset (src : Text) (clean : Prop) (lo hi offset : Nat) : Prop :=
  src.Boundary offset ∧ (clean → lo ≤ offset ∧ offset ≤ hi)

section

variable {src : Text} {clean : Prop} {lo lo' hi hi' i j : Nat}

theorem Offset.mono (h : src.Offset clean lo hi i) (hlo : clean → lo' ≤ lo)
    (hhi : clean → hi ≤ hi') : src.Offset clean lo' hi' i :=
  ⟨h.1, fun hc => ⟨(hlo hc).trans (h.2 hc).1, (h.2 hc).2.trans (hhi hc)⟩⟩

theorem Offset.min (hi₁ : src.Offset clean lo hi i) (hj : src.Offset clean lo hi j) :
    src.Offset clean lo hi (min i j) := by
  rcases min_choice i j with h | h <;> rw [h] <;> assumption

theorem Offset.max (hi₁ : src.Offset clean lo hi i) (hj : src.Offset clean lo hi j) :
    src.Offset clean lo hi (max i j) := by
  rcases max_choice i j with h | h <;> rw [h] <;> assumption

end

end Text

/-! ## 2. Spans of a source -/

namespace Span

/-- A stretch of whole characters of the source. -/
structure Sound (src : Text) (s : Span) : Prop where
  start_le_stop : s.start ≤ s.stop
  stop_le_size : s.stop ≤ src.size
  start_boundary : src.Boundary s.start
  stop_boundary : src.Boundary s.stop

/-- The span does not begin before the other, nor end after it. -/
def Within (s t : Span) : Prop := t.start ≤ s.start ∧ s.stop ≤ t.stop

/-- The span is a stretch of whole characters and, if `clean`, it lies between two offsets. -/
def Lies (src : Text) (clean : Prop) (lo hi : Nat) (s : Span) : Prop :=
  src.Offset clean lo hi s.start ∧ src.Offset clean lo hi s.stop

theorem Within.trans {s t u : Span} (h : s.Within t) (h' : t.Within u) : s.Within u :=
  ⟨h'.1.trans h.1, h.2.trans h'.2⟩

section

variable {src : Text} {clean : Prop} {lo lo' hi hi' : Nat} {s t : Span}

theorem sound_of_boundary (h : src.Boundary s.start) (h' : src.Boundary s.stop) : s.Sound src :=
  ⟨s.start_le_stop, h'.le_size, h, h'⟩

theorem Lies.sound (h : s.Lies src clean lo hi) : s.Sound src := sound_of_boundary h.1.1 h.2.1

theorem Lies.within (h : s.Lies src clean t.start t.stop) (hc : clean) : s.Within t :=
  ⟨(h.1.2 hc).1, (h.2.2 hc).2⟩

theorem Sound.lies (h : s.Sound src) (hlo : clean → lo ≤ s.start) (hhi : clean → s.stop ≤ hi) :
    s.Lies src clean lo hi :=
  ⟨⟨h.start_boundary, fun hc => ⟨hlo hc, h.start_le_stop.trans (hhi hc)⟩⟩,
    ⟨h.stop_boundary, fun hc => ⟨(hlo hc).trans h.start_le_stop, hhi hc⟩⟩⟩

theorem Lies.mono (h : s.Lies src clean lo hi) (hlo : clean → lo' ≤ lo)
    (hhi : clean → hi ≤ hi') : s.Lies src clean lo' hi' := ⟨h.1.mono hlo hhi, h.2.mono hlo hhi⟩

theorem Lies.union (h : s.Lies src clean lo hi) (h' : t.Lies src clean lo hi) :
    (s.union t).Lies src clean lo hi := ⟨h.1.min h'.1, h.2.max h'.2⟩

theorem lies_upTo {start stop : Nat} (h : src.Offset clean lo hi start)
    (h' : src.Offset clean lo hi stop) : (upTo start stop).Lies src clean lo hi := ⟨h, h.max h'⟩

theorem sound_upTo {start stop : Nat} (h : src.Boundary start) (h' : src.Boundary stop) :
    (upTo start stop).Sound src := by
  have : (upTo start stop).Lies src False 0 0 := lies_upTo ⟨h, nofun⟩ ⟨h', nofun⟩
  exact this.sound

theorem sound_point {offset : Nat} (h : src.Boundary offset) : (point offset).Sound src :=
  sound_of_boundary h h

end

/-- The spans come one after the other between two offsets. -/
def Between (lo : Nat) : List Span → Nat → Prop
  | [], hi => lo ≤ hi
  | s :: spans, hi => lo ≤ s.start ∧ Between s.stop spans hi

theorem Between.le {lo hi : Nat} : ∀ {spans : List Span}, Between lo spans hi → lo ≤ hi
  | [], h => h
  | s :: _, h => h.1.trans (s.start_le_stop.trans h.2.le)

theorem Between.mono {lo lo' hi hi' : Nat} : ∀ {spans : List Span}, Between lo spans hi →
    lo' ≤ lo → hi ≤ hi' → Between lo' spans hi'
  | [], h, hlo, hhi => hlo.trans (Nat.le_trans h hhi)
  | _ :: _, h, hlo, hhi => ⟨hlo.trans h.1, h.2.mono (Nat.le_refl _) hhi⟩

theorem between_append {lo hi : Nat} {spans spans' : List Span} :
    Between lo (spans ++ spans') hi ↔ ∃ mid, Between lo spans mid ∧ Between mid spans' hi := by
  induction spans generalizing lo with
  | nil => exact ⟨fun h => ⟨lo, Nat.le_refl _, h⟩, fun ⟨_, hlo, h⟩ => h.mono hlo (Nat.le_refl _)⟩
  | cons s spans ih =>
    simp only [List.cons_append, Between, ih]
    exact ⟨fun ⟨h, mid, h', h''⟩ => ⟨mid, ⟨h, h'⟩, h''⟩, fun ⟨mid, ⟨h, h'⟩, h''⟩ => ⟨h, mid, h', h''⟩⟩

theorem Between.of_mem {lo hi : Nat} {s : Span} : ∀ {spans : List Span}, Between lo spans hi →
    s ∈ spans → lo ≤ s.start ∧ s.stop ≤ hi
  | t :: spans, h, hs => by
    rcases List.mem_cons.mp hs with rfl | hs
    · exact ⟨h.1, h.2.le⟩
    · obtain ⟨h1, h2⟩ := h.2.of_mem hs
      exact ⟨h.1.trans (t.start_le_stop.trans h1), h2⟩

end Span

/-! ## 3. Nodes -/

/-- The places of nodes, in order. -/
abbrev locations (nodes : List Node) : List Span := nodes.map Node.location

namespace Node

/-- The stretches of a node in which other nodes stand, each with the nodes directly in it. -/
def parts : Node → List (Span × List Node)
  | .raw .. | .print .. => []
  | .call _ _ _ params => params.map fun p => (p.location, p.value.nodes)
  | .binding _ s _ value => [(s, value.nodes)]
  | .flow f => f.branches.map fun b => (f.location, b.nodes)
  | .openTag _ s name children _ => [(s, name :: children)]
  | .closeTag _ s name => [(s, [name])]
  | .attr _ s name value => [(s, name :: value.toList)]
  | .attrValue _ s _ children | .comment _ s children => [(s, children)]

theorem walk_value (value : Value) : value.walk = TemplateMarkup.walk value.nodes := by
  cases value <;> simp [Value.walk, Value.nodes, TemplateMarkup.walk]

/-- A walk goes through the parts of a node. -/
theorem walk_eq (n : Node) : n.walk = n :: n.parts.flatMap fun p => TemplateMarkup.walk p.2 := by
  have params (l : List Param) :
      walkParams l = l.flatMap fun p => TemplateMarkup.walk p.value.nodes := by
    induction l with
    | nil => simp [walkParams]
    | cons p l ih =>
      obtain ⟨id, s, name, value⟩ := p
      simp [walkParams, Param.walk, walk_value, ih]
  have branches (l : List Branch) :
      walkBranches l = l.flatMap fun b => TemplateMarkup.walk b.nodes := by
    induction l with
    | nil => simp [walkBranches]
    | cons b l ih =>
      obtain ⟨id, kind, nodes⟩ := b
      simp [walkBranches, Branch.walk, ih]
  cases n with
  | call id s callee ps => simp [Node.walk, parts, params, List.flatMap_map]
  | flow f =>
    obtain ⟨id, s, head, bs⟩ := f
    simp [Node.walk, Flow.walk, parts, branches, List.flatMap_map]
  | attr id s name value => cases value <;> simp [Node.walk, parts, TemplateMarkup.walk]
  | _ => simp [Node.walk, parts, TemplateMarkup.walk, walk_value]

/-- **The node stands where it may**: its place is sound, its parts are and, if `clean`, they lie in
it and the nodes of a part in the part. -/
structure Seated (src : Text) (clean : Prop) (n : Node) : Prop where
  sound : n.location.Sound src
  parts : ∀ p ∈ n.parts, p.1.Lies src clean n.location.start n.location.stop
    ∧ ∀ m ∈ p.2, m.location.Lies src clean p.1.start p.1.stop

/-- The node and all nodes in it stand where they may. -/
def SeatedDeep (src : Text) (clean : Prop) (n : Node) : Prop := ∀ m ∈ n.walk, m.Seated src clean

end Node

/-- The nodes stand between two offsets, and all nodes in them where they may. -/
def SeatedIn (src : Text) (clean : Prop) (lo hi : Nat) (nodes : List Node) : Prop :=
  ∀ n ∈ nodes, n.location.Lies src clean lo hi ∧ n.SeatedDeep src clean

section

variable {src : Text} {clean : Prop} {lo lo' hi hi' : Nat} {n : Node} {nodes nodes' : List Node}

theorem walk_eq_flatMap (nodes : List Node) : walk nodes = nodes.flatMap Node.walk := by
  induction nodes with
  | nil => simp [walk]
  | cons n nodes ih => simp [walk, ih]

theorem mem_walk_iff {m : Node} : m ∈ walk nodes ↔ ∃ n ∈ nodes, m ∈ n.walk := by
  rw [walk_eq_flatMap, List.mem_flatMap]

theorem seatedIn_nil : SeatedIn src clean lo hi [] := by
  intro n hn
  exact absurd hn List.not_mem_nil

theorem seatedIn_cons : SeatedIn src clean lo hi (n :: nodes)
    ↔ (n.location.Lies src clean lo hi ∧ n.SeatedDeep src clean)
      ∧ SeatedIn src clean lo hi nodes := List.forall_mem_cons

theorem SeatedIn.mono (h : SeatedIn src clean lo hi nodes) (hlo : clean → lo' ≤ lo)
    (hhi : clean → hi ≤ hi') : SeatedIn src clean lo' hi' nodes :=
  fun n hn => ⟨(h n hn).1.mono hlo hhi, (h n hn).2⟩

theorem SeatedIn.append (h : SeatedIn src clean lo hi nodes)
    (h' : SeatedIn src clean lo hi nodes') : SeatedIn src clean lo hi (nodes ++ nodes') :=
  List.forall_mem_append.mpr ⟨h, h'⟩

theorem SeatedIn.reverse (h : SeatedIn src clean lo hi nodes) :
    SeatedIn src clean lo hi nodes.reverse := fun n hn => h n (List.mem_reverse.mp hn)

namespace Node

theorem SeatedDeep.self (h : n.SeatedDeep src clean) : n.Seated src clean := h n n.mem_walk

theorem SeatedDeep.seatedIn (h : n.SeatedDeep src clean) (hlo : clean → lo ≤ n.location.start)
    (hhi : clean → n.location.stop ≤ hi) : SeatedIn src clean lo hi [n] := by
  intro m hm
  rw [List.mem_singleton.mp hm]
  exact ⟨h.self.sound.lies hlo hhi, h⟩

/-- **A node whose parts lie in it is seated with all that is in it.** -/
theorem seatedDeep_of_parts (hloc : n.location.Sound src)
    (hparts : ∀ p ∈ n.parts, p.1.Lies src clean n.location.start n.location.stop
      ∧ SeatedIn src clean p.1.start p.1.stop p.2) : n.SeatedDeep src clean := by
  intro m hm
  rw [walk_eq, List.mem_cons, List.mem_flatMap] at hm
  rcases hm with rfl | ⟨p, hp, hm⟩
  · exact ⟨hloc, fun p hp => ⟨(hparts p hp).1, fun k hk => ((hparts p hp).2 k hk).1⟩⟩
  · obtain ⟨k, hk, hm⟩ := mem_walk_iff.mp hm
    exact ((hparts p hp).2 k hk).2 m hm

/-- A node whose only part is the node itself. -/
theorem seatedDeep_of_part (hloc : n.location.Sound src) (hn : n.parts = [(n.location, nodes)])
    (h : SeatedIn src clean n.location.start n.location.stop nodes) : n.SeatedDeep src clean := by
  refine seatedDeep_of_parts hloc fun p hp => ?_
  rw [hn, List.mem_singleton] at hp
  rw [hp]
  exact ⟨hloc.lies (fun _ => Nat.le_refl _) fun _ => Nat.le_refl _, h⟩

theorem seatedDeep_raw {s : Span} (h : s.Sound src) (id : NodeId) (t : Text) :
    (raw id s t).SeatedDeep src clean := seatedDeep_of_parts h nofun

/-- The parts of a node that is seated are seated. -/
theorem SeatedDeep.parts {p : Span × List Node} (h : n.SeatedDeep src clean) (hp : p ∈ n.parts) :
    p.1.Lies src clean n.location.start n.location.stop
      ∧ SeatedIn src clean p.1.start p.1.stop p.2 := by
  refine ⟨(h.self.parts p hp).1, fun k hk => ⟨(h.self.parts p hp).2 k hk, fun m hm => h m ?_⟩⟩
  rw [walk_eq]
  exact List.mem_cons_of_mem _ (List.mem_flatMap.mpr ⟨p, hp, mem_walk_iff.mpr ⟨k, hk, hm⟩⟩)

/-- A node in a part has fewer nodes in it. -/
theorem length_walk_lt {p : Span × List Node} {k : Node} (hp : p ∈ n.parts) (hk : k ∈ p.2) :
    k.walk.length < n.walk.length := by
  have le {α : Type} {a : α} {l : List α} (f : α → List Node) (h : a ∈ l) :
      (f a).length ≤ (l.flatMap f).length := by
    obtain ⟨s, t, rfl⟩ := List.append_of_mem h
    simp only [List.flatMap_append, List.flatMap_cons, List.length_append]
    omega
  have hpart := le (fun p => TemplateMarkup.walk p.2) hp
  rw [walk_eq_flatMap] at hpart
  have hnode := le Node.walk hk
  rw [walk_eq n, List.length_cons]
  omega

/-- **In a clean run every node lies in the nodes around it.** -/
theorem SeatedDeep.within {n m : Node} (h : n.SeatedDeep src clean) (hc : clean)
    (hm : m ∈ n.walk) : m.location.Within n.location := by
  rw [walk_eq, List.mem_cons, List.mem_flatMap] at hm
  rcases hm with rfl | ⟨p, hp, hm⟩
  · exact ⟨Nat.le_refl _, Nat.le_refl _⟩
  · obtain ⟨k, hk, hm'⟩ := mem_walk_iff.mp hm
    obtain ⟨hpart, hnodes⟩ := h.parts hp
    have := length_walk_lt hp hk
    exact (SeatedDeep.within (hnodes k hk).2 hc hm').trans
      (((hnodes k hk).1.within hc).trans (hpart.within hc))
termination_by n.walk.length

end Node

end

end TemplateMarkup
