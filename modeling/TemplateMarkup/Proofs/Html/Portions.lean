/-
# What a run takes a tree apart into

A run puts lists of nodes together anew: the blocks of html and of attributes, and the branches of
the control flow in them.  Control flow that is nested too deep in html it leaves as it is.
`portions` finds both in a tree, in source order, with `room` levels of control flow left to enter.
Content blocks are looked into wherever they stand, and control flow in those of other kinds uses no
room.

In a tree that has been rewritten html nodes are looked into as well: what is in tags, values and
comments has been put together too.
-/
import TemplateMarkup.Html.Context
import TemplateMarkup.Proofs.Html.Frame
import TemplateMarkup.Proofs.Template.Written

namespace TemplateMarkup

/-! ## 1. Portions -/

/-- A portion of a tree, as a run sees it. -/
inductive Portion
  /-- Nodes that are put together. -/
  | built (nodes : List Node)
  /-- Control flow that is nested too deep. -/
  | left (flow : Flow)

mutual

/-- The portions of a node.  In html, control flow uses one level of `room`. -/
def Node.portions (room : Nat) (inHtml : Bool) : Node → List Portion
  | .call _ _ _ params => paramsPortions room params
  | .binding _ _ _ value => value.portions room
  | .flow f => f.portions room inHtml
  | .openTag _ _ name children _ =>
    name.portions room inHtml ++ .built children :: portions room inHtml children
  | .closeTag _ _ name => name.portions room inHtml
  | .attr _ _ name none => name.portions room inHtml
  | .attr _ _ name (some value) => name.portions room inHtml ++ value.portions room inHtml
  | .attrValue _ _ _ children => .built children :: portions room inHtml children
  | .comment _ _ children => .built children :: portions room inHtml children
  | _ => []

/-- The portions of nodes. -/
def portions (room : Nat) (inHtml : Bool) : List Node → List Portion
  | [] => []
  | n :: nodes => n.portions room inHtml ++ portions room inHtml nodes

/-- The portions of a value.  Content of html or of attributes is a portion itself. -/
def Value.portions (room : Nat) : Value → List Portion
  | .expr _ => []
  | .content kind nodes =>
    match Context.entry? (declaredOrHtml kind) with
    | some _ => .built nodes :: TemplateMarkup.portions room true nodes
    | none => TemplateMarkup.portions room false nodes

/-- The portions of parameters. -/
def paramsPortions (room : Nat) : List Param → List Portion
  | [] => []
  | p :: params => p.portions room ++ paramsPortions room params

/-- The portions of a parameter. -/
def Param.portions (room : Nat) : Param → List Portion
  | ⟨_, _, _, value⟩ => value.portions room

/-- The portions of control flow: itself, if it is nested too deep in html. -/
def Flow.portions (room : Nat) (inHtml : Bool) : Flow → List Portion
  | ⟨id, location, head, branches⟩ =>
    match inHtml, room with
    | true, 0 => [.left ⟨id, location, head, branches⟩]
    | true, room + 1 => branchesPortions room true branches
    | false, room => branchesPortions room false branches

/-- The portions of branches. -/
def branchesPortions (room : Nat) (inHtml : Bool) : List Branch → List Portion
  | [] => []
  | branch :: branches => branch.portions room inHtml ++ branchesPortions room inHtml branches

/-- The portions of a branch, which is put together itself in html. -/
def Branch.portions (room : Nat) (inHtml : Bool) : Branch → List Portion
  | ⟨_, _, nodes⟩ =>
    (if inHtml then [.built nodes] else []) ++ TemplateMarkup.portions room inHtml nodes

end

/-- The portions of a template, for a run that enters control flow `limit` levels deep. -/
def Template.portions (limit : Nat) (t : Template) : List Portion :=
  (Value.content (some t.kind) t.nodes).portions limit

/-! ## 2. Room -/

/-- How many more levels of control flow a run enters. -/
def Ledger.room (l : Ledger) : Nat := l.config.maxDepth - l.depth

theorem Ledger.Extends.room {l l' : Ledger} (h : l.Extends l') : l'.room = l.room := by
  rw [Ledger.room, Ledger.room, h.config, h.depth]

theorem Ledger.room_eq_zero {l : Ledger} : l.room = 0 ↔ l.depth ≥ l.config.maxDepth :=
  Nat.sub_eq_zero_iff_le

/-- One level further down there is less room. -/
theorem Ledger.room_deeper {l : Ledger} (h : ¬ l.depth ≥ l.config.maxDepth) :
    l.room = ({ l with depth := l.depth + 1 } : Ledger).room + 1 := by
  unfold Ledger.room
  dsimp only
  omega

theorem Flow.portions_of_deep {f : Flow} {l : Ledger} (h : l.depth ≥ l.config.maxDepth) :
    f.portions l.room true = [.left f] := by
  obtain ⟨id, location, head, branches⟩ := f
  rw [Ledger.room_eq_zero.mpr h, Flow.portions]

theorem Flow.portions_of_room {f : Flow} {l : Ledger} (h : ¬ l.depth ≥ l.config.maxDepth) :
    f.portions l.room true
      = branchesPortions ({ l with depth := l.depth + 1 } : Ledger).room true f.branches := by
  obtain ⟨id, location, head, branches⟩ := f
  rw [Ledger.room_deeper h, Flow.portions]

/-! ## 3. Lists of nodes -/

theorem mem_portions {room : Nat} {inHtml : Bool} {nodes : List Node} {p : Portion} :
    p ∈ portions room inHtml nodes ↔ ∃ n ∈ nodes, p ∈ n.portions room inHtml := by
  induction nodes with
  | nil => simp [portions]
  | cons n nodes ih => simp only [portions, List.mem_append, ih, List.mem_cons, exists_eq_or_imp]

end TemplateMarkup
