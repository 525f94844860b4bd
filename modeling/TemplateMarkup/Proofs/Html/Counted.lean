/-
# What a run counts

A run counts as it goes: a report when it is made, a node of html when its name is drawn, which is
before the node has a place.  At the end both counts are those of what the run gives: the reports
that were delivered, and, if there are none, the nodes of html in the tree.

A counter stops at its largest value, so each count is a minimum.
-/
import TemplateMarkup.Proofs.Html.Course
import TemplateMarkup.Proofs.Html.Kept

namespace TemplateMarkup

/-! ## 1. Counters -/

theorem Count.add_one_min (n : Nat) : Count.add (min n Count.max) 1 = min (n + 1) Count.max := by
  unfold Count.add
  omega

/-- A counter that is raised from nothing. -/
theorem Count.iterate_add_one (k : Nat) : (Count.add · 1)^[k] 0 = min k Count.max := by
  induction k with
  | zero => exact (Nat.zero_min _).symm
  | succ k ih => rw [Function.iterate_succ_apply', ih, Count.add_one_min]

/-! ## 2. Reports -/

/-- The same ledger, in which each report has been counted. -/
def Ledger.Tallied (l l' : Ledger) : Prop :=
  l = l' ∧ l.stats.errors = min l.diagnostics.length Count.max

/-- One more report is counted once. -/
theorem Ledger.Tallied.report {l l' : Ledger} (h : l.Tallied l') (location : Span)
    (fault : Fault) : (l.report location fault).Tallied (l'.report location fault) := by
  obtain ⟨rfl, hcount⟩ := h
  refine ⟨rfl, ?_⟩
  rw [Ledger.report, hcount, Count.add_one_min, List.length_cons]

/-- Runs that count each report. -/
def tallied : Course where
  rel := Ledger.Tallied
  next h := congrArg (fun l : Ledger => l.ids.next) h.1
  drawn h := ⟨congrArg _ h.1, h.2⟩
  drawnForHtml h := ⟨congrArg _ h.1, h.2⟩
  countRun h := ⟨congrArg _ h.1, h.2⟩
  countChange h := ⟨congrArg _ h.1, h.2⟩
  report _ h hs := by
    obtain rfl := Span.eq_of_bounds hs.start hs.stop
    exact h.report ..
  deep := True
  joins h := congrArg (fun l : Ledger => l.config.joinText) h.1
  depth h := congrArg Ledger.depth h.1
  setDepth depth h := ⟨congrArg (fun l : Ledger => { l with depth }) h.1, h.2⟩
  countBlock h := ⟨congrArg _ h.1, h.2⟩
  countBranch h := ⟨congrArg _ h.1, h.2⟩
  tooDeep _ _ _ h := h.report ..

/-- **Each report of a block is counted.** -/
theorem rewriteBlock_errors (config : Config) (kind : ContentKind) (block : BlockKind)
    (location : Span) (ids : IdSource) (nodes : List Node) :
    (rewriteBlock config kind block location ids nodes).stats.errors
      = min (rewriteBlock config kind block location ids nodes).diagnostics.length Count.max := by
  obtain ⟨-, -, hcount⟩ := rewriteValue_course (C := tallied) (.content (some kind) nodes)
    (l := .start config ids) ⟨rfl, rfl⟩ (.inl ⟨trivial, rfl⟩) block location
  unfold rewriteBlock
  dsimp only [Ledger.outcome]
  rw [List.length_reverse, hcount]

/-! ## 3. Nodes of html -/

/-- Between two ledgers the nodes of html grow by those that are made, if none is lost. -/
theorem Ledger.Carries.countNodes {l l' : Ledger} {safe : Prop} {before after : List Node}
    (h : l.Carries safe (inventory before) (inventory after) l') (hs : safe) :
    ∃ k, l'.made = (Count.add · 1)^[k] l.made
      ∧ TemplateMarkup.countNodes Node.isHtml after
        = TemplateMarkup.countNodes Node.isHtml before + k := by
  obtain ⟨k, hmade, -, heq⟩ := h
  refine ⟨k, hmade, ?_⟩
  rw [← countP_inventory, ← countP_inventory, heq hs, Multiset.countP_add,
    ← Multiset.coe_replicate, Multiset.coe_countP, List.countP_replicate]
  rfl

theorem Node.isHtml_of_isWritten {n : Node} (h : n.isWritten = true) : n.isHtml = false := by
  cases n <;> first | rfl | cases h

/-- What is written has no node of html. -/
theorem countNodes_isHtml_of_written {nodes : List Node} (h : AllWritten nodes) :
    countNodes Node.isHtml nodes = 0 := by
  rw [countNodes, List.countP_eq_zero]
  intro n hn
  rw [Node.isHtml_of_isWritten (h n hn)]
  exact Bool.false_ne_true

/-- **Each node of html that a block is given is counted**, if nothing is reported. -/
theorem rewriteBlock_structuralNodes (config : Config) (kind : ContentKind) (block : BlockKind)
    (location : Span) (ids : IdSource) {nodes : List Node} (hw : AllWritten nodes)
    (hclean : (rewriteBlock config kind block location ids nodes).diagnostics = []) :
    (rewriteBlock config kind block location ids nodes).stats.structuralNodes
      = min (countNodes Node.isHtml (rewriteBlock config kind block location ids nodes).result)
        Count.max := by
  obtain ⟨k, hmade, hcount⟩ :=
    (rewriteBlock_carries config kind block location ids nodes).countNodes hclean
  rw [countNodes_isHtml_of_written hw, Nat.zero_add] at hcount
  rw [hcount, ← Count.iterate_add_one]
  exact hmade

/-! ## 4. Templates -/

/-- **The statistics count what is there**: the reports that are delivered, and the nodes of html in
the rewritten template if there are none. -/
theorem Template.rewrite_counts {src : Text} {kind : ContentKind} {ids ids' : IdSource}
    {t : Template} (hread : Template.read src kind ids = .ok (t, ids')) (config : Config)
    (fresh : IdSource) :
    (t.rewrite config fresh).stats.errors
        = min (t.rewrite config fresh).diagnostics.length Count.max
      ∧ ((t.rewrite config fresh).diagnostics = [] →
        (t.rewrite config fresh).stats.structuralNodes
          = min (countNodes Node.isHtml (t.rewrite config fresh).result.nodes) Count.max) :=
  ⟨rewriteBlock_errors .., rewriteBlock_structuralNodes config t.kind .template t.location fresh
    (Template.written_of_read hread)⟩

/-- In `{if $c}<a b='{$x}'>{else}<!--d-->{/if}</a>` all five sorts of html are counted: a tag with
an attribute and its value in one branch, a comment in the other, and the tag that closes. -/
theorem Template.rewrite_counts_eachSort :
    ∃ t ids, Template.read ("\x7bif $c\x7d<a b='\x7b$x\x7d'>\x7belse\x7d<!--d-->\x7b/if\x7d" ++
        "</a>").toList .html (.startingAt 0) = .ok (t, ids)
      ∧ (t.rewrite {} ids).diagnostics = [] ∧ (t.rewrite {} ids).stats.errors = 0
      ∧ countNodes Node.isHtml (t.rewrite {} ids).result.nodes = 5
      ∧ (t.rewrite {} ids).stats.structuralNodes = 5 := by
  have hcheck : (Template.read ("\x7bif $c\x7d<a b='\x7b$x\x7d'>\x7belse\x7d<!--d-->\x7b/if\x7d" ++
      "</a>").toList .html (.startingAt 0)).toOption.any
      (fun r => (r.1.rewrite {} r.2).diagnostics.isEmpty
        && countNodes Node.isHtml (r.1.rewrite {} r.2).result.nodes == 5) = true := by
    decide +kernel
  cases hread : Template.read ("\x7bif $c\x7d<a b='\x7b$x\x7d'>\x7belse\x7d<!--d-->\x7b/if\x7d" ++
      "</a>").toList .html (.startingAt 0) with
  | error r =>
    rw [hread] at hcheck
    cases hcheck
  | ok r =>
    rw [hread] at hcheck
    obtain ⟨hclean, hfive⟩ := Bool.and_eq_true_iff.mp hcheck
    have hclean := List.isEmpty_iff.mp hclean
    have hfive := beq_iff_eq.mp hfive
    obtain ⟨herrors, hnodes⟩ := Template.rewrite_counts hread {} r.2
    refine ⟨r.1, r.2, rfl, hclean, ?_, hfive, ?_⟩
    · rw [herrors, hclean]
      rfl
    · rw [hnodes hclean, hfive]
      rfl

end TemplateMarkup
