/-
# The ledger of a run

Everything that is shared by all blocks and branches of one run over a template: the names that
are drawn, the diagnostics, the counters, and how deep in control flow the run is.

Counters stop at their largest value (`Count.add`).
-/
import TemplateMarkup.Tree.Node
import TemplateMarkup.Html.Fault

namespace TemplateMarkup

/-! ## 1. Settings and counters -/

/-- How html is read. -/
structure Config where
  /-- Adjacent raw text is read as one, so a mark may straddle two pieces of it. -/
  joinText : Bool := true
  /-- Control flow nested deeper than this is reported and left as it is. -/
  maxDepth : Nat := 256
deriving DecidableEq, Inhabited

/-- The largest count: 64 bits. -/
def Count.max : Nat := UInt64.size - 1

/-- The sum of two counts, or the largest count if the sum is larger. -/
def Count.add (m n : Nat) : Nat := min (m + n) Count.max

/-- What a run counts. -/
structure Stats where
  blocks : Nat := 0
  branches : Nat := 0
  rawTextRuns : Nat := 0
  structuralNodes : Nat := 0
  contextChanges : Nat := 0
  errors : Nat := 0
deriving DecidableEq, Inhabited

/-- The counts of two runs together. -/
def Stats.add (s t : Stats) : Stats where
  blocks := Count.add s.blocks t.blocks
  branches := Count.add s.branches t.branches
  rawTextRuns := Count.add s.rawTextRuns t.rawTextRuns
  structuralNodes := Count.add s.structuralNodes t.structuralNodes
  contextChanges := Count.add s.contextChanges t.contextChanges
  errors := Count.add s.errors t.errors

/-! ## 2. The ledger -/

/-- What all parts of a run share. -/
structure Ledger where
  config : Config
  ids : IdSource
  /-- The latest first. -/
  diagnostics : List Diagnostic
  stats : Stats
  /-- The number of control-flow nodes around the place that is being read. -/
  depth : Nat

namespace Ledger

/-- The ledger of a run that has not begun. -/
def start (config : Config) (ids : IdSource) : Ledger := ⟨config, ids, [], {}, 0⟩

/-- One more diagnostic. -/
def report (l : Ledger) (location : Span) (fault : Fault) : Ledger :=
  { l with
    diagnostics := ⟨location, fault⟩ :: l.diagnostics
    stats := { l.stats with errors := Count.add l.stats.errors 1 } }

/-- The next name has been taken. -/
def drawn (l : Ledger) : Ledger := { l with ids := l.ids.rest }

/-- The next name has been taken, for a node of html. -/
def drawnForHtml (l : Ledger) : Ledger :=
  { l with
    ids := l.ids.rest
    stats := { l.stats with structuralNodes := Count.add l.stats.structuralNodes 1 } }

/-- One more block. -/
def countBlock (l : Ledger) : Ledger :=
  { l with stats := { l.stats with blocks := Count.add l.stats.blocks 1 } }

/-- One more branch. -/
def countBranch (l : Ledger) : Ledger :=
  { l with stats := { l.stats with branches := Count.add l.stats.branches 1 } }

/-- One more run of raw text. -/
def countRun (l : Ledger) : Ledger :=
  { l with stats := { l.stats with rawTextRuns := Count.add l.stats.rawTextRuns 1 } }

/-- One more change of context. -/
def countChange (l : Ledger) : Ledger :=
  { l with stats := { l.stats with contextChanges := Count.add l.stats.contextChanges 1 } }

end Ledger

end TemplateMarkup
