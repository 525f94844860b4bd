/-
# Snapshots

A snapshot shows what a run made of a template as lines of text: the outline, the source on one
line, and the diagnostics.  Two snapshots are compared line by line.
-/
import TemplateMarkup.Html.Rewrite
import TemplateMarkup.Template.Read
import TemplateMarkup.Text.Escaped
import TemplateMarkup.Text.Lines
import TemplateMarkup.Tree.Outline
import TemplateMarkup.Tree.Source

namespace TemplateMarkup

/-- A template after a run, with what the run reported. -/
structure Snapshot where
  template : Template
  diagnostics : List Diagnostic

namespace Snapshot

/-- The snapshot of a run's outcome. -/
def ofRewritten (r : Rewritten Template) : Snapshot := ⟨r.result, r.diagnostics⟩

/-- Reads a source as a template body and gives structure to its html. -/
def ofSource (src : Text) (kind : ContentKind) (config : Config) :
    Except SyntaxError Snapshot :=
  match Template.read src kind (.startingAt 1) with
  | .error r => .error r.error
  | .ok (t, ids) => .ok (ofRewritten (t.rewrite config ids))

/-- A second run over the template, with names far from those of the first. -/
def again (s : Snapshot) : Snapshot := ofRewritten (s.template.rewrite {} (.startingAt 0x100000))

/-- The messages of the diagnostics. -/
def messages (s : Snapshot) : List String := s.diagnostics.map fun d => d.fault.message

/-- The outline, the source and the diagnostics, line by line. -/
def lines (s : Snapshot) : List Text :=
  Text.outlineLines (shape s.template.nodes)
    ++ ["source \"".toList ++ Text.escaped (source s.template.nodes) ++ ['"']]
    ++ s.diagnostics.map fun d => "error ".toList ++ d.line.toList

/-- The difference between two snapshots, if there is one. -/
def diff? (s t : Snapshot) : Option Text :=
  if s.lines = t.lines then none else some (Text.diffLines s.lines t.lines)

end Snapshot

end TemplateMarkup
