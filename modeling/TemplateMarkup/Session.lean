/-
# Editing a block

A session is a block of nodes that is edited step by step, the names that are still to be drawn,
and the nodes that were taken out and are held.  Each operation gives the session after it.
-/
import TemplateMarkup.Html.Rewrite
import TemplateMarkup.Template.Read

namespace TemplateMarkup

/-- A block that is being edited. -/
structure Session where
  nodes : List Node
  ids : IdSource
  /-- Nodes that were taken out of the block. -/
  held : List Node

namespace Session

/-- A session on a block; nothing is held. -/
def start (nodes : List Node) (ids : IdSource) : Session := ⟨nodes, ids, []⟩

/-- The block becomes the body that the source is read as.  A source that is refused changes
nothing but the names that were drawn for it. -/
def load (s : Session) (src : Text) : Session × Option SyntaxError :=
  match Template.read src .html s.ids with
  | .ok (t, ids) => ({ s with nodes := t.nodes, ids := ids }, none)
  | .error r => ({ s with ids := r.ids }, some r.error)

/-- Gives structure to the html of the block. -/
def rewrite (s : Session) (config : Config) (kind : ContentKind) (block : BlockKind)
    (location : Span) : Session × Rewritten (List Node) :=
  let r := rewriteBlock config kind block location s.ids s.nodes
  ({ s with nodes := r.result, ids := r.ids }, r)

/-- One more node at the end. -/
def push (s : Session) (node : Node) : Session := { s with nodes := s.nodes ++ [node] }

/-- Takes all nodes out and holds them, in place of those that were held. -/
def take (s : Session) : Session := { s with nodes := [], held := s.nodes }

/-- Puts the held nodes back before the others. -/
def restore (s : Session) : Session := { s with nodes := s.held ++ s.nodes, held := [] }

/-- Replaces the nodes, and gives those that stood there. -/
def replace (s : Session) (nodes : List Node) : Session × List Node :=
  ({ s with nodes := nodes }, s.nodes)

/-- Draws a name. -/
def drawId (s : Session) : Session × NodeId := ({ s with ids := s.ids.rest }, s.ids.next)

end Session

end TemplateMarkup
