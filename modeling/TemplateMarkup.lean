import TemplateMarkup.CommandLine
import TemplateMarkup.Html.Rewrite
import TemplateMarkup.Main
import TemplateMarkup.Proofs.Html.Again
import TemplateMarkup.Proofs.Html.Agreement
import TemplateMarkup.Proofs.Html.BodyEnd
import TemplateMarkup.Proofs.Html.Containers
import TemplateMarkup.Proofs.Html.Counted
import TemplateMarkup.Proofs.Html.Cutting
import TemplateMarkup.Proofs.Html.DepthLimit
import TemplateMarkup.Proofs.Html.Discarding
import TemplateMarkup.Proofs.Html.Evaluated
import TemplateMarkup.Proofs.Html.Inlaid
import TemplateMarkup.Proofs.Html.Isolation
import TemplateMarkup.Proofs.Html.Kept
import TemplateMarkup.Proofs.Html.Moments
import TemplateMarkup.Proofs.Html.Nested
import TemplateMarkup.Proofs.Html.Numbering
import TemplateMarkup.Proofs.Html.Piecewise
import TemplateMarkup.Proofs.Html.PlainSource
import TemplateMarkup.Proofs.Html.Progress
import TemplateMarkup.Proofs.Html.Safe
import TemplateMarkup.Proofs.Html.Spliced
import TemplateMarkup.Proofs.Html.Structured
import TemplateMarkup.Proofs.Html.Supplied
import TemplateMarkup.Proofs.Html.Unclosed
import TemplateMarkup.Proofs.Html.Verbatim
import TemplateMarkup.Proofs.Template.Reprinted
import TemplateMarkup.Proofs.Template.Sections
import TemplateMarkup.Proofs.Template.Tiling
import TemplateMarkup.Proofs.Text.Escaping
import TemplateMarkup.Proofs.Text.Positions
import TemplateMarkup.Proofs.Tree.Printed
import TemplateMarkup.Session
import TemplateMarkup.Snapshot
import TemplateMarkup.Text.Cursor
import TemplateMarkup.Tree.Walk
