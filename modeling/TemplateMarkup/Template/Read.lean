/-
# Reading templates

A source is read either as the body of one template, whose name is `.test`, or as a file of
templates.  In a file, `{namespace}` and `{template}` are the only commands outside a template,
and blanks the only text.
-/
import TemplateMarkup.Template.Body

namespace TemplateMarkup

/-! ## 1. One body -/

/-- The template whose body is the whole source. -/
def Template.read (src : Text) (kind : ContentKind) (ids : IdSource) :
    Except Rejection (Template × IdSource) := do
  let (tokens, error) := Token.scan 0 src
  let body ← (← (Body.empty ids).readScan tokens error).finish
  return ({
    id := body.ids.next
    location := ⟨0, src.size, Nat.zero_le _⟩
    name := ".test".toList
    kind := kind
    params := body.params.reverse
    nodes := body.nodes.reverse }, body.ids.rest)

/-! ## 2. A file -/

/-- A template whose closing command has not been read. -/
structure OpenTemplate where
  opener : Span
  name : Text
  kind : ContentKind
  body : Body

/-- What has been read of a file; the templates have the latest first. -/
structure FileReading where
  namespaceName : Option Text
  templates : List Template
  /-- The source of names, while no template is open. -/
  ids : IdSource
  current : Option OpenTemplate

namespace FileReading

/-- A file of which nothing has been read. -/
def empty (ids : IdSource) : FileReading := ⟨none, [], ids, none⟩

/-- The file after one more token outside a template. -/
def stepOutside (f : FileReading) : Token → Except Rejection FileReading
  | .text text location =>
    if text.allBlank then .ok f
    else
      Body.refuse f.ids .textOutsideTemplate
        (location.start + Text.size (text.takeWhile isBlank))
  | .command (.namespaceName name) _ => .ok { f with namespaceName := some name }
  | .command (.template name kind) location =>
    .ok { f with current := some ⟨location, name, declaredOrHtml kind, Body.empty f.ids⟩ }
  | .command command location =>
    Body.refuse f.ids (.unexpectedCommand command) location.start

/-- The file after the command that ends the body of the open template. -/
def close (f : FileReading) (t : OpenTemplate) (command : Command) (location : Span) :
    Except Rejection FileReading := do
  expectClose t.body.ids "template" command location
  let template : Template := {
    id := t.body.ids.next
    location := t.opener.union location
    name := t.name
    kind := t.kind
    params := t.body.params.reverse
    nodes := t.body.nodes.reverse }
  return { f with
    templates := template :: f.templates
    ids := t.body.ids.rest
    current := none }

/-- The command that ends the body of a template, if the token is one and nothing inside the
body is open. -/
def endOfBody? (body : Body) : Token → Option (Command × Span)
  | .text .. => none
  | .command command location =>
    if command.isTerminator && body.frames.isEmpty then some (command, location) else none

/-- The file after one more token. -/
def step (f : FileReading) (token : Token) : Except Rejection FileReading :=
  match f.current with
  | none => f.stepOutside token
  | some t =>
    match endOfBody? t.body token with
    | some (command, location) => f.close t command location
    | none => do
      let body ← t.body.step token
      return { f with current := some { t with body := body } }

/-- The source of names at this point. -/
def idsNow (f : FileReading) : IdSource :=
  match f.current with
  | none => f.ids
  | some t => t.body.ids

/-- The file after the tokens of a scan.  The error of the scan comes last. -/
def readScan (f : FileReading) : List Token → Option SyntaxError → Except Rejection FileReading
  | [], none => .ok f
  | [], some error => .error ⟨error, f.idsNow⟩
  | token :: tokens, error => do (← f.step token).readScan tokens error

/-- The file at the end of the source, where no template may be open. -/
def finish (f : FileReading) : Except Rejection FileReading :=
  match f.current with
  | none => .ok f
  | some t => do
    let body ← t.body.finish
    Body.refuse body.ids (.unclosed "template") t.opener.start

end FileReading

/-- The templates of a source. -/
def TemplateFile.read (src : Text) (ids : IdSource) :
    Except Rejection (TemplateFile × IdSource) := do
  let (tokens, error) := Token.scan 0 src
  let file ← (← (FileReading.empty ids).readScan tokens error).finish
  return (⟨file.namespaceName, file.templates.reverse⟩, file.ids)

end TemplateMarkup
