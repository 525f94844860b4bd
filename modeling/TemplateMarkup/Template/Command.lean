/-
# Commands

A command is what a template writes between braces.  `Command.read` tells from the text of a
command which one it is; a command whose parts are missing is refused with a `SyntaxFault` that
keeps the text at fault.

Everything that begins with no known word is an expression to print, so the only ways to fail
are an empty expression, a missing name, variable or expression, and a `kind` that is not
quoted or not known.
-/
import TemplateMarkup.Text.Blank
import TemplateMarkup.Text.Quoted
import TemplateMarkup.Tree.Node

namespace TemplateMarkup

/-! ## 1. The commands -/

/-- A command of a template. -/
inductive Command
  /-- A character that stands for itself, or the empty text. -/
  | special (text : Text)
  | print (expr : Text)
  | call (callee : Text) (selfClosing : Bool)
  | param (name : Text) (expr : Option Text) (kind : Option ContentKind)
  | binding (var : Text) (expr : Option Text) (kind : Option ContentKind)
  | ifThen (cond : Text)
  | elseIf (cond : Text)
  | otherwise
  | switch (expr : Text)
  | caseOf (exprs : Text)
  | default
  | forEach (var expr : Text)
  | ifEmpty
  | close (name : Text)
  | namespaceName (name : Text)
  | template (name : Text) (kind : Option ContentKind)
  | paramDecl (name type : Text)
deriving DecidableEq

/-- Why a template cannot be read. -/
inductive SyntaxFault
  /-- A command that has no closing brace. -/
  | unterminatedCommand
  /-- A command with a part missing. -/
  | malformedCommand (text : Text)
  /-- A `kind` that names no kind of content. -/
  | unknownKind (name : Text)
  /-- A command that may not stand where it does. -/
  | unexpectedCommand (command : Command)
  /-- Content where only blanks may stand: directly inside the named command. -/
  | strayContent (command : String)
  /-- A branch after the default branch of a `{switch}`. -/
  | branchAfterDefault
  /-- The named command has no closing command. -/
  | unclosed (command : String)
  /-- Text that is not part of any template. -/
  | textOutsideTemplate

/-- A fault and the byte offset of the command or text at fault. -/
structure SyntaxError where
  fault : SyntaxFault
  offset : Nat

/-! ## 2. Commands in messages -/

namespace Command

/-- Commands that end the body they stand in instead of adding to it. -/
def isTerminator : Command → Bool
  | elseIf _ | otherwise | caseOf _ | default | ifEmpty | close _ | param .. | template ..
  | namespaceName _ => true
  | _ => false

/-- A field of a command, written out. -/
def showField (name : String) (value : Text) : Text := name.toList ++ ": ".toList ++ value

/-- A part that may be absent, written out. -/
def showOption : Option Text → Text
  | none => "None".toList
  | some t => "Some(".toList ++ t ++ [')']

/-- A kind, written out as one capitalised word. -/
def showKind : ContentKind → Text
  | .html => "Html".toList
  | .attributes => "Attributes".toList
  | .text => "Text".toList
  | .css => "Css".toList
  | .js => "Js".toList
  | .uri => "Uri".toList
  | .trustedResourceUri => "TrustedResourceUri".toList

/-- A command with a single part, written out. -/
def showUnary (name : String) (value : Text) : Text :=
  name.toList ++ ['('] ++ value.quoted ++ [')']

/-- A command with several parts, written out. -/
def showFields (name : String) (fields : List Text) : Text :=
  name.toList ++ " \x7b ".toList ++ ", ".toList.intercalate fields ++ " \x7d".toList

/-- The command as a message names it: in braces where it has a name of its own to close or to
continue a construct, else with its parts. -/
def describe : Command → Text
  | close name => ['{', '/'] ++ name ++ ['}']
  | elseIf _ => "\x7belseif\x7d".toList
  | otherwise => "\x7belse\x7d".toList
  | caseOf _ => "\x7bcase\x7d".toList
  | default => "\x7bdefault\x7d".toList
  | ifEmpty => "\x7bifempty\x7d".toList
  | param .. => "\x7bparam\x7d".toList
  | template .. => "\x7btemplate\x7d".toList
  | namespaceName _ => "\x7bnamespace\x7d".toList
  | special text => showUnary "Special" text
  | print expr => showUnary "Print" expr
  | call callee selfClosing =>
    showFields "Call"
      [showField "callee" callee.quoted,
        showField "self_closing" (if selfClosing then "true" else "false").toList]
  | binding var expr kind =>
    showFields "Let"
      [showField "var" var.quoted, showField "expr" (showOption (expr.map Text.quoted)),
        showField "kind" (showOption (kind.map showKind))]
  | ifThen cond => showUnary "If" cond
  | switch expr => showUnary "Switch" expr
  | forEach var expr =>
    showFields "For" [showField "var" var.quoted, showField "expr" expr.quoted]
  | paramDecl name type =>
    showFields "ParamDecl" [showField "name" name.quoted, showField "ty" type.quoted]

end Command

/-- The message of a fault, without its place. -/
def SyntaxFault.message : SyntaxFault → String
  | unterminatedCommand => "unterminated command"
  | malformedCommand text => "malformed command '\x7b" ++ String.ofList text ++ "\x7d'"
  | unknownKind name => "unknown content kind '" ++ String.ofList name ++ "'"
  | unexpectedCommand command => "unexpected " ++ String.ofList command.describe
  | strayContent command => "unexpected content directly inside \x7b" ++ command ++ "\x7d"
  | branchAfterDefault => "unexpected branch after \x7bdefault\x7d"
  | unclosed command => "missing \x7b/" ++ command ++ "\x7d"
  | textOutsideTemplate => "text outside of a template"

/-- The message of an error, with its place. -/
def SyntaxError.message (e : SyntaxError) : String :=
  e.fault.message ++ " at byte " ++ e.offset.repr

/-! ## 3. Reading a command -/

namespace Command

/-- The part that must not be empty, of the command whose text is `inner`. -/
def require (inner part : Text) : Except SyntaxFault Text :=
  if part = [] then .error (.malformedCommand inner) else .ok part

/-- The variable that a `$` introduces. -/
def variableName (inner part : Text) : Except SyntaxFault Text :=
  match Text.after? ['$'] part with
  | none => .error (.malformedCommand inner)
  | some var => .ok var

/-- The kind that a `kind="…"` clause declares: the text up to the next quote, or to the end. -/
def kindClauseOf (clauses : Text) : Except SyntaxFault (Option ContentKind) :=
  match Text.cut? "kind=".toList clauses with
  | none => .ok none
  | some (_, rest) =>
    match Text.after? ['"'] rest with
    | none => .error (.malformedCommand clauses)
    | some rest =>
      let name := rest.takeWhile (· != '"')
      match ContentKind.ofName? name with
      | none => .error (.unknownKind name)
      | some kind => .ok (some kind)

/-- The name, and after a colon the expression, of a parameter or a binding. -/
def nameAndExpr (inner rest : Text) : Except SyntaxFault (Text × Option Text) :=
  match Text.cut? [':'] rest with
  | none => .ok ((Text.splitWord rest).1, none)
  | some (name, expr) => do
    let expr ← require inner (Text.trim expr)
    .ok (Text.trim name, some expr)

/-- The text that a special character command stands for. -/
def special? (body : Text) : Option Text :=
  if body = "sp".toList then some [' ']
  else if body = "nil".toList then some []
  else if body = "lb".toList then some ['{']
  else if body = "rb".toList then some ['}']
  else if body = ['\\', 'n'] then some ['\n']
  else if body = ['\\', 'r'] then some ['\r']
  else if body = ['\\', 't'] then some ['\t']
  else none

/-- The command without the slash at its end, and whether it had one. -/
def withoutSlash : Text → Text × Bool
  | inner =>
    if inner.getLast? = some '/' then (Text.trimEnd inner.dropLast, true) else (inner, false)

/-- The command that begins with `word`, with the `rest` after it. -/
def ofWord (inner body word rest : Text) (selfClosing : Bool) : Except SyntaxFault Command :=
  if word = "print".toList then
    return .print (← require inner rest)
  else if word = "call".toList then
    return .call (← require inner (Text.splitWord rest).1) selfClosing
  else if word = "param".toList then do
    let (name, expr) ← nameAndExpr inner rest
    let name ← require inner name
    return .param name expr (← kindClauseOf rest)
  else if word = "let".toList then do
    let (var, expr) ← nameAndExpr inner rest
    let var ← variableName inner var
    return .binding var expr (← kindClauseOf rest)
  else if word = "if".toList then
    return .ifThen (← require inner rest)
  else if word = "elseif".toList then
    return .elseIf (← require inner rest)
  else if word = "else".toList then
    return .otherwise
  else if word = "switch".toList then
    return .switch (← require inner rest)
  else if word = "case".toList then
    return .caseOf (← require inner rest)
  else if word = "default".toList then
    return .default
  else if word = "for".toList ∨ word = "foreach".toList then
    match Text.cut? " in ".toList rest with
    | none => .error (.malformedCommand inner)
    | some (var, expr) => do
      let var ← variableName inner (Text.trim var)
      return .forEach var (← require inner (Text.trim expr))
  else if word = "ifempty".toList then
    return .ifEmpty
  else if word = "namespace".toList then
    return .namespaceName (← require inner (Text.splitWord rest).1)
  else if word = "template".toList then do
    let name ← require inner (Text.splitWord rest).1
    return .template name (← kindClauseOf rest)
  else if word = "@param".toList ∨ word = "@param?".toList then
    match Text.cut? [':'] rest with
    | none => .error (.malformedCommand inner)
    | some (name, type) => do
      let name ← require inner (Text.trim name)
      return .paramDecl name (Text.trim type)
  else
    return .print (← require inner body)

/-- The command of the text between two braces, which has no blanks at its ends. -/
def read (inner : Text) : Except SyntaxFault Command :=
  let (body, selfClosing) := withoutSlash inner
  match special? body with
  | some text => .ok (.special text)
  | none =>
    match Text.after? ['/'] body with
    | some name => .ok (.close (Text.trim name))
    | none =>
      let (word, rest) := Text.splitWord body
      ofWord inner body word rest selfClosing

/-- The command of a text at a byte offset. -/
def readAt (inner : Text) (offset : Nat) : Except SyntaxError Command :=
  match read inner with
  | .ok command => .ok command
  | .error fault => .error ⟨fault, offset⟩

end Command

end TemplateMarkup
