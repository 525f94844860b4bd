/-
# The command line

What the program prints for a list of files: the outline and the source of every template, if
asked for, and the diagnostics with their lines and columns.  A file that cannot be read, or
that is no file of templates, is reported, and the next one is taken.

All of this is a function of the options and of what the files hold (`CommandLine.run`).
-/
import TemplateMarkup.Html.Rewrite
import TemplateMarkup.Template.Read
import TemplateMarkup.Text.Position
import TemplateMarkup.Tree.Outline
import TemplateMarkup.Tree.Source

namespace TemplateMarkup

/-! ## 1. Options -/

/-- What the command line asks for. -/
structure Options where
  paths : List String := []
  shape : Bool := false
  source : Bool := false
  quiet : Bool := false
  joinText : Bool := true
  maxDepth : Nat := 256

namespace Options

/-- How html is read under the options. -/
def config (o : Options) : Config := ⟨o.joinText, o.maxDepth⟩

/-- The options with a depth limit that was given as text. -/
def withMaxDepth (o : Options) (digits : String) : Except String Options :=
  match digits.toNat? with
  | some n => .ok { o with maxDepth := n }
  | none => .error ("invalid value '" ++ digits ++ "' for '--max-depth <MAX_DEPTH>'")

/-- The options with the flags of one argument that begins with a dash, if it is known. -/
def withFlag (o : Options) (flag : String) : Except String Options :=
  if flag = "--shape" then .ok { o with shape := true }
  else if flag = "--source" then .ok { o with source := true }
  else if flag = "-q" ∨ flag = "--quiet" then .ok { o with quiet := true }
  else if flag = "--no-coalesce" then .ok { o with joinText := false }
  else
    match Text.after? "--max-depth=".toList flag.toList with
    | some digits => o.withMaxDepth (String.ofList digits)
    | none => .error ("unexpected argument '" ++ flag ++ "' found")

/-- The options that the arguments add.  After `--` every argument is a path. -/
def withArgs (o : Options) : List String → Except String Options
  | [] => .ok o
  | "--" :: paths => .ok { o with paths := o.paths ++ paths }
  | "--max-depth" :: digits :: args => do (← o.withMaxDepth digits).withArgs args
  | arg :: args =>
    if arg.startsWith "-" && arg != "-" then do (← o.withFlag arg).withArgs args
    else { o with paths := o.paths ++ [arg] }.withArgs args

/-- The options that the arguments give; at least one path is needed. -/
def parse (args : List String) : Except String Options := do
  let o ← withArgs {} args
  if o.paths.isEmpty then
    .error "the following required arguments were not provided: <FILES>..."
  else .ok o

end Options

/-! ## 2. Files -/

/-- Why a file cannot be read. -/
inductive Unreadable
  | system (details : String) (code : Nat)
  | notUtf8

namespace Unreadable

/-- There is no such file. -/
def missing : Unreadable := system "No such file or directory" 2

/-- The reason as it is printed. -/
def message : Unreadable → String
  | system details code => details ++ " (os error " ++ code.repr ++ ")"
  | notUtf8 => "stream did not contain valid UTF-8"

end Unreadable

/-- What was read from a path: its bytes, or the reason why not. -/
abbrev Contents := Except Unreadable ByteArray

/-- The text of a file. -/
def Contents.text : Contents → Except Unreadable Text
  | .error reason => .error reason
  | .ok bytes =>
    match String.fromUTF8? bytes with
    | none => .error .notUtf8
    | some s => .ok s.toList

/-! ## 3. Output -/

/-- What has been printed, and whether something was wrong. -/
structure Printed where
  out : Text
  err : Text
  failed : Bool

namespace Printed

/-- Nothing. -/
def nothing : Printed := ⟨[], [], false⟩

/-- One after the other. -/
def append (p q : Printed) : Printed := ⟨p.out ++ q.out, p.err ++ q.err, p.failed || q.failed⟩

/-- A line of complaint. -/
def complaint (line : Text) : Printed := ⟨[], line ++ ['\n'], true⟩

/-- Zero for success. -/
def exitCode (p : Printed) : Nat := if p.failed then 1 else 0

end Printed

/-- A place in a file, before a message. -/
def place (path : String) (src : Text) (offset : Nat) : Text :=
  let p := Text.position src offset
  path.toList ++ [':'] ++ p.line.repr.toList ++ [':'] ++ p.column.repr.toList ++ ": ".toList

/-- The outline and the source of a template, as far as they are asked for. -/
def Options.show (o : Options) (path : String) (t : Template) : Text :=
  (if o.shape || o.source then
      "== ".toList ++ path.toList ++ [' '] ++ t.name ++ ['\n']
    else [])
    ++ (if o.shape then TemplateMarkup.shape t.nodes else [])
    ++ (if o.source then TemplateMarkup.source t.nodes ++ ['\n'] else [])

namespace CommandLine

/-- What is printed for the text of a file. -/
def runText (o : Options) (path : String) (src : Text) : Printed :=
  match TemplateFile.read src (.startingAt 1) with
  | .error r =>
    .complaint (place path src r.error.offset ++ "syntax error: ".toList
      ++ r.error.message.toList)
  | .ok (file, ids) =>
    let r := file.rewrite o.config ids
    let lines := r.diagnostics.flatMap fun d =>
      place path src d.location.start ++ d.fault.message.toList ++ ['\n']
    { out := r.result.templates.flatMap (o.show path)
      err := if o.quiet then [] else lines
      failed := !r.diagnostics.isEmpty }

/-- What is printed for a path. -/
def runPath (o : Options) (path : String) (contents : Contents) : Printed :=
  match contents.text with
  | .error reason => .complaint (path.toList ++ ": ".toList ++ reason.message.toList)
  | .ok src => runText o path src

/-- What is printed for files that have been read, in order. -/
def run (o : Options) : List (String × Contents) → Printed
  | [] => .nothing
  | (path, contents) :: files => (runPath o path contents).append (run o files)

/-- What the paths hold, where `file` reads a file.  The path `-` stands for standard input,
which is empty after it has been read once. -/
def contentsOf {m : Type → Type} [Monad m] (file : String → m Contents) (stdin : m Contents) :
    List String → m (List (String × Contents))
  | [] => pure []
  | "-" :: paths => do
    let contents ← stdin
    let later ← contentsOf file (pure (.ok .empty)) paths
    return ("-", contents) :: later
  | path :: paths => do
    let contents ← file path
    let later ← contentsOf file stdin paths
    return (path, contents) :: later

end CommandLine

end TemplateMarkup
