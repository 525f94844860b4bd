/-
# Lists of lines

The lines of a printed outline, and the first place where two lists of lines differ, shown with
two lines of context on either side.
-/
import TemplateMarkup.Text.Blank

namespace TemplateMarkup

namespace Text

/-! ## 1. Lines of a text -/

/-- The lines that hold more than blanks, without the blanks at their ends. -/
def outlineLines (t : Text) : List Text :=
  (t.pieces.map trimEnd).filter fun line => !line.isEmpty

/-! ## 2. Differences -/

/-- Line `i` of a list, where a line that is not there has a text of its own. -/
def lineAt (lines : List Text) (i : Nat) : Text := (lines[i]?).getD "<missing>".toList

/-- A number with blanks before it, four characters at least. -/
def padded (n : Nat) : Text :=
  let digits := n.repr.toList
  List.replicate (4 - digits.length) ' ' ++ digits

/-- The two lines that show line `i` of both lists; `marked` tells the first difference. -/
def showPair (marked : Bool) (expected actual : List Text) (i : Nat) : Text :=
  let label := [if marked then '>' else ' ', ' '] ++ padded (i + 1)
  label ++ "  expected: ".toList ++ lineAt expected i ++ ['\n']
    ++ label ++ "    actual: ".toList ++ lineAt actual i ++ ['\n']

/-- The first index below `n` at which the lists differ. -/
def firstDifference (expected actual : List Text) (n : Nat) : Option Nat :=
  (List.range n).find? fun i => lineAt expected i != lineAt actual i

/-- The report on two lists of lines: the first difference in its context, and how many lines
there are. -/
def diffLines (expected actual : List Text) : Text :=
  let longest := max expected.length actual.length
  let context := match firstDifference expected actual longest with
    | none => []
    | some i =>
      let start := i - 2
      let stop := min (i + 3) longest
      "first mismatch at line ".toList ++ (i + 1).repr.toList ++ " (showing ".toList
        ++ (start + 1).repr.toList ++ "..=".toList ++ stop.repr.toList ++ "):\n".toList
        ++ (List.range' start (stop - start)).flatMap fun j =>
          showPair (j == i) expected actual j
  context ++ "expected ".toList ++ expected.length.repr.toList ++ " lines, actual ".toList
    ++ actual.length.repr.toList ++ " lines\n".toList

end Text

end TemplateMarkup
