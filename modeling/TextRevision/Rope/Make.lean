import TextRevision.Fault
import TextRevision.Line.Breaks
import TextRevision.Rope.Balance

/-!
# Documents from lines and from strings

## Main definitions

- `Rope.ofLines?`: the document of some lines, if they are fit for one
- `Rope.ofString`: the document that a string spells
-/

namespace TextRevision.Rope

/-- The index of the first line that holds a line break. -/
def breakIndex? (lines : List String) : Option Nat :=
  lines.findIdx? fun line => line.toList.contains '\n'

/-- The document of some lines: at least one, and none with a line break in it. -/
def ofLines? (lines : List String) : Except Fault Rope :=
  if lines.isEmpty then .error .noLines
  else
    match breakIndex? lines with
    | some index => .error (.breakInLine index)
    | none => .ok (ofLines lines)

/-- The document that a string spells, its lines split as `Line.split` does. -/
def ofString (s : String) (sep : Option String) : Rope :=
  ofLines (Line.split s sep)

end TextRevision.Rope
