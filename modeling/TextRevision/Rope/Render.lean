import TextRevision.Character.Hangul
import TextRevision.Character.Mark
import TextRevision.Character.Printable
import TextRevision.Rope.Splice

/-!
# The text of a rope as a string

A range of a document is written with a separator of choice between its lines. The structure of a
document is shown as nested lists of quoted lines.

## Main definitions

- `Rope.render`: the text of a range, its lines joined by a separator
- `Rope.toText`: the whole text, its lines joined by line feeds
- `Rope.treeText`: the lines as a nested list that shows the tree
-/

namespace TextRevision.Rope

/-- What a range holds of lines from place `pos` on, and the separators between them; `first` says
that no line stands in front. -/
def rangeOfBlock (sep : String) (start stop : Nat) :
    List String → (pos : Nat) → (first : Bool) → List String
  | [], _, _ => []
  | line :: lines, pos, first =>
    if stop < pos then []
    else
      (if start < pos ∧ !first then [sep] else [])
        ++ (if start < pos + line.length ∧ pos < stop then
            [Line.extract line (start - pos) (stop - pos)] else [])
        ++ rangeOfBlock sep start stop lines (pos + line.length + 1) false

mutual

/-- What a range holds of the lines of a rope, and the separators between them. -/
def range (sep : String) : Rope → (start stop : Nat) → List String
  | leaf lines _, start, stop => rangeOfBlock sep start stop lines 0 true
  | branch children _ _, start, stop => rangeAmong sep children start stop 0 true

/-- What a range holds of ropes from place `pos` on. -/
def rangeAmong (sep : String) :
    List Rope → (start stop pos : Nat) → (first : Bool) → List String
  | [], _, _, _, _ => []
  | r :: rs, start, stop, pos, first =>
    if stop < pos then []
    else
      (if start < pos ∧ !first then [sep] else [])
        ++ (if start < pos + r.length ∧ pos < stop then r.range sep (start - pos) (stop - pos)
          else [])
        ++ rangeAmong sep rs start stop (pos + r.length + 1) false

end

/-- The slice between two places as a string, its lines joined by a separator. The range is clipped,
and its ends may come in either order. -/
def render (r : Rope) (start stop : Nat) (sep : String) : String :=
  let (start, stop) := clip r.length start stop
  String.join (r.range sep start stop)

/-- The whole text, its lines joined by line feeds. -/
def toText (r : Rope) : String :=
  r.render 0 r.length "\n"

/-- The digits of a number in hexadecimal, in lower case. -/
def hexDigits (n : Nat) : List Char :=
  Nat.toDigits 16 n

/-- Whether a character cannot be seen for what it is: a mark is written onto the character in front
of it, unless it has a place of its own, and of some characters there is nothing to see. -/
def isHidden (c : Char) : Bool :=
  (Character.extenders.has c && !Character.soundMarks.has c)
    || Character.fillers.has c || Character.unprintable.has c

/-- The characters that show a character between quotes. One that cannot be seen for what it is is
shown by its number. -/
def shown (c : Char) : List Char :=
  match c with
  | '"' => ['\\', '"']
  | '\\' => ['\\', '\\']
  | '\t' => ['\\', 't']
  | '\r' => ['\\', 'r']
  | '\n' => ['\\', 'n']
  | '\x00' => ['\\', '0']
  | c =>
    if isHidden c then ['\\', 'u', '\x7b'] ++ hexDigits c.toNat ++ ['\x7d'] else [c]

def quoted (line : String) : String :=
  "\"" ++ String.ofList (line.toList.flatMap shown) ++ "\""

def bracketed (items : List String) : String :=
  "[" ++ ", ".intercalate items ++ "]"

mutual

/-- The lines of a rope as a nested list that shows its tree. -/
def treeText : Rope → String
  | leaf lines _ => bracketed (lines.map quoted)
  | branch children _ _ => bracketed (treeTexts children)

def treeTexts : List Rope → List String
  | [] => []
  | r :: rs => r.treeText :: treeTexts rs

end

end TextRevision.Rope
