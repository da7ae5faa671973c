/-!
# Splitting a string into lines

By default a carriage return, a line feed or the two in this order end a line. A separator of one's
own ends a line at its leftmost occurrences that do not overlap. Either way there is at least one
line.

## Main definitions

- `Line.atBreaks`: the lines between breaks
- `Line.atSeparator`: the lines between the occurrences of a separator
- `Line.split`: the choice between the two
-/

namespace TextRevision.Line

/-- A character in front of the first of several pieces. -/
def consFirst (c : Char) : List (List Char) → List (List Char)
  | [] => [[c]]
  | piece :: pieces => (c :: piece) :: pieces

/-- The pieces of a text between its line breaks. A carriage return takes a line feed behind it
along. -/
def atBreaks : List Char → List (List Char)
  | [] => [[]]
  | '\r' :: '\n' :: cs => [] :: atBreaks cs
  | '\r' :: cs => [] :: atBreaks cs
  | '\n' :: cs => [] :: atBreaks cs
  | c :: cs => consFirst c (atBreaks cs)

/-- The pieces of a text between the occurrences of `sep`, the first `skip` characters left out:
they belong to an occurrence already met. -/
def atSeparator (sep : List Char) : (skip : Nat) → List Char → List (List Char)
  | _, [] => [[]]
  | skip + 1, _ :: cs => atSeparator sep skip cs
  | 0, c :: cs =>
    if sep.isPrefixOf (c :: cs) then [] :: atSeparator sep (sep.length - 1) cs
    else consFirst c (atSeparator sep 0 cs)

/-- The lines of a string. An empty separator is no separator. -/
def split (s : String) (sep : Option String) : List String :=
  let pieces :=
    match sep.map String.toList with
    | some (c :: cs) => atSeparator (c :: cs) 0 s.toList
    | _ => atBreaks s.toList
  pieces.map String.ofList

theorem consFirst_ne_nil (c : Char) (pieces : List (List Char)) : consFirst c pieces ≠ [] := by
  cases pieces <;> simp [consFirst]

theorem atBreaks_ne_nil (cs : List Char) : atBreaks cs ≠ [] := by
  fun_cases atBreaks cs <;> simp [consFirst_ne_nil]

theorem atSeparator_ne_nil (sep : List Char) (skip : Nat) (cs : List Char) :
    atSeparator sep skip cs ≠ [] := by
  induction cs generalizing skip with
  | nil => cases skip <;> simp [atSeparator]
  | cons c cs ih =>
    cases skip with
    | zero => simp only [atSeparator]; split <;> simp [consFirst_ne_nil]
    | succ skip => simpa [atSeparator] using ih skip

end TextRevision.Line
