/-!
# Faults

Everything an operation on ropes or changes can refuse, as a cause with its data. The wording of a
fault is a function of the cause (`Fault.message`), and so is its class (`Fault.kind`).
-/

namespace TextRevision

/-- The kinds of values that have a written form in JSON. -/
inductive Written where
  | rope
  | outline
  | revision
  deriving DecidableEq, Repr

/-- The name under which a kind of value is reported. -/
def Written.name : Written → String
  | rope => "Text"
  | outline => "ChangeDesc"
  | revision => "ChangeSet"

/-- Why an operation has no result. -/
inductive Fault where
  /-- A position behind the end of a document. -/
  | position (pos length : Nat)
  /-- A line number outside `1 .. lines`. -/
  | lineNumber (line lines : Nat)
  /-- A range to be replaced that is reversed or runs past the end of the document. -/
  | changeRange (start stop length : Nat)
  /-- A change met a document, or another change, of a different length. -/
  | lengthMismatch (expected actual : Nat)
  /-- A document was to be made of no lines at all. -/
  | noLines
  /-- The line with this index holds a line break. -/
  | breakInLine (index : Nat)
  /-- A JSON value is not the written form of the kind of value that was asked for. -/
  | malformedJson (kind : Written)
  deriving DecidableEq, Repr

namespace Fault

inductive Kind where
  /-- A position, a line number or a range lies outside its bounds. -/
  | outOfRange
  /-- A written value is malformed, or two values do not fit together. -/
  | invalidArgument
  deriving DecidableEq, Repr

def kind : Fault → Kind
  | position .. => .outOfRange
  | lineNumber .. => .outOfRange
  | changeRange .. => .outOfRange
  | lengthMismatch .. => .invalidArgument
  | noLines => .invalidArgument
  | breakInLine .. => .invalidArgument
  | malformedJson .. => .invalidArgument

def message : Fault → String
  | position pos length => s!"Invalid position {pos} in document of length {length}"
  | lineNumber line lines => s!"Invalid line number {line} in {lines}-line document"
  | changeRange start stop length =>
    s!"Invalid change range {start} to {stop} (in doc of length {length})"
  | lengthMismatch expected actual =>
    s!"Mismatched change set lengths (got {actual}, expected {expected})"
  | noLines => "A document must have at least one line"
  | breakInLine index => s!"Line {index} contains a line break"
  | malformedJson kind => "Invalid JSON representation of " ++ kind.name

end Fault

end TextRevision
