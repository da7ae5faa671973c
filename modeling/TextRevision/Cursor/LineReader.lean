import TextRevision.Checked
import TextRevision.Cursor.Window
import TextRevision.Rope.Lookup

/-!
# Readers by lines

A line reader hides the breaks of another reader and yields the chunks between them, an empty one
where two breaks meet and where the text starts or ends with a break.
-/

namespace TextRevision

/-- A reader that yields lines. -/
structure LineReader (γ : Type) where
  inner : γ
  /-- Whether the reader stands behind a break, or in front of the whole text. -/
  afterBreak : Bool
  chunk : String
  isDone : Bool

namespace LineReader

variable {γ : Type} [Chunked γ]

/-- A line reader in front of the text of another reader. -/
def ofReader (inner : γ) : LineReader γ :=
  ⟨inner, true, "", false⟩

/-- The line reader behind a break, its inner reader having moved on: an end or another break ends
an empty line there. -/
def settle (c : LineReader γ) (inner : γ) : LineReader γ :=
  if Chunked.isDone inner then { c with inner := inner, chunk := "", afterBreak := false }
  else if Chunked.isBreak inner then { c with inner := inner, chunk := "", afterBreak := true }
  else { c with inner := inner, chunk := Chunked.chunk inner, afterBreak := false }

/-- The line reader behind the next line, a signed number of characters being skipped first. -/
def advance (c : LineReader γ) (skip : Int) : LineReader γ :=
  let inner := Chunked.advance c.inner skip
  if c.afterBreak then c.settle inner
  else if Chunked.isDone inner then { c with inner := inner, chunk := "", isDone := true }
  else if Chunked.isBreak inner then c.settle (Chunked.advance inner 0)
  else { c with inner := inner, chunk := Chunked.chunk inner }

instance : Chunked (LineReader γ) where
  advance := LineReader.advance
  chunk := LineReader.chunk
  isBreak := fun _ => false
  isDone := LineReader.isDone

end LineReader

/-- A bound on line numbers. -/
inductive Bound where
  /-- The line with this number still belongs to the range. -/
  | included (n : Nat)
  /-- The line with this number does not belong to the range. -/
  | excluded (n : Nat)
  | unbounded

namespace Bound

/-- The number of the first line of a range. -/
def first : Bound → Nat
  | included n => n
  | excluded n => n + 1
  | unbounded => 1

/-- The number behind that of the last line of a range, in a document of `lines` lines. -/
def behind (lines : Nat) : Bound → Nat
  | included n => n + 1
  | excluded n => n
  | unbounded => lines + 1

/-- The number of the first line of a range, if a word holds it. -/
def first? : Bound → Option Nat
  | included n => some n
  | excluded n => word? (n + 1)
  | unbounded => some 1

/-- The number behind that of the last line of a range, if a word holds it. -/
def behind? (lines : Nat) : Bound → Option Nat
  | included n => word? (n + 1)
  | excluded n => some n
  | unbounded => word? (lines + 1)

end Bound

namespace Rope

/-- A reader of the lines with numbers from `first` up to one in front of `behind`. -/
def readerFrom (r : Rope) (first behind : Nat) : Except Fault (LineReader Window) := do
  let start := (← r.line first).start
  let stop ←
    if behind = r.lineCount + 1 then pure r.length
    else if behind ≤ 1 then pure 0
    else (·.stop) <$> r.line (behind - 1)
  return LineReader.ofReader (Window.ofRope r start (max start stop))

/-- A reader of the lines with numbers in a range. -/
def lineReader (r : Rope) (lower upper : Bound) : Except Fault (LineReader Window) :=
  r.readerFrom lower.first (upper.behind r.lineCount)

/-- The lines with numbers in a range. A document has at most one line more than characters. -/
def linesBetween (r : Rope) (lower upper : Bound) : Except Fault (List String) :=
  (Chunked.toList (r.length + 2)) <$> r.lineReader lower upper

/-- A reader of the lines with numbers in a range of which words hold both ends. -/
def lineReader? (r : Rope) (lower upper : Bound) : Checked (LineReader Window) := do
  let first ← lower.first?
  let behind ← upper.behind? r.lineCount
  r.readerFrom first behind

/-- The lines with numbers in a range of which words hold both ends. -/
def linesBetween? (r : Rope) (lower upper : Bound) : Checked (List String) :=
  (Chunked.toList (r.length + 2)) <$> r.lineReader? lower upper

end Rope

end TextRevision
