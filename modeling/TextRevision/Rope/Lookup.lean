import TextRevision.Fault
import TextRevision.Rope.Basic

/-!
# Lines of a rope by number and by place

A line is found by its number, counted from one, or by a place in it. Both searches walk down one
path, guided by the stored numbers.
-/

namespace TextRevision

/-- A line and where it stands. -/
structure PlacedLine where
  /-- The place of its first character. -/
  start : Nat
  /-- The place behind its last character, in front of its break. -/
  stop : Nat
  /-- Its number, counted from one. -/
  number : Nat
  text : String
  deriving DecidableEq, Repr

namespace Rope

/-- What a line is looked for by. -/
inductive Target where
  | number (n : Nat)
  | place (pos : Nat)

/-- Whether a text whose last line has the given number and end reaches the target. -/
def Target.reached (lastNumber stop : Nat) : Target → Bool
  | number n => n ≤ lastNumber
  | place pos => pos ≤ stop

/-- The line that reaches the target, among lines from a number and a place on. -/
def findInBlock? (target : Target) : List String → (number start : Nat) → Option PlacedLine
  | [], _, _ => none
  | line :: lines, number, start =>
    if target.reached number (start + line.length) then
      some ⟨start, start + line.length, number, line⟩
    else findInBlock? target lines (number + 1) (start + line.length + 1)

mutual

/-- The line that reaches the target, in a rope from a number and a place on. -/
def find? (target : Target) : Rope → (number start : Nat) → Option PlacedLine
  | leaf lines _, number, start => findInBlock? target lines number start
  | branch children _ _, number, start => findAmong? target children number start

/-- The line that reaches the target, in ropes from a number and a place on. -/
def findAmong? (target : Target) : List Rope → (number start : Nat) → Option PlacedLine
  | [], _, _ => none
  | r :: rs, number, start =>
    if target.reached (number + r.lineCount - 1) (start + r.length) then
      r.find? target number start
    else findAmong? target rs (number + r.lineCount) (start + r.length + 1)

end

def line (r : Rope) (n : Nat) : Except Fault PlacedLine :=
  if n < 1 ∨ r.lineCount < n then .error (.lineNumber n r.lineCount)
  else
    match r.find? (.number n) 1 0 with
    | some l => .ok l
    | none => .error (.lineNumber n r.lineCount)

def lineAt (r : Rope) (pos : Nat) : Except Fault PlacedLine :=
  if r.length < pos then .error (.position pos r.length)
  else
    match r.find? (.place pos) 1 0 with
    | some l => .ok l
    | none => .error (.position pos r.length)

end Rope

end TextRevision
