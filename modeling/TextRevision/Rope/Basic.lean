import TextRevision.Line.Basic

/-!
# Ropes

A rope is a document kept as a tree: a leaf holds lines, a branch holds ropes that stand under each
other. Every node stores the length of its text in characters, a break between two lines counting
as one, and a branch stores its number of lines too, so that neither has to be counted again.

## Main definitions

- `Rope`: the tree, with `Rope.length` and `Rope.lineCount` read off its root
- `Rope.lines`: the lines of a document, the view by which operations are described
- `Rope.depth`: the number of levels
-/

namespace TextRevision

/-- The text of a document as a tree of lines. -/
inductive Rope where
  | leaf (lines : List String) (length : Nat)
  /-- Ropes under each other, the length of the whole and its number of lines. -/
  | branch (children : List Rope) (length lineCount : Nat)

namespace Rope

/-- The greatest number of lines in a leaf. -/
def leafLimit : Nat := 32

/-- The document of one empty line. -/
def empty : Rope :=
  leaf [""] 0

instance : Inhabited Rope := ⟨empty⟩

/-- The number of characters, a break between two lines counting as one. -/
def length : Rope → Nat
  | leaf _ length => length
  | branch _ length _ => length

def lineCount : Rope → Nat
  | leaf lines _ => lines.length
  | branch _ _ lineCount => lineCount

def isEmpty (r : Rope) : Bool :=
  r.length = 0

def children? : Rope → Option (List Rope)
  | leaf .. => none
  | branch children _ _ => some children

/-- The number of lines of ropes that stand under each other. -/
def lineTotal (ropes : List Rope) : Nat :=
  sumBy lineCount ropes

/-- The length of ropes that stand under each other. -/
def joinedLength (ropes : List Rope) : Nat :=
  sumBy (fun r => r.length + 1) ropes - 1

/-- A leaf that knows its length. -/
def ofBlock (lines : List String) : Rope :=
  leaf lines (Line.total lines)

/-- A branch of the given length that knows its number of lines. -/
def ofChildren (children : List Rope) (length : Nat) : Rope :=
  branch children length (lineTotal children)

mutual

def lines : Rope → List String
  | leaf lines _ => lines
  | branch children _ _ => linesOf children

def linesOf : List Rope → List String
  | [] => []
  | r :: rs => r.lines ++ linesOf rs

end

mutual

/-- The number of levels; a leaf has one. -/
def depth : Rope → Nat
  | leaf .. => 1
  | branch children _ _ => depthOf children + 1

/-- The number of levels of the deepest of several ropes. -/
def depthOf : List Rope → Nat
  | [] => 0
  | r :: rs => max r.depth (depthOf rs)

end

@[simp] theorem length_leaf (ls : List String) (n : Nat) : (leaf ls n).length = n := rfl

@[simp] theorem length_branch (cs : List Rope) (n k : Nat) : (branch cs n k).length = n := rfl

@[simp] theorem lineCount_leaf (ls : List String) (n : Nat) :
    (leaf ls n).lineCount = ls.length := rfl

@[simp] theorem lineCount_branch (cs : List Rope) (n k : Nat) :
    (branch cs n k).lineCount = k := rfl

theorem linesOf_eq_flatMap (rs : List Rope) : linesOf rs = rs.flatMap lines := by
  induction rs with
  | nil => rfl
  | cons r rs ih => simp [linesOf, ih]

end Rope

end TextRevision
