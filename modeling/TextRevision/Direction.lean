/-!
# Reading directions

A text is read forward, from its first character, or backward, from its last one.
-/

namespace TextRevision

inductive Direction where
  | forward
  | backward
  deriving DecidableEq, Repr, Inhabited

namespace Direction

def reverse : Direction → Direction
  | forward => backward
  | backward => forward

/-- The sign of a move in the direction: positions grow forward and shrink backward. -/
def sign : Direction → Int
  | forward => 1
  | backward => -1

/-- A list in the order in which the direction meets its elements. -/
def order {α : Type} : Direction → List α → List α
  | forward, xs => xs
  | backward, xs => xs.reverse

@[simp] theorem reverse_reverse (d : Direction) : d.reverse.reverse = d := by
  cases d <;> rfl

@[simp] theorem sign_reverse (d : Direction) : d.reverse.sign = -d.sign := by
  cases d <;> rfl

end Direction

end TextRevision
