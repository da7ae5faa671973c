import TextRevision.Line.Basic

/-!
# Blocks of lines

A block is a list of lines that stand under each other. A place in it counts characters, a break
between two lines being one of them, so that a range of places cuts the block into a piece of each
line it meets.

## Main definitions

- `Block.pieces`: what a range holds of each line it meets
- `Block.glue`: two blocks, the first line of the second put at the end of the last of the first
- `Block.extract`: the block between two places
-/

namespace TextRevision.Block

/-- The pieces of the lines of a block from place `start` to place `stop`. A range that ends at the
end of a line does not meet the next one; a range that starts there meets the line in an empty
piece. -/
def pieces : List String → (start stop : Nat) → List String
  | [], _, _ => []
  | line :: lines, start, stop =>
    (if start ≤ line.length then [Line.extract line start (min line.length stop)] else [])
      ++ if stop ≤ line.length then []
        else pieces lines (start - (line.length + 1)) (stop - (line.length + 1))

/-- One block after another, without a break between them. -/
def glue : List String → List String → List String
  | [], later => later
  | [last], first :: later => (last ++ first) :: later
  | [last], [] => [last]
  | line :: lines, later => line :: glue lines later

/-- The block between two places. It has at least one line. -/
def extract (block : List String) (start stop : Nat) : List String :=
  glue [""] (pieces block start stop)

theorem glue_nil (block : List String) : glue block [] = block := by
  induction block with
  | nil => rfl
  | cons line lines ih => cases lines <;> simp_all [glue]

end TextRevision.Block
