import TextRevision.Direction
import TextRevision.Rope.Basic

/-!
# Cursors over a rope

A cursor reads a document chunk by chunk in one direction. A chunk is a piece of a line or the
break between two lines. Its place in the tree is a path of frames: what lies behind it at each
level, the rope it is in, and what lies ahead. Everything in a frame is told in the direction of
reading, so that turning a cursor round exchanges what is behind and what is ahead, and one rule
reads both ways.

## Main definitions

- `Cursor.ofRope`: a cursor at the end of a document from which the direction starts
- `Cursor.step`: the next chunk, some characters in front of it left out
- `Cursor.advance`: the same, with a skip that may go back
-/

namespace TextRevision

/-- What a frame of a cursor is made of: the lines of a leaf or the ropes of a branch. -/
inductive Piece where
  | line (text : String)
  | part (rope : Rope)

namespace Cursor

/-- A level of the tree that a cursor is in. -/
structure Frame where
  /-- The pieces that were read, the nearest first. -/
  behind : List Piece
  /-- The pieces still to be read, the nearest first. -/
  ahead : List Piece
  /-- Whether the break in front of the next piece was read. -/
  crossed : Bool

/-- A level above the one a cursor is in, and the rope through which the path goes on. -/
structure Parent where
  /-- The pieces that were read, the nearest first. -/
  behind : List Piece
  child : Rope
  /-- The pieces behind that rope in the direction of reading, the nearest first. -/
  ahead : List Piece

mutual

/-- A bound on the moves that reading a rope takes. -/
def moves : Rope → Nat
  | .leaf lines _ => 2 * lines.length + 3
  | .branch children _ _ => movesOf children + 3

/-- A bound on the moves that reading several ropes takes. -/
def movesOf : List Rope → Nat
  | [] => 0
  | r :: rs => moves r + movesOf rs

end

/-- A bound on the moves that reading some pieces takes. -/
def pieceMoves : List Piece → Nat
  | [] => 0
  | .line _ :: ps => 2 + pieceMoves ps
  | .part r :: ps => moves r + pieceMoves ps

/-- A bound on the moves that the rest of a frame takes. -/
def Frame.moves (f : Frame) : Nat :=
  pieceMoves f.ahead + if f.crossed then 0 else 1

/-- A bound on the moves that the levels above take. -/
def parentMoves : List Parent → Nat
  | [] => 0
  | p :: ps => pieceMoves p.ahead + 2 + parentMoves ps

def pieces : Rope → List Piece
  | .leaf lines _ => lines.map .line
  | .branch children _ _ => children.map .part

/-- The frame in front of all pieces of a rope. No break stands in front of the first. -/
def enter (dir : Direction) (r : Rope) : Frame :=
  ⟨[], dir.order (pieces r), true⟩

theorem pieceMoves_append (ps qs : List Piece) :
    pieceMoves (ps ++ qs) = pieceMoves ps + pieceMoves qs := by
  induction ps with
  | nil => simp [pieceMoves]
  | cons p ps ih => cases p <;> simp [pieceMoves, ih, Nat.add_assoc]

theorem pieceMoves_reverse (ps : List Piece) : pieceMoves ps.reverse = pieceMoves ps := by
  induction ps with
  | nil => rfl
  | cons p ps ih => cases p <;> simp [pieceMoves, pieceMoves_append, ih, Nat.add_comm]

theorem pieceMoves_pieces (r : Rope) : pieceMoves (pieces r) + 3 = moves r := by
  cases r with
  | leaf lines length =>
    induction lines with
    | nil => simp [pieces, pieceMoves, moves]
    | cons l ls ih =>
      simp only [pieces, pieceMoves, moves, List.map_cons, List.length_cons] at ih ⊢
      omega
  | branch children length lineCount =>
    simp only [pieces, moves]
    induction children with
    | nil => simp [pieceMoves, movesOf]
    | cons c cs ih =>
      simp only [List.map_cons, pieceMoves, movesOf] at ih ⊢
      omega

theorem moves_enter (dir : Direction) (r : Rope) : (enter dir r).moves + 3 = moves r := by
  cases dir <;> simp [enter, Frame.moves, Direction.order, pieceMoves_reverse, pieceMoves_pieces]

end Cursor

/-- A reader of a document in one direction, and the chunk it read last. -/
structure Cursor where
  dir : Direction
  frame : Cursor.Frame
  /-- The levels above, the innermost first. -/
  parents : List Cursor.Parent
  /-- The chunk that was read last; empty before the first and behind the last. -/
  chunk : String
  isBreak : Bool
  isDone : Bool

namespace Cursor

/-- A cursor in front of a document in the direction of reading. -/
def ofRope (r : Rope) (dir : Direction) : Cursor where
  dir := dir
  frame := enter dir r
  parents := []
  chunk := ""
  isBreak := false
  isDone := false

/-- What is left of a line when `skip` characters are left out in the direction of reading. -/
def rest (dir : Direction) (line : String) (skip : Nat) : String :=
  match dir with
  | .forward => Line.extract line skip line.length
  | .backward => Line.extract line 0 (line.length - skip)

/-- The cursor behind the next chunk, from a place in the tree: breaks and lines that the skip
covers are passed, a rope is passed as a whole if the skip reaches past its end, and what is left
of the first line or break behind the skip is the chunk. -/
def seek (dir : Direction) (frame : Frame) (parents : List Parent) (skip : Nat) : Cursor :=
  match frame with
  | ⟨behind, [], crossed⟩ =>
    match parents with
    | [] => ⟨dir, ⟨behind, [], crossed⟩, [], "", false, true⟩
    | p :: ps => seek dir ⟨.part p.child :: p.behind, p.ahead, false⟩ ps skip
  | ⟨behind, piece :: ahead, false⟩ =>
    if skip = 0 then ⟨dir, ⟨behind, piece :: ahead, true⟩, parents, "\n", true, false⟩
    else seek dir ⟨behind, piece :: ahead, true⟩ parents (skip - 1)
  | ⟨behind, .line text :: ahead, true⟩ =>
    if skip < text.length then
      ⟨dir, ⟨.line text :: behind, ahead, false⟩, parents, rest dir text skip, false, false⟩
    else seek dir ⟨.line text :: behind, ahead, false⟩ parents (skip - text.length)
  | ⟨behind, .part r :: ahead, true⟩ =>
    if r.length < skip then
      seek dir ⟨.part r :: behind, ahead, false⟩ parents (skip - r.length)
    else seek dir (enter dir r) (⟨behind, r, ahead⟩ :: parents) skip
termination_by frame.moves + parentMoves parents
decreasing_by
  · simp only [Frame.moves, parentMoves, pieceMoves, Bool.false_eq_true, if_false]
    split <;> omega
  · simp only [Frame.moves, if_true, Bool.false_eq_true, if_false]
    omega
  · simp only [Frame.moves, pieceMoves, if_true, Bool.false_eq_true, if_false]
    omega
  · have := pieceMoves_pieces r
    simp only [Frame.moves, pieceMoves, if_true, Bool.false_eq_true, if_false]
    omega
  · have := moves_enter dir r
    simp only [Frame.moves, parentMoves, pieceMoves, if_true] at this ⊢
    omega

/-- The cursor behind the next chunk when `skip` characters in front of it are left out. -/
def step (c : Cursor) (skip : Nat) : Cursor :=
  seek c.dir c.frame c.parents skip

/-- A frame read the other way: a break that was read is unread. -/
def Frame.flip (f : Frame) : Frame :=
  ⟨f.ahead, f.behind, !f.crossed⟩

def Parent.flip (p : Parent) : Parent :=
  ⟨p.ahead, p.child, p.behind⟩

def flip (c : Cursor) : Cursor :=
  { c with dir := c.dir.reverse, frame := c.frame.flip, parents := c.parents.map Parent.flip }

/-- The cursor behind the next chunk, `skip` characters on or, for a negative skip, back. Going
back reads a chunk the other way, which is then left out, so that the chunk read is the one it ends
at. -/
def advance (c : Cursor) (skip : Int) : Cursor :=
  match skip with
  | .ofNat n => c.step n
  | .negSucc n =>
    let back := (c.flip.step (n + 1)).flip
    back.step back.chunk.length

theorem advance_natCast (c : Cursor) (skip : Nat) : c.advance skip = c.step skip := rfl

end Cursor

end TextRevision
