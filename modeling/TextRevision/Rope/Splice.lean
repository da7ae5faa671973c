import TextRevision.Line.Block
import TextRevision.Rope.Balance

/-!
# Editing ropes

An edit replaces a range of a document by another document. In a small leaf the lines are cut and
glued; in a branch the edit is made in the one child that holds the whole range, if there is one and
its size stays in keeping with the others; otherwise the pieces in front of the range, the new text
and the pieces behind it are welded together and built into a balanced rope.

## Main definitions

- `Rope.cut`: the pieces of a rope between two places
- `Rope.weld`: pieces in front of others, the leaves that meet being joined
- `Rope.splice`: a document with a range replaced
- `Rope.extract`: the document between two places
-/

namespace TextRevision.Rope

mutual

/-- The pieces that a rope is decomposed into from `start` to `stop`. A whole child is one piece,
unless it reaches an edge that has to be welded (`left`, `right`): there the piece is a leaf. -/
def cut : Rope → (start stop : Nat) → (left right : Bool) → List Rope
  | leaf lines length, start, stop, _, _ =>
    [if start = 0 ∧ length ≤ stop then leaf lines length
      else leaf (Block.extract lines start stop) (min stop length - start)]
  | branch children _ _, start, stop, left, right => cutAll children 0 start stop left right

/-- The pieces of ropes that stand under each other from place `pos` on. -/
def cutAll : List Rope → (pos start stop : Nat) → (left right : Bool) → List Rope
  | [], _, _, _, _, _ => []
  | r :: rs, pos, start, stop, left, right =>
    if stop < pos then []
    else
      let left' := left && pos ≤ start
      let right' := right && stop ≤ pos + r.length
      (if start ≤ pos + r.length then
          if start ≤ pos ∧ pos + r.length ≤ stop ∧ !left' ∧ !right' then [r]
          else r.cut (start - pos) (stop - pos) left' right'
        else [])
        ++ cutAll rs (pos + r.length + 1) start stop left right

end

/-- The leaf that two leaves make without a break between them, or its halves if it is too large. -/
def joinLeaves (front : List String) (frontLength : Nat) (back : List String) (backLength : Nat) :
    List Rope :=
  let lines := Block.glue front back
  if lines.length ≤ leafLimit then [leaf lines (frontLength + backLength)]
  else [ofBlock (lines.take (lines.length / 2)), ofBlock (lines.drop (lines.length / 2))]

/-- Pieces in front of other pieces, the last of the ones and the first of the others being joined
without a break. Both have to be leaves (`Weldable`). -/
def weld : List Rope → List Rope → List Rope
  | [], later => later
  | [leaf front frontLength], leaf back backLength :: later =>
    joinLeaves front frontLength back backLength ++ later
  | [piece], later => piece :: later
  | piece :: pieces, later => piece :: weld pieces later

/-- Whether pieces can be welded: leaves meet. -/
def Weldable (front back : List Rope) : Prop :=
  (∃ lines length, front.getLast? = some (leaf lines length)) ∧
    ∃ lines length, back.head? = some (leaf lines length)

/-- A range clipped to a text of the given length, its ends in order. -/
def clip (length start stop : Nat) : Nat × Nat :=
  (min (min start stop) length, min (max start stop) length)

/-- The pieces of `r` with `[start, stop)` replaced by `text`. -/
def spliceParts (r : Rope) (start stop : Nat) (text : Rope) : List Rope :=
  let front := r.cut 0 start false true
  let inner := if text.isEmpty then front else weld front (text.cut 0 text.length true true)
  weld inner (r.cut stop r.length true false)

/-- A rope with `[start, stop)` replaced by `text`, built anew from its pieces. -/
def rebuild (r : Rope) (start stop : Nat) (text : Rope) : Rope :=
  ofParts (spliceParts r start stop text) (r.length - (stop - start) + text.length)

/-- An edit that one child of a branch takes in. -/
structure Inner where
  before : List Rope
  /-- The place where the child starts. -/
  start : Nat
  old : Rope
  new : Rope
  after : List Rope

/-- Whether a child of `lines` lines is of a size that suits a rope of `total` lines. -/
def inBand (lines total : Nat) : Bool :=
  total / 64 < lines && lines < total / 16

mutual

/-- The document with the characters of a range replaced by another document. The range is clipped
to the document, and its ends may come in either order. -/
def splice : Rope → (start stop : Nat) → (text : Rope) → Rope
  | leaf lines length, start, stop, text =>
    let (start, stop) := clip length start stop
    match text with
    | leaf inserted insertedLength =>
      let joined :=
        Block.glue (Block.glue (Block.extract lines 0 start) inserted)
          (Block.pieces lines stop (Line.total lines))
      let newLength := length - (stop - start) + insertedLength
      if joined.length ≤ leafLimit then leaf joined newLength
      else ofParts (leaves joined) newLength
    | branch .. => rebuild (leaf lines length) start stop text
  | branch children length lineCount, start, stop, text =>
    let (start, stop) := clip length start stop
    let r := branch children length lineCount
    if text.lineCount < lineCount then
      match spliceIn children 0 start stop text with
      | some inner =>
        if inBand inner.new.lineCount (lineCount - inner.old.lineCount + inner.new.lineCount) then
          ofChildren (inner.before ++ inner.new :: inner.after)
            (length - (stop - start) + text.length)
        else rebuild r inner.start (inner.start + inner.old.length) inner.new
      | none => rebuild r start stop text
    else rebuild r start stop text

/-- The edit in the first rope that holds the whole range, for ropes that stand under each other
from place `pos` on. -/
def spliceIn : List Rope → (pos start stop : Nat) → (text : Rope) → Option Inner
  | [], _, _, _, _ => none
  | r :: rs, pos, start, stop, text =>
    if pos ≤ start ∧ stop ≤ pos + r.length then
      some ⟨[], pos, r, r.splice (start - pos) (stop - pos) text, rs⟩
    else
      (spliceIn rs (pos + r.length + 1) start stop text).map fun inner =>
        { inner with before := r :: inner.before }

end

/-- A document with another one put at its end. -/
def append (r other : Rope) : Rope :=
  r.splice r.length r.length other

instance : Append Rope := ⟨append⟩

/-- The slice of a document between two places, clipped and ordered like the range of an edit. -/
def extract (r : Rope) (start stop : Nat) : Rope :=
  let (start, stop) := clip r.length start stop
  ofParts (r.cut start stop false false) (stop - start)

end TextRevision.Rope
