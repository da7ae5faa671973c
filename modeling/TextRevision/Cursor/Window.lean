import TextRevision.Cursor.Chunked
import TextRevision.Word

/-!
# Windows

A window reads the part of a document between two places, from the first of them towards the second,
forward or backward. It drives a cursor over the whole document, passes what lies in front of the
range and cuts off what lies behind it. Distances are told in signed words, into which the place
reached and both ends of the range are put before they are measured.
-/

namespace TextRevision

/-- A reader of a range of a document. -/
structure Window where
  /-- The reader of the whole document. -/
  cursor : Cursor
  chunk : String
  isDone : Bool
  /-- The place that the cursor has reached. -/
  pos : Nat
  low : Nat
  high : Nat

namespace Window

/-- A window from place `start` towards place `stop`, both clipped to the document. -/
def ofRope (r : Rope) (start stop : Nat) : Window :=
  let start := min start r.length
  let stop := min stop r.length
  let dir := if stop < start then Direction.backward else Direction.forward
  { cursor := Cursor.ofRope r dir
    chunk := ""
    isDone := false
    pos := if stop < start then r.length else 0
    low := min start stop
    high := max start stop }

/-- Whether nothing of the range is left in the direction of reading. -/
def isSpent (w : Window) : Bool :=
  match w.cursor.dir with
  | .forward => w.high ≤ w.pos
  | .backward => w.pos ≤ w.low

/-- How far the place reached lies in front of the range. -/
def lead (w : Window) : Int :=
  match w.cursor.dir with
  | .forward => max (signedWord w.low - signedWord w.pos) 0
  | .backward => max (signedWord w.pos - signedWord w.high) 0

/-- How far the place reached lies in front of the end of the range. -/
def room (w : Window) : Int :=
  match w.cursor.dir with
  | .forward => signedWord w.high - signedWord w.pos
  | .backward => signedWord w.pos - signedWord w.low

/-- The first characters of a chunk in the direction of reading. -/
def trim (dir : Direction) (chunk : String) (limit : Int) : String :=
  if chunk.length ≤ limit then chunk
  else
    match dir with
    | .forward => Line.extract chunk 0 limit.toNat
    | .backward => Line.extract chunk (chunk.length - limit).toNat chunk.length

/-- The window behind the next chunk, the skip being told in the direction of reading. -/
def step (w : Window) (skip : Int) : Window :=
  if w.isSpent then { w with chunk := "", isDone := true }
  else
    let skip := min (skip + w.lead) w.room
    let limit := w.room - skip
    let cursor := w.cursor.advance skip
    let chunk := trim w.cursor.dir cursor.chunk limit
    { w with
      cursor := cursor
      chunk := chunk
      isDone := chunk.isEmpty
      pos := (signedWord w.pos + (cursor.chunk.length + skip) * w.cursor.dir.sign).toNat }

/-- The window behind the next chunk. A skip is held to the range, whose ends are measured from the
place reached. -/
def advance (w : Window) (skip : Int) : Window :=
  w.step <|
    if skip < 0 then max skip (signedWord w.low - signedWord w.pos)
    else if 0 < skip then min skip (signedWord w.high - signedWord w.pos)
    else 0

def isBreak (w : Window) : Bool :=
  w.cursor.isBreak && !w.chunk.isEmpty

instance : Chunked Window where
  advance := Window.advance
  chunk := Window.chunk
  isBreak := Window.isBreak
  isDone := Window.isDone

end Window

/-- The chunks of a range of a document, read from `start` towards `stop`. -/
def Rope.chunksBetween (r : Rope) (start stop : Nat) : List String :=
  Chunked.toList (r.length + 1) (Window.ofRope r start stop)

end TextRevision
