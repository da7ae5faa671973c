import TextRevision.Cursor.Basic

/-!
# Readers by chunks

What cursors have in common: they advance by a signed skip, and they tell the chunk they read last,
whether it is a break, and whether they are done.
-/

namespace TextRevision

/-- A reader that yields a text in chunks. -/
class Chunked (γ : Type) where
  /-- The reader behind the next chunk, a signed number of characters being skipped first. -/
  advance : γ → Int → γ
  chunk : γ → String
  isBreak : γ → Bool
  isDone : γ → Bool

namespace Chunked

/-- The chunks that a reader yields until it is done, at most `limit` of them. -/
def toList {γ : Type} [Chunked γ] : (limit : Nat) → γ → List String
  | 0, _ => []
  | limit + 1, c =>
    let c := advance c 0
    if isDone c then [] else chunk c :: toList limit c

end Chunked

instance : Chunked Cursor where
  advance := Cursor.advance
  chunk := Cursor.chunk
  isBreak := Cursor.isBreak
  isDone := Cursor.isDone

/-- The chunks of a document. No chunk is empty, so that their number is at most its length. -/
def Rope.chunks (r : Rope) (dir : Direction) : List String :=
  Chunked.toList (r.length + 1) (Cursor.ofRope r dir)

end TextRevision
