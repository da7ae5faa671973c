import TextRevision.Rope.Splice
import TextRevision.Word

/-!
# Spans of a change

A change is a list of spans: a run of characters that it keeps, or one that it replaces. A span
counts what it inserts in a signed word, and every negative count marks a kept run. A run is put
into a change with the mark −1. Other marks come up where a count is too large for its word: undoing
the removal of 2⁶³ characters or more asks for a count that is read as negative.

What a span inserts is told beside its count: a document in a revision, nothing in an outline. The
class `Insertion` says what the two have in common, so that every walk over changes is written once.

## Main definitions

- `Insertion`: documents and nothing, as things that are inserted
- `Span`: a kept or a replaced run
- `Span.push`: a span put behind others, merged where the two make one run
-/

namespace TextRevision

/-- What can take the place of characters. -/
class Insertion (α : Type) where
  empty : α
  isEmpty : α → Bool
  append : α → α → α
  /-- The part of an insertion between two places. -/
  extract : α → (start stop : Nat) → α

instance : Insertion Rope where
  empty := Rope.empty
  isEmpty := Rope.isEmpty
  append := Rope.append
  extract := Rope.extract

/-- An insertion of which no more is told than its count. -/
instance : Insertion Unit where
  empty := ()
  isEmpty := fun _ => true
  append := fun _ _ => ()
  extract := fun _ _ _ => ()

/-- One insertion behind another; nothing is put behind or in front of an empty one. -/
def Insertion.join {α : Type} [Insertion α] (x y : α) : α :=
  if isEmpty y then x else if isEmpty x then y else append x y

/-- A section of a change: a run of the old document and what takes its place. -/
structure Span (α : Type) where
  /-- The number of characters of the old document. -/
  length : Nat
  /-- The number of characters that take their place; a negative one marks a run that is kept. -/
  count : Int
  text : α
  deriving DecidableEq, Repr

namespace Span

variable {α β : Type}

def keptMark : Int := -1

/-- The mark at which a walk over spans takes them to be at their end. -/
def endMark : Int := -2

def isKept (s : Span α) : Bool :=
  s.count < 0

/-- The number of characters of the new document. -/
def newLength (s : Span α) : Nat :=
  if s.isKept then s.length else s.count.toNat

/-- Whether the run has no characters in either document. -/
def isVoid (s : Span α) : Bool :=
  s.length = 0 && s.count ≤ 0

/-- The run with another insertion of the same count. -/
def map (f : α → β) (s : Span α) : Span β :=
  ⟨s.length, s.count, f s.text⟩

def shape (s : Span α) : Span Unit :=
  s.map fun _ => ()

variable [Insertion α]

def keep (length : Nat) : Span α :=
  ⟨length, keptMark, Insertion.empty⟩

/-- A run of characters that a document takes the place of. -/
def replace (length : Nat) (text : Rope) : Span Rope :=
  ⟨length, signedWord text.length, text⟩

/-- A run put behind others, which are told newest first, before its insertion is. A run without
characters is dropped. Two runs with the same mark are one, and so are two deletions and two
insertions at one place. With `join`, two runs are one in any case. -/
def pushRun (join : Bool) (spans : List (Span α)) (s : Span α) : List (Span α) :=
  if s.isVoid then spans
  else
    match spans with
    | [] => [⟨s.length, s.count, Insertion.empty⟩]
    | last :: rest =>
      if s.count ≤ 0 ∧ s.count = last.count then
        ⟨last.length + s.length, last.count, last.text⟩ :: rest
      else if (s.length = 0 ∧ last.length = 0) ∨ join then
        ⟨last.length + s.length, last.count + s.count, last.text⟩ :: rest
      else ⟨s.length, s.count, Insertion.empty⟩ :: last :: rest

/-- The spans with an insertion put at the end of the newest one's. -/
def attach (text : α) : List (Span α) → List (Span α)
  | [] => []
  | last :: rest => ⟨last.length, last.count, Insertion.join last.text text⟩ :: rest

/-- A span put behind others, which are told newest first. -/
def push (join : Bool) (spans : List (Span α)) (s : Span α) : List (Span α) :=
  attach s.text (pushRun join spans s)

end Span

end TextRevision
