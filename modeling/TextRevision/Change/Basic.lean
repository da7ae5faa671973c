import TextRevision.Checked
import TextRevision.Change.Span

/-!
# Changes

A change of a document is the list of its spans, or sections, from the start of the document to its
end. An `Outline`, the description of a change, tells how many characters each replaced run inserts,
a `Revision` tells which.

## Main definitions

- `Change`, `Outline`, `Revision`
- `Change.length`, `Change.newLength`: the lengths of both documents, and as words count them
- `Change.gaps`: the kept runs, with their places in both documents
- `Change.replacements`: the replaced runs, with their places in both documents
-/

namespace TextRevision

structure Change (α : Type) where
  /-- The runs of the old document, in order. -/
  spans : List (Span α)
  deriving DecidableEq, Repr

/-- A change that tells no more of its insertions than their counts: the description of a change. -/
abbrev Outline := Change Unit

/-- A change that tells the text of each insertion. -/
abbrev Revision := Change Rope

/-- A kept run. -/
structure Gap where
  /-- Where it starts in the old document. -/
  start : Nat
  /-- Where it starts in the new document. -/
  newStart : Nat
  length : Nat
  deriving DecidableEq, Repr

/-- A replaced run, or several that touch. -/
structure Replacement (α : Type) where
  /-- Where it starts in the old document. -/
  start : Nat
  /-- Where it ends in the old document. -/
  stop : Nat
  /-- Where the insertion starts in the new document. -/
  newStart : Nat
  /-- Where the insertion ends in the new document. -/
  newStop : Nat
  /-- The insertions that are not empty, in order. -/
  inserted : List α
  deriving DecidableEq, Repr

namespace Change

variable {α : Type}

/-- The length of the document that a change is made to. -/
def length (c : Change α) : Nat :=
  sumBy Span.length c.spans

/-- The length of the document that a change leads to. -/
def newLength (c : Change α) : Nat :=
  sumBy Span.newLength c.spans

/-- The length of the document that a change is made to, if words hold it as it is counted. -/
def length? (c : Change α) : Option Nat :=
  sumBy? Span.length c.spans

/-- The length of the document that a change leads to, if words hold it as it is counted. -/
def newLength? (c : Change α) : Option Nat :=
  sumBy? Span.newLength c.spans

def isEmpty (c : Change α) : Bool :=
  match c.spans with
  | [] => true
  | [s] => s.isKept
  | _ => false

/-- The change that keeps a document of the given length. -/
def unchanged [Insertion α] (length : Nat) : Change α :=
  ⟨if 0 < length then [.keep length] else []⟩

/-- What is known of a change without its insertions. -/
def outline (c : Change α) : Outline :=
  ⟨c.spans.map Span.shape⟩

/-- The kept runs among spans that start at two places. -/
def gapsFrom : (pos newPos : Nat) → List (Span α) → List Gap
  | _, _, [] => []
  | pos, newPos, s :: rest =>
    let later := gapsFrom (pos + s.length) (newPos + s.newLength) rest
    if s.isKept then ⟨pos, newPos, s.length⟩ :: later else later

def gaps (c : Change α) : List Gap :=
  gapsFrom 0 0 c.spans

/-- The replaced runs among spans that start at two places. Runs that touch are one unless each is
asked for. -/
def replacementsFrom (each : Bool) : (pos newPos : Nat) → List (Span α) → List (Replacement α)
  | _, _, [] => []
  | pos, newPos, s :: rest =>
    let stop := pos + s.length
    let newStop := newPos + s.newLength
    let later := replacementsFrom each stop newStop rest
    if s.isKept then later
    else
      let inserted := if 0 < s.count then [s.text] else []
      match rest, later with
      | next :: _, r :: later =>
        if each || next.isKept then ⟨pos, stop, newPos, newStop, inserted⟩ :: r :: later
        else ⟨pos, r.stop, newPos, r.newStop, inserted ++ r.inserted⟩ :: later
      | _, later => ⟨pos, stop, newPos, newStop, inserted⟩ :: later

/-- The replaced runs of a change, those that touch being one unless each is asked for. -/
def replacements (c : Change α) (each : Bool) : List (Replacement α) :=
  replacementsFrom each 0 0 c.spans

/-- The fault of a change that meets something of another length. -/
def fits (expected actual : Nat) : Except Fault Unit :=
  if expected = actual then .ok () else .error (.lengthMismatch expected actual)

end Change

end TextRevision
