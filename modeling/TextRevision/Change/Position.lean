import TextRevision.Change.Basic

/-!
# Places in a changed document

How a position of the old document is mapped to one of the new document, and how a change touches a
range of the old document. Places are found by counting the lengths of spans, and each search is
told twice: with numbers as they are, and with each number on the way held to its word.

## Main definitions

- `Change.locate`, `Change.locate?`: the new place of an old one, unless tracking tells that it was
  deleted
- `Change.newPlace`, `Change.newPlace?`: the new place of an old one in any case
- `Change.contact`, `Change.contact?`: whether a change touches or covers a range
-/

namespace TextRevision

/-- Where a place goes when text is inserted right at it: the side that it is associated with. -/
inductive Side where
  /-- It stays before the insertion. -/
  | before
  /-- It goes behind the insertion. -/
  | after
  deriving DecidableEq, Repr

/-- The mode of mapping a position: which places count as deleted. -/
inductive Tracking where
  | nowhere
  /-- Those inside a replaced run. -/
  | inside
  /-- Those whose preceding character was replaced. -/
  | preceding
  /-- Those whose following character was replaced. -/
  | following
  deriving DecidableEq, Repr

/-- How a change touches a range. -/
inductive Contact where
  /-- No replaced run meets the range or borders on it. -/
  | apart
  /-- Some replaced run meets the range or borders on it. -/
  | touches
  /-- A replaced run reaches past the range on both sides. -/
  | covers
  deriving DecidableEq, Repr

/-- Whether a place counts as deleted by a replaced run that it does not lie behind. -/
def Tracking.loses (mode : Tracking) (pos start stop : Nat) : Bool :=
  match mode with
  | .nowhere => false
  | .inside => start < pos && pos < stop
  | .preceding => start < pos
  | .following => pos < stop

namespace Change

variable {α : Type}

/-- The new place of `pos`, for spans that start at two places. -/
def locateFrom (pos : Nat) (side : Side) (mode : Tracking) :
    (start newStart : Nat) → List (Span α) → Except Fault (Option Nat)
  | start, newStart, [] =>
    if start < pos then .error (.position pos start) else .ok (some newStart)
  | start, newStart, s :: rest =>
    let stop := start + s.length
    let newStop := newStart + s.newLength
    if s.isKept then
      if pos < stop then .ok (some (newStart + (pos - start)))
      else locateFrom pos side mode stop newStop rest
    else if pos ≤ stop ∧ mode.loses pos start stop then .ok none
    else if pos < stop ∨ (pos = stop ∧ side = .before ∧ s.length = 0) then
      if pos = start ∨ side = .before then .ok (some newStart) else .ok (some newStop)
    else locateFrom pos side mode stop newStop rest

/-- The new place of an old one, or none if tracking counts it as deleted. A place at the edge of a
replaced run goes to the start of the insertion if it is the start of the run or keeps before
insertions, and to its end otherwise. -/
def locate (c : Change α) (pos : Nat) (side : Side) (mode : Tracking) :
    Except Fault (Option Nat) :=
  locateFrom pos side mode 0 0 c.spans

def newPlace (c : Change α) (pos : Nat) (side : Side) : Except Fault Nat :=
  (·.getD 0) <$> c.locate pos side .nowhere

/-- The new place of `pos`, for spans that start at two places, each place on the way being held to
its word. -/
def locateFrom? (pos : Nat) (side : Side) (mode : Tracking) :
    (start newStart : Nat) → List (Span α) → Checked (Option Nat)
  | start, newStart, [] =>
    if start < pos then .refused (.position pos start) else .done (some newStart)
  | start, newStart, s :: rest => do
    let stop ← word? (start + s.length)
    if s.isKept then
      if pos < stop then return some (← word? (newStart + (pos - start)))
      else locateFrom? pos side mode stop (← word? (newStart + s.newLength)) rest
    else if pos ≤ stop ∧ mode.loses pos start stop then return none
    else if pos < stop ∨ (pos = stop ∧ side = .before ∧ s.length = 0) then
      if pos = start ∨ side = .before then return some newStart
      else return some (← word? (newStart + s.newLength))
    else locateFrom? pos side mode stop (← word? (newStart + s.newLength)) rest

/-- The new place of an old one as `locate` tells it, held to words. -/
def locate? (c : Change α) (pos : Nat) (side : Side) (mode : Tracking) : Checked (Option Nat) :=
  locateFrom? pos side mode 0 0 c.spans

def newPlace? (c : Change α) (pos : Nat) (side : Side) : Checked Nat := do
  return (← c.locate? pos side .nowhere).getD 0

/-- How spans from place `pos` on lie to a range. -/
def contactFrom (start stop : Nat) : (pos : Nat) → List (Span α) → Contact
  | _, [] => .apart
  | pos, s :: rest =>
    if stop < pos then .apart
    else if !s.isKept && start ≤ pos + s.length then
      if pos < start ∧ stop < pos + s.length then .covers else .touches
    else contactFrom start stop (pos + s.length) rest

/-- How a change touches a range of the old document. The first replaced run that meets the range
decides. -/
def contact (c : Change α) (start stop : Nat) : Contact :=
  contactFrom start stop 0 c.spans

/-- How spans from place `pos` on lie to a range, each place on the way being held to its word. -/
def contactFrom? (start stop : Nat) : (pos : Nat) → List (Span α) → Option Contact
  | _, [] => some .apart
  | pos, s :: rest =>
    if stop < pos then some .apart
    else do
      let behind ← word? (pos + s.length)
      if !s.isKept && start ≤ behind then
        return if pos < start ∧ stop < behind then .covers else .touches
      else contactFrom? start stop behind rest

/-- How a change lies to a range of the old document as `contact` tells it, held to words. -/
def contact? (c : Change α) (start stop : Nat) : Option Contact :=
  contactFrom? start stop 0 c.spans

end Change

end TextRevision
