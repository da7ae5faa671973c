import TextRevision.Change.Basic
import TextRevision.Change.Walk

/-!
# A change divided by ranges

Ranges of the old document divide a change in two: what it does outside them and what it does
inside. Both parts are changes of the same document. A replaced run that reaches across an edge is
cut there, and its insertion goes with its first piece.

## Main definitions

- `Division`: the two parts
- `Change.divide`: a change divided by ranges
-/

namespace TextRevision

structure Division (α : Type) where
  /-- What the change does outside the ranges. -/
  outside : Change α
  /-- What it does inside, without its insertions. -/
  inside : Outline

namespace Change

variable {α : Type} [Insertion α]

/-- A walk through a change that is being divided. -/
structure Divider (α : Type) where
  spans : List (Rest α)
  /-- The place reached in the old document. -/
  pos : Nat
  /-- The spans of the outer part, newest first. -/
  outside : List (Span α)
  /-- The spans of the inner part, newest first. -/
  inside : List (Span Unit)

/-- The walk with the next `len` characters of a span put into the outer part. -/
def Divider.putOutside (w : Divider α) (len : Nat) (r : Rest α) : Divider α :=
  { w with
    outside := Span.push false w.outside
      ⟨len, r.remainder, if 0 < r.remainder then r.text else Insertion.empty⟩
    inside := Span.push false w.inside (.keep len)
    pos := w.pos + len }

/-- The walk with the next `len` characters of a span put into the inner part. -/
def Divider.putInside (w : Divider α) (len : Nat) (r : Rest α) : Divider α :=
  { w with
    outside := Span.push false w.outside (.keep len)
    inside := Span.push false w.inside ⟨len, r.remainder, ()⟩
    pos := w.pos + len }

/-- The walk up to place `stop`, everything put into the outer part. An insertion right at `stop`
still belongs to it. -/
def leaveOutside (stop : Nat) : List (Rest α) → Divider α → Divider α
  | [], w => { w with spans := [] }
  | r :: rs, w =>
    if w.pos < stop ∨ (w.pos = stop ∧ r.length = 0) then
      if r.count = Span.endMark then { w with spans := [] }
      else
        let len := min r.length (stop - w.pos)
        if len = r.length then leaveOutside stop rs (w.putOutside len r)
        else { w.putOutside len r with spans := Rest.forward len (r :: rs) }
    else { w with spans := r :: rs }

/-- The walk up to place `stop`, everything put into the inner part. -/
def takeInside (stop : Nat) : List (Rest α) → Divider α → Divider α
  | [], w => { w with spans := [] }
  | r :: rs, w =>
    if w.pos < stop then
      if r.count = Span.endMark then { w with spans := [] }
      else
        let len := min r.length (stop - w.pos)
        if len = r.length then takeInside stop rs (w.putInside len r)
        else { w.putInside len r with spans := Rest.forward len (r :: rs) }
    else { w with spans := r :: rs }

/-- The walk through one range and what lies in front of it. -/
def Divider.passRange (w : Divider α) (range : Nat × Nat) : Divider α :=
  let w := leaveOutside range.1 w.spans w
  takeInside range.2 w.spans w

/-- The walk to the end, everything put into the outer part. -/
def Divider.finish (w : Divider α) : Divider α :=
  (w.spans.takeWhile (·.count != Span.endMark)).foldl (fun w r => w.putOutside r.length r) w

/-- A change filtered by ranges of the old document, which are taken in the order given. -/
def divide (c : Change α) (ranges : List (Nat × Nat)) : Division α :=
  let w := (ranges.foldl Divider.passRange ⟨c.spans.map Rest.ofSpan, 0, [], []⟩).finish
  ⟨⟨w.outside.reverse⟩, ⟨w.inside.reverse⟩⟩

end Change

end TextRevision
