import TextRevision.Change.Divide
import TextRevision.ChangeSet.Basic

/-!
# A change set divided by ranges

A change set is divided as its revision is, the runs of the outer part and their insertions being
told in two lists. The walk goes on behind the last range as far as words count: what lies behind
the greatest word it never comes to.

## Main definitions

- `ChangeSet.divide`: what a change set does outside ranges, and the outline of what it does inside
-/

namespace TextRevision.ChangeSet

/-- A walk through a change set that is being divided. -/
structure Divider where
  spans : List (Rest Rope)
  /-- The place reached in the old document. -/
  pos : Nat
  /-- What the outer part does. -/
  outside : Ledger Rope
  /-- What the inner part does. -/
  inside : Ledger Unit

/-- The walk with the next `len` characters of a span put into the outer part. -/
def Divider.putOutside? (w : Divider) (len : Nat) (r : Rest Rope) : Option Divider := do
  let inside ← w.inside.push? false (.keep len)
  let outside ← w.outside.push? false
    ⟨len, r.remainder, if 0 < r.remainder then r.text else Insertion.empty⟩
  return { w with outside := outside, inside := inside, pos := w.pos + len }

/-- The walk with the next `len` characters of a span put into the inner part. -/
def Divider.putInside? (w : Divider) (len : Nat) (r : Rest Rope) : Option Divider := do
  let outside ← w.outside.push? false (.keep len)
  let inside ← w.inside.push? false ⟨len, r.remainder, ()⟩
  return { w with outside := outside, inside := inside, pos := w.pos + len }

/-- The walk up to place `stop`, everything put into the outer part. -/
def leaveOutside? (stop : Nat) : List (Rest Rope) → Divider → Option Divider
  | [], w => some { w with spans := [] }
  | r :: rs, w =>
    if w.pos < stop ∨ (w.pos = stop ∧ r.length = 0) then
      if r.count = Span.endMark then some { w with spans := [] }
      else
        let len := min r.length (stop - w.pos)
        (w.putOutside? len r).bind fun w =>
          if len = r.length then leaveOutside? stop rs w
          else some { w with spans := Rest.forward len (r :: rs) }
    else some { w with spans := r :: rs }

/-- The walk up to place `stop`, everything put into the inner part. -/
def takeInside? (stop : Nat) : List (Rest Rope) → Divider → Option Divider
  | [], w => some { w with spans := [] }
  | r :: rs, w =>
    if w.pos < stop then
      if r.count = Span.endMark then some { w with spans := [] }
      else
        let len := min r.length (stop - w.pos)
        (w.putInside? len r).bind fun w =>
          if len = r.length then takeInside? stop rs w
          else some { w with spans := Rest.forward len (r :: rs) }
    else some { w with spans := r :: rs }

/-- The walk through one range and what lies in front of it. -/
def Divider.passRange? (w : Divider) (range : Nat × Nat) : Option Divider := do
  let w ← leaveOutside? range.1 w.spans w
  takeInside? range.2 w.spans w

/-- The walk to the end, everything put into the outer part. It has none if there are characters
behind the greatest word. -/
def Divider.finish? (w : Divider) : Option Divider := do
  let w ← leaveOutside? (wordCount - 1) w.spans w
  if w.spans.isEmpty then return w else none

/-- A change set filtered by ranges of the old document, taken in the order given: what it does
outside, and the outline of what it does inside. -/
def divide (c : ChangeSet) (ranges : List (Nat × Nat)) : Option (ChangeSet × Outline) := do
  let w ← ranges.foldlM Divider.passRange? ⟨c.revision.spans.map Rest.ofSpan, 0, .blank, .blank⟩
  let w ← w.finish?
  return (ofLedger w.outside, ⟨w.inside.runs.reverse⟩)

end TextRevision.ChangeSet
