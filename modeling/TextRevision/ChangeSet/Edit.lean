import TextRevision.Change.Edit
import TextRevision.ChangeSet.Walks

/-!
# Change sets from edits

Edits are put into batches as `Revision.ofEdit` tells it. The open batch is told in two lists, and
the batches before it are kept as a change set.

## Main definitions

- `ChangeSet.Draft`: the batches so far
- `ChangeSet.ofEdit`: the change set that edits make
-/

namespace TextRevision.ChangeSet

/-- A change set that is being made from edits. -/
structure Draft where
  length : Nat
  /-- What strings are split at. -/
  sep : Option String
  /-- The open batch. -/
  ledger : Ledger Rope
  /-- The place that the open batch has reached. -/
  pos : Nat
  /-- What the batches before it do. -/
  total : Option ChangeSet

namespace Draft

/-- The draft with a change set of the document put behind what was there, rebased over it. -/
def merge (d : Draft) (c : ChangeSet) : Checked Draft := do
  match d.total with
  | none => return { d with total := some c }
  | some total => return { d with total := some (← total.andThen (← c.rebase total.outline false)) }

/-- The open batch as a change set of the whole document. -/
def batch? (d : Draft) : Option ChangeSet :=
  (d.ledger.push? false (.keep (d.length - d.pos))).map ofLedger

/-- The draft with its open batch closed and put behind what was there. -/
def close (d : Draft) : Checked Draft := do
  Draft.merge { d with ledger := .blank, pos := 0 } (← d.batch?)

/-- The draft with its open batch closed, if there is anything in it. -/
def settle (d : Draft) : Checked Draft :=
  if d.ledger.runs.isEmpty then .done d else d.close

/-- The draft with the characters of a range replaced. -/
def replace (d : Draft) (start stop : Nat) (text : Rope) : Checked Draft :=
  if start = stop ∧ text.isEmpty then .done d
  else do
    let d ← if start < d.pos then d.settle else .done d
    let ledger ← d.ledger.push? false (.keep (start - d.pos))
    let ledger ← ledger.push? false (Span.replace (stop - start) text)
    return { d with ledger := ledger, pos := stop }

/-- The draft with one more edit, which does not consist of others. -/
def add (d : Draft) : Edit ChangeSet → Checked Draft
  | .replace start stop text =>
    if stop < start ∨ d.length < stop then .refused (.changeRange start stop d.length)
    else d.replace start stop (text.toRope d.sep)
  | .revision c => do
    Change.fits d.length (← c.outline.length?)
    (← d.settle).merge c
  | .many _ => .done d

def finish (d : Draft) : Checked ChangeSet := do
  let d ← if d.total.isNone then d.close else d.settle
  return d.total.getD (unchanged d.length)

end Draft

/-- The change set that an edit makes to a document of the given length. -/
def ofEdit (edit : Edit ChangeSet) (length : Nat) (sep : Option String) : Checked ChangeSet := do
  (← edit.atoms.foldlM Draft.add ⟨length, sep, .blank, 0, none⟩).finish

end TextRevision.ChangeSet
