import TextRevision.Change.Revision

/-!
# Revisions from edits

Edits tell what a user did to one document, in any order and all in places of that document. Edits
that go forward are put into one batch of spans. An edit that goes back closes the batch, which is
rebased over what the batches before it do and put behind them.

## Main definitions

- `Edit`: a replaced range, a revision of the same document, or several edits
- `Draft`: the batches so far
- `Revision.ofEdit`: the revision that edits make
-/

namespace TextRevision

inductive Inserted where
  | nothing
  /-- A string that is still to be split into lines. -/
  | string (s : String)
  | rope (r : Rope)

/-- The specification of a change: what is done to a document of known length. `κ` is what a change
with insertions is kept as. -/
inductive Edit (κ : Type := Revision) where
  | replace (start stop : Nat) (text : Inserted)
  | revision (c : κ)
  /-- Makes several edits, whose places are all told in the same document. -/
  | many (edits : List (Edit κ))

/-- The text of an edit as a document, strings being split at `sep`. -/
def Inserted.toRope (sep : Option String) : Inserted → Rope
  | nothing => Rope.empty
  | string s => Rope.ofString s sep
  | rope r => r

namespace Edit

variable {κ : Type}

mutual

/-- The edits that an edit consists of, from left to right. -/
def atoms : Edit κ → List (Edit κ)
  | replace start stop text => [replace start stop text]
  | revision c => [revision c]
  | many edits => atomsOf edits

/-- The edits that several edits consist of. -/
def atomsOf : List (Edit κ) → List (Edit κ)
  | [] => []
  | e :: es => e.atoms ++ atomsOf es

end

end Edit

/-- A revision that is being built from edits, batch by batch. -/
structure Draft where
  length : Nat
  /-- What strings are split at. -/
  sep : Option String
  /-- The spans of the open batch, newest first. -/
  spans : List (Span Rope)
  /-- The place that the open batch has reached. -/
  pos : Nat
  /-- What the batches before it do. -/
  total : Option Revision

namespace Draft

/-- The draft with a revision of the document put behind what was there, rebased over it. -/
def merge (d : Draft) (c : Revision) : Except Fault Draft := do
  match d.total with
  | none => return { d with total := some c }
  | some total => return { d with total := some (← total.andThen (← c.rebase total.outline false)) }

/-- The open batch as a revision of the whole document. -/
def batch (d : Draft) : Revision :=
  ⟨(Span.push false d.spans (.keep (d.length - d.pos))).reverse⟩

/-- The draft with its open batch closed and put behind what was there. -/
def close (d : Draft) : Except Fault Draft :=
  { d with spans := [], pos := 0 }.merge d.batch

/-- The draft with its open batch closed, if there is anything in it. -/
def settle (d : Draft) : Except Fault Draft :=
  if d.spans.isEmpty then .ok d else d.close

/-- The draft with the characters of a range replaced. -/
def replace (d : Draft) (start stop : Nat) (text : Rope) : Except Fault Draft :=
  if start = stop ∧ text.isEmpty then .ok d
  else do
    let d ← if start < d.pos then d.settle else .ok d
    let spans := Span.push false d.spans (.keep (start - d.pos))
    return { d with spans := Span.push false spans (Span.replace (stop - start) text), pos := stop }

/-- The draft with one more edit, which does not consist of others. -/
def add (d : Draft) : Edit → Except Fault Draft
  | .replace start stop text =>
    if stop < start ∨ d.length < stop then .error (.changeRange start stop d.length)
    else d.replace start stop (text.toRope d.sep)
  | .revision c => do
    Change.fits d.length c.length
    (← d.settle).merge c
  | .many _ => .ok d

def finish (d : Draft) : Except Fault Revision := do
  let d ← if d.total.isNone then d.close else d.settle
  return d.total.getD (Change.unchanged d.length)

end Draft

/-- The revision that an edit makes to a document of the given length. -/
def Revision.ofEdit (edit : Edit) (length : Nat) (sep : Option String) : Except Fault Revision := do
  (← edit.atoms.foldlM Draft.add ⟨length, sep, [], 0, none⟩).finish

end TextRevision
