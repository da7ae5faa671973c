import TextRevision.Change.Revision
import TextRevision.Checked
import TextRevision.ChangeSet.Ledger

/-!
# Change sets

A change set is a revision as it is kept: an outline, and the texts that it inserts in a list of
their own. Every operation on change sets makes both lists anew, and holds every number to its word.

## Main definitions

- `ChangeSet`, and `ChangeSet.revision`, what it tells
- `ChangeSet.ofRevision`: a revision told in two lists
- `ChangeSet.unchanged`, `ChangeSet.ofJson`, `ChangeSet.inverse`: the change sets of a length, of a
  written form, and of what undoes another
- `ChangeSet.apply`: the document that a change set leads to
-/

namespace TextRevision

/-- A revision in two lists. -/
structure ChangeSet where
  /-- The runs. -/
  outline : Outline
  /-- The texts inserted: one for each run, with an empty one for each that inserts nothing, and
  none behind the last run that inserts something. -/
  inserted : List Rope

namespace ChangeSet

/-- The revision that a change set tells. -/
def revision (c : ChangeSet) : Revision :=
  ⟨Span.pair c.outline.spans c.inserted⟩

/-- A revision told in two lists. -/
def ofRevision (c : Revision) : ChangeSet :=
  ⟨c.outline, c.inserted⟩

def ofLedger (l : Ledger Rope) : ChangeSet :=
  ⟨⟨l.runs.reverse⟩, l.texts⟩

/-- Whether two change sets are the same: the same runs, and equal texts in the two lists. -/
def same (c d : ChangeSet) : Bool :=
  c.outline = d.outline && c.inserted == d.inserted

/-- The change set that keeps a document of the given length. -/
def unchanged (length : Nat) : ChangeSet :=
  ⟨Change.unchanged length, []⟩

/-- The document that a change set leads to. -/
def apply (c : ChangeSet) (doc : Rope) : Checked Rope := do
  Change.fits (← c.outline.length?) doc.length
  -- The places of all runs in the new document are counted, too.
  let _ ← c.outline.newLength?
  c.revision.apply doc

/-- The lists of the runs that undo those of a change of `doc` from place `pos` on, put behind what
is told before. -/
def inverseFrom (doc : Rope) : (pos : Nat) → List (Span Unit) → Ledger Rope → Ledger Rope
  | _, [], l => l
  | pos, s :: rest, l =>
    let stop := pos + s.length
    let removed := if s.isKept ∨ s.length = 0 then Rope.empty else doc.extract pos stop
    inverseFrom doc stop rest ({ l with runs := s.inverse :: l.runs }.tell removed)

/-- The change set that undoes a change of `doc`, from which it takes the removed text. -/
def inverse (c : ChangeSet) (doc : Rope) : Checked ChangeSet := do
  Change.fits (← c.outline.length?) doc.length
  return ofLedger (inverseFrom doc 0 c.outline.spans .blank)

/-- Spans that are read one after the other, told in two lists, lengths being held to the limit. -/
def collect : List (Span Rope) → (totals : Totals) → Ledger Rope → Checked (Ledger Rope)
  | [], _, l => .done l
  | s :: rest, totals, l =>
    match totals.add? s with
    | some totals => do collect rest totals (← l.push? false s)
    | none => .refused (.malformedJson .revision)

/-- The change set of a written form, or the fault of a form that is none. -/
def ofJson (v : Json) : Checked ChangeSet :=
  match v.items?.bind fun items => items.mapM Revision.part? with
  | some parts => do return ofLedger (← collect parts ⟨0, 0⟩ .blank)
  | none => .refused (.malformedJson .revision)

end ChangeSet

end TextRevision
