import TextRevision.Change.Outline
import TextRevision.Json.Format
import TextRevision.Rope.Codec
import TextRevision.Rope.Same

/-!
# Revisions

A revision can be made to a document and undone again. It is written as an array with a number for
each kept run and an array for each replaced one: its length and the lines of its insertion.

## Main definitions

- `Revision.apply`: the document that a revision leads to
- `Revision.inverse`: the revision that undoes it
- `Revision.inserted`: the insertions, one for each span up to the last that is not empty
- `Revision.toJson`, `Revision.ofJson`: the written form
- `Revision.serialize`, `Revision.deserialize`: the written form in a data format
-/

namespace TextRevision

/-- The inserted text of replaced runs that are reported as one. -/
def Replacement.text (r : Replacement Rope) : Rope :=
  r.inserted.foldl Rope.append Rope.empty

namespace Revision

/-- The document that a revision leads to. Its replaced runs are made one after the other, from the
start of the document on. -/
def apply (c : Revision) (doc : Rope) : Except Fault Rope := do
  Change.fits c.length doc.length
  return (c.replacements false).foldl
    (fun doc r => doc.splice r.newStart (r.newStart + (r.stop - r.start)) r.text) doc

/-- The spans that undo those of a revision of `doc` from place `pos` on. -/
def inverseFrom (doc : Rope) : (pos : Nat) → List (Span Rope) → List (Span Rope)
  | _, [] => []
  | pos, s :: rest =>
    let stop := pos + s.length
    (if s.isKept then ⟨s.length, s.count, Rope.empty⟩
      else
        ⟨s.count.toNat, signedWord s.length,
          if s.length = 0 then Rope.empty else doc.extract pos stop⟩)
      :: inverseFrom doc stop rest

/-- The revision that undoes a revision of `doc`, from which it takes the removed text. -/
def inverse (c : Revision) (doc : Rope) : Except Fault Revision := do
  Change.fits c.length doc.length
  return ⟨inverseFrom doc 0 c.spans⟩

/-- The insertions of spans up to the last that is not empty, with an empty document for each span
that inserts nothing. -/
def insertedOf : List (Span Rope) → List Rope
  | [] => []
  | s :: rest =>
    let text := if s.text.isEmpty then Rope.empty else s.text
    match insertedOf rest with
    | [] => if text.isEmpty then [] else [text]
    | texts => text :: texts

/-- The insertions of a revision, one for each span up to the last that is not empty. -/
def inserted (c : Revision) : List Rope :=
  insertedOf c.spans

/-- Whether two revisions are the same: the same spans, and the same texts inserted. -/
def same (c d : Revision) : Bool :=
  c.outline = d.outline && c.inserted == d.inserted

def partJson (s : Span Rope) : Json :=
  if s.isKept then .int s.length
  else .arr (.int s.length :: if 0 < s.count then s.text.lines.map .str else [])

def toJson (c : Revision) : Json :=
  .arr (c.spans.map partJson)

/-- The insertion of written lines. -/
def text? (lines : List Json) : Option Rope := do
  let lines ← lines.mapM Json.str?
  if lines.isEmpty then return Rope.empty
  (Rope.ofLines? lines).toOption

def part? : Json → Option (Span Rope)
  | .arr (len :: lines) => do
    let len ← len.unsignedWord?
    return Span.replace len (← text? lines)
  | .arr [] => none
  | v => v.unsignedWord?.map Span.keep

def ofJson? (v : Json) : Option Revision := do
  Change.ofWritten? (← (← v.items?).mapM part?)

/-- The revision of a written form, or the fault of a form that is none. -/
def ofJson (v : Json) : Except Fault Revision :=
  match ofJson? v with
  | some c => .ok c
  | none => .error (.malformedJson .revision)

section Format

variable {ω ε : Type}

/-- A revision put into a data format. -/
def serialize (format : Json.Format ω ε) (c : Revision) : Except ε ω :=
  format.write c.toJson

/-- The revision that a form in a data format stands for. -/
def deserialize (format : Json.Format ω ε) (form : ω) : Except ε Revision := do
  match ofJson (← format.read form) with
  | .ok c => return c
  | .error fault => throw (format.refuse fault)

end Format

end Revision

end TextRevision
