import TextRevision.Change.Compose
import TextRevision.Change.Rebase
import TextRevision.Json.Basic

/-!
# Outlines

An outline tells the lengths of what a change keeps, removes and inserts. It is written as a flat
array of numbers, two for each span: the length in the old document, and the count of the insertion,
which is −1 for a kept run.

## Main definitions

- `Outline.inverse`: the outline of the change that undoes a change
- `Outline.toJson`, `Outline.ofJson`: the written form
- `Totals`: the lengths of spans that are read, held to what a signed word can count
-/

namespace TextRevision

/-- The lengths of the two documents of spans that are being read. -/
structure Totals where
  length : Nat
  newLength : Nat

/-- The lengths with a span counted in, if both stay within the limit. -/
def Totals.add? {α : Type} (t : Totals) (s : Span α) : Option Totals :=
  if t.length + s.length ≤ lengthLimit ∧ t.newLength + s.newLength ≤ lengthLimit then
    some ⟨t.length + s.length, t.newLength + s.newLength⟩
  else none

namespace Change

/-- Spans that are read one after the other, newest first, runs being merged and lengths being held
to the limit. -/
def collect? {α : Type} [Insertion α] :
    List (Span α) → (totals : Totals) → (spans : List (Span α)) → Option (List (Span α))
  | [], _, spans => some spans
  | s :: rest, totals, spans =>
    match totals.add? s with
    | some totals => collect? rest totals (Span.push false spans s)
    | none => none

/-- The change of spans that are read, if their lengths stay within the limit. -/
def ofWritten? {α : Type} [Insertion α] (spans : List (Span α)) : Option (Change α) :=
  (collect? spans ⟨0, 0⟩ []).map fun spans => ⟨spans.reverse⟩

/-- The lengths of a change as text: a kept run by its length, a replaced run by both lengths. -/
def summary {α : Type} (c : Change α) : String :=
  " ".intercalate <| c.spans.map fun s =>
    if s.isKept then toString s.length else toString s.length ++ ":" ++ toString s.count

end Change

/-- The span of the outline that undoes a change. The count of a removal that is too long for a
signed word is read as a mark, so that undoing it seems to keep characters. -/
def Span.inverse (s : Span Unit) : Span Unit :=
  if s.isKept then s else ⟨s.count.toNat, signedWord s.length, ()⟩

namespace Outline

/-- The outline of the change that undoes a change. -/
def inverse (c : Outline) : Outline :=
  ⟨c.spans.map Span.inverse⟩

def numbers (s : Span Unit) : List Int :=
  [s.length, s.count]

/-- The span of two numbers. The only mark that is read is that of a kept run. -/
def span? (length count : Int) : Option (Span Unit) :=
  if length < 0 ∨ count < Span.keptMark then none else some ⟨length.toNat, count, ()⟩

/-- The spans of numbers, taken two by two. -/
def spans? : List Int → Option (List (Span Unit))
  | [] => some []
  | [_] => none
  | length :: count :: rest => do
    let s ← span? length count
    return s :: (← spans? rest)

def toJson (c : Outline) : Json :=
  .arr ((c.spans.flatMap numbers).map .int)

def ofJson? (v : Json) : Option Outline := do
  let numbers ← (← v.items?).mapM Json.signedWord?
  Change.ofWritten? (← spans? numbers)

/-- The outline of a written form, or the fault of a form that is none. -/
def ofJson (v : Json) : Except Fault Outline :=
  match ofJson? v with
  | some c => .ok c
  | none => .error (.malformedJson .outline)

end Outline

end TextRevision
