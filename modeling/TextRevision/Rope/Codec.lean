import TextRevision.Json.Format
import TextRevision.Rope.Make

/-!
# Documents in JSON

A document is written as the array of its lines.

## Main definitions

- `Rope.toJson`, `Rope.ofJson`: the written form
- `Rope.serialize`, `Rope.deserialize`: the written form in a data format
-/

namespace TextRevision.Rope

/-- The strings that a value lists, if it is an array of strings. -/
def writtenLines? (v : Json) : Option (List String) :=
  v.items?.bind fun items => items.mapM Json.str?

def toJson (r : Rope) : Json :=
  .arr (r.lines.map .str)

def ofJson (v : Json) : Except Fault Rope :=
  match writtenLines? v with
  | some lines => ofLines? lines
  | none => .error (.malformedJson .rope)

section Format

variable {ω ε : Type}

/-- A document put into a data format. -/
def serialize (format : Json.Format ω ε) (r : Rope) : Except ε ω :=
  format.write r.toJson

/-- The document that a form in a data format stands for. The format itself takes the strings out of
the form, so that a value of another type has an error of its own. -/
def deserialize (format : Json.Format ω ε) (mistyped : Json → ε) (form : ω) : Except ε Rope := do
  let v ← format.read form
  match writtenLines? v with
  | none => throw (mistyped v)
  | some lines =>
    match ofLines? lines with
    | .ok r => return r
    | .error fault => throw (format.refuse fault)

end Format

end TextRevision.Rope
