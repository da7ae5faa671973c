import TextRevision.Fault
import TextRevision.Json.Reader
import TextRevision.Json.Writer

/-!
# Data formats

Values are passed on in a data format, which puts a value into a form of its own and takes a value
out of such a form. JSON text is one of them.

## Main definitions

- `Json.Format`: how values are put into forms, and what is taken out of a form
- `Json.text`: the format of JSON text
-/

namespace TextRevision.Json

/-- A data format with forms `ω` and errors `ε`. -/
structure Format (ω ε : Type) where
  /-- The form of a value, if it has one. -/
  write : Json → Except ε ω
  /-- The value of a form, if it has one. -/
  read : ω → Except ε Json
  /-- The error for a value that is not the one asked for. -/
  refuse : Fault → ε

/-- JSON text. A text that spells no value has an error without a fault. -/
def text : Format String (Option Fault) where
  write v := .ok v.render
  read s :=
    match Json.read s with
    | some v => .ok v
    | none => .error none
  refuse := some

end TextRevision.Json
