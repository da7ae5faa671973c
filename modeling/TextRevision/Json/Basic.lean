import TextRevision.Word

/-!
# JSON values

The values that are read and written. A number is an integer only if it is spelled as one, without
fraction or exponent, and fits a machine word (`Json.isWord`); every other number keeps its
spelling and counts as a decimal.
-/

namespace TextRevision

/-- A JSON value. The members of an object keep their order. -/
inductive Json where
  | null
  | bool (value : Bool)
  | int (value : Int)
  | decimal (spelling : String)
  | str (value : String)
  | arr (items : List Json)
  | obj (members : List (String × Json))

namespace Json

instance : Inhabited Json := ⟨null⟩

/-- Whether an integer fits a signed or an unsigned word of 64 bits. -/
def isWord (n : Int) : Bool :=
  -(signBound : Int) ≤ n && n < wordCount

def items? : Json → Option (List Json)
  | arr items => some items
  | _ => none

def str? : Json → Option String
  | str value => some value
  | _ => none

/-- An integer that fits a signed word. -/
def signedWord? : Json → Option Int
  | int n => if -(signBound : Int) ≤ n ∧ n < signBound then some n else none
  | _ => none

/-- An integer that fits an unsigned word. -/
def unsignedWord? : Json → Option Nat
  | int (.ofNat n) => if n < wordCount then some n else none
  | _ => none

/-- The first member of an object with the given name. -/
def member? (name : String) : Json → Option Json
  | obj members => members.lookup name
  | _ => none

end Json

end TextRevision
