import TextRevision.Json.Basic

/-!
# Reading JSON

A reader takes a value off the front of a character list and gives the characters behind it.
`Json.read` accepts exactly one value with blanks around it: no trailing text, no control character
inside a string, no half of a surrogate pair, no leading zero.

## Main definitions

- `Json.Reader.value`: one value off the front, with a bound on the nesting
- `Json.read`: the value a whole text spells
-/

namespace TextRevision.Json

namespace Reader

/-- The characters that may stand between tokens. -/
def isBlank (c : Char) : Bool :=
  c = ' ' || c = '\t' || c = '\n' || c = '\r'

/-- The text without the blanks in front. -/
def skipBlank (cs : List Char) : List Char :=
  cs.dropWhile isBlank

def hexDigit? (c : Char) : Option Nat :=
  if '0' ≤ c ∧ c ≤ '9' then some (c.toNat - '0'.toNat)
  else if 'a' ≤ c ∧ c ≤ 'f' then some (c.toNat - 'a'.toNat + 10)
  else if 'A' ≤ c ∧ c ≤ 'F' then some (c.toNat - 'A'.toNat + 10)
  else none

/-- The unit that four hexadecimal digits spell. -/
def hexUnit? (a b c d : Char) : Option Nat := do
  let a ← hexDigit? a
  let b ← hexDigit? b
  let c ← hexDigit? c
  let d ← hexDigit? d
  return ((a * 16 + b) * 16 + c) * 16 + d

def isHighSurrogate (unit : Nat) : Bool :=
  0xD800 ≤ unit && unit < 0xDC00

def isLowSurrogate (unit : Nat) : Bool :=
  0xDC00 ≤ unit && unit < 0xE000

/-- The character that the letter behind a backslash stands for. -/
def escaped? : Char → Option Char
  | '"' => some '"'
  | '\\' => some '\\'
  | '/' => some '/'
  | 'b' => some '\x08'
  | 'f' => some '\x0c'
  | 'n' => some '\n'
  | 'r' => some '\r'
  | 't' => some '\t'
  | _ => none

/-- The rest of a string behind its opening quote; `seen` holds the characters so far, newest
first. -/
def stringTail (seen : List Char) : List Char → Option (String × List Char)
  | [] => none
  | '"' :: rest => some (String.ofList seen.reverse, rest)
  | '\\' :: 'u' :: a :: b :: c :: d :: rest =>
    match hexUnit? a b c d with
    | none => none
    | some unit =>
      if isLowSurrogate unit then none
      else if isHighSurrogate unit then
        match rest with
        | '\\' :: 'u' :: e :: f :: g :: h :: rest =>
          match hexUnit? e f g h with
          | none => none
          | some low =>
            if isLowSurrogate low then
              stringTail (Char.ofNat (0x10000 + (unit - 0xD800) * 0x400 + (low - 0xDC00)) :: seen)
                rest
            else none
        | _ => none
      else stringTail (Char.ofNat unit :: seen) rest
  | '\\' :: letter :: rest =>
    match escaped? letter with
    | none => none
    | some c => stringTail (c :: seen) rest
  | c :: rest => if c.toNat < 0x20 then none else stringTail (c :: seen) rest

/-- At least one digit, and what stands behind the digits. -/
def digits? (cs : List Char) : Option (List Char × List Char) :=
  match cs.takeWhile Char.isDigit with
  | [] => none
  | ds => some (ds, cs.dropWhile Char.isDigit)

/-- The integer part of a number: a lone zero, or digits that do not start with one. -/
def whole? : List Char → Option (List Char × List Char)
  | '0' :: rest => some (['0'], rest)
  | cs => digits? cs

/-- The fraction of a number, if there is one. -/
def fraction? : List Char → Option (List Char × List Char)
  | '.' :: rest => (digits? rest).map fun (ds, rest) => ('.' :: ds, rest)
  | cs => some ([], cs)

/-- The exponent of a number, if there is one. -/
def exponent? : List Char → Option (List Char × List Char)
  | c :: rest =>
    if c = 'e' ∨ c = 'E' then
      match rest with
      | '+' :: rest => (digits? rest).map fun (ds, rest) => (c :: '+' :: ds, rest)
      | '-' :: rest => (digits? rest).map fun (ds, rest) => (c :: '-' :: ds, rest)
      | rest => (digits? rest).map fun (ds, rest) => (c :: ds, rest)
    else some ([], c :: rest)
  | [] => some ([], [])

/-- The number that decimal digits spell. -/
def ofDigits (ds : List Char) : Nat :=
  ds.foldl (fun n d => 10 * n + (d.toNat - '0'.toNat)) 0

/-- The value of a number from its parts. Minus zero is no integer. -/
def ofParts (negative : Bool) (whole fraction exponent : List Char) : Json :=
  let magnitude := ofDigits whole
  let n : Int := if negative then -magnitude else magnitude
  if fraction.isEmpty && exponent.isEmpty && isWord n && !(negative && magnitude == 0) then int n
  else
    decimal (String.ofList ((if negative then ['-'] else []) ++ whole ++ fraction ++ exponent))

/-- A number behind its sign. -/
def unsigned? (negative : Bool) (cs : List Char) : Option (Json × List Char) := do
  let (whole, cs) ← whole? cs
  let (fraction, cs) ← fraction? cs
  let (exponent, cs) ← exponent? cs
  return (ofParts negative whole fraction exponent, cs)

def number? : List Char → Option (Json × List Char)
  | '-' :: rest => unsigned? true rest
  | cs => unsigned? false cs

mutual

/-- One value off the front, blanks in front of it skipped. Each level of nesting and each item of
an array takes one unit of `fuel`. -/
def value : (fuel : Nat) → List Char → Option (Json × List Char)
  | 0, _ => none
  | fuel + 1, cs =>
    match skipBlank cs with
    | 'n' :: 'u' :: 'l' :: 'l' :: rest => some (null, rest)
    | 't' :: 'r' :: 'u' :: 'e' :: rest => some (bool true, rest)
    | 'f' :: 'a' :: 'l' :: 's' :: 'e' :: rest => some (bool false, rest)
    | '"' :: rest => (stringTail [] rest).map fun (s, rest) => (str s, rest)
    | '[' :: rest =>
      match skipBlank rest with
      | ']' :: rest => some (arr [], rest)
      | rest => (items fuel rest).map fun (xs, rest) => (arr xs, rest)
    | '\x7b' :: rest =>
      match skipBlank rest with
      | '\x7d' :: rest => some (obj [], rest)
      | rest => (members fuel rest).map fun (ms, rest) => (obj ms, rest)
    | cs => number? cs

/-- The items of an array up to its closing bracket. -/
def items : (fuel : Nat) → List Char → Option (List Json × List Char)
  | 0, _ => none
  | fuel + 1, cs =>
    match value fuel cs with
    | none => none
    | some (x, rest) =>
      match skipBlank rest with
      | ',' :: rest => (items fuel rest).map fun (xs, rest) => (x :: xs, rest)
      | ']' :: rest => some ([x], rest)
      | _ => none

/-- The members of an object up to its closing brace. -/
def members : (fuel : Nat) → List Char → Option (List (String × Json) × List Char)
  | 0, _ => none
  | fuel + 1, cs =>
    match skipBlank cs with
    | '"' :: rest =>
      match stringTail [] rest with
      | none => none
      | some (name, rest) =>
        match skipBlank rest with
        | ':' :: rest =>
          match value fuel rest with
          | none => none
          | some (x, rest) =>
            match skipBlank rest with
            | ',' :: rest => (members fuel rest).map fun (ms, rest) => ((name, x) :: ms, rest)
            | '\x7d' :: rest => some ([(name, x)], rest)
            | _ => none
        | _ => none
    | _ => none

end

end Reader

/-- The value that a text spells. Every item and every level of nesting takes at least one
character, so that twice the length of the text bounds the reading. -/
def read (text : String) : Option Json :=
  match Reader.value (2 * text.length + 2) text.toList with
  | some (v, rest) => if (Reader.skipBlank rest).isEmpty then some v else none
  | none => none

end TextRevision.Json
