import TextRevision.Json.Basic

/-!
# Writing JSON

Values are written compactly, without blanks. In a string the quote, the backslash and the control
characters are escaped, and so are the three line separators outside ASCII; everything else is
written as it is.
-/

namespace TextRevision.Json

namespace Writer

/-- The last four hexadecimal digits of a number, in lower case. -/
def hex4 (n : Nat) : List Char :=
  [n / 4096, n / 256, n / 16, n].map fun k => Nat.digitChar (k % 16)

/-- The characters written for a character of a string. -/
def escape (c : Char) : List Char :=
  match c with
  | '"' => ['\\', '"']
  | '\\' => ['\\', '\\']
  | '\x08' => ['\\', 'b']
  | '\x0c' => ['\\', 'f']
  | '\n' => ['\\', 'n']
  | '\r' => ['\\', 'r']
  | '\t' => ['\\', 't']
  | c =>
    if c.toNat < 0x20 ∨ c.toNat = 0x85 ∨ c.toNat = 0x2028 ∨ c.toNat = 0x2029 then
      '\\' :: 'u' :: hex4 c.toNat
    else [c]

def quote (s : String) : String :=
  "\"" ++ String.ofList (s.toList.flatMap escape) ++ "\""

end Writer

mutual

/-- The compact text of a value. -/
def render : Json → String
  | null => "null"
  | bool true => "true"
  | bool false => "false"
  | int n => toString n
  | decimal spelling => spelling
  | str s => Writer.quote s
  | arr items => "[" ++ ",".intercalate (renderItems items) ++ "]"
  | obj members => "\x7b" ++ ",".intercalate (renderMembers members) ++ "\x7d"

def renderItems : List Json → List String
  | [] => []
  | x :: xs => render x :: renderItems xs

def renderMembers : List (String × Json) → List String
  | [] => []
  | (name, x) :: ms => (Writer.quote name ++ ":" ++ render x) :: renderMembers ms

end

end TextRevision.Json
