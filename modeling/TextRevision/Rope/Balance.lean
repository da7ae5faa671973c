import TextRevision.Rope.Basic

/-!
# Building balanced ropes

Ropes that stand under each other become one rope whose branches have about 32 children. The parts
are cut down to pieces that are not too large (`breakUp`), neighbouring pieces are gathered into
groups of about equal line counts, small leaves being merged on the way (`gather`), and each group
of several pieces is built into a rope in the same manner (`ofParts`).

## Main definitions

- `Rope.ofParts`: a balanced rope from ropes that stand under each other
- `Rope.ofLines`: a balanced rope from lines
-/

namespace TextRevision.Rope

/-- The number of lines that a child should have in a rope of `lines` lines. -/
def chunkSize (lines : Nat) : Nat :=
  max leafLimit (lines / 32)

mutual

/-- The pieces of a rope that have at most `limit` lines, as far as its branches allow. -/
def breakUp (limit : Nat) : Rope → List Rope
  | leaf lines length => [leaf lines length]
  | branch children length lineCount =>
    if limit < lineCount then breakUpAll limit children
    else [branch children length lineCount]

def breakUpAll (limit : Nat) : List Rope → List Rope
  | [] => []
  | r :: rs => breakUp limit r ++ breakUpAll limit rs

end

/-- A group of pieces, collected newest first, in the order of the text; an empty group is none. -/
def close : List Rope → List (List Rope)
  | [] => []
  | group => [group.reverse]

/-- A leaf merged into the newest piece of a group, if that is a leaf with room for its lines. -/
def mergeLeaf? : List Rope → Rope → Option (List Rope)
  | leaf last lastLength :: rest, leaf lines length =>
    if lines.length + last.length ≤ leafLimit then
      some (leaf (last ++ lines) (lastLength + 1 + length) :: rest)
    else none
  | _, _ => none

/-- Neighbouring pieces in groups of about `chunk` lines; `group` is the one that is open, newest
piece first. A piece of more than half the size stands alone unless the open group is small. -/
def gather (chunk : Nat) : (group pieces : List Rope) → List (List Rope)
  | group, [] => close group
  | group, piece :: pieces =>
    if chunk / 2 < piece.lineCount ∧ (chunk / 2 < lineTotal group ∨ lineTotal group = 0) then
      close group ++ [piece] :: gather chunk [] pieces
    else
      match mergeLeaf? group piece with
      | some group => gather chunk group pieces
      | none =>
        if chunk < lineTotal group + piece.lineCount then
          close group ++ gather chunk [piece] pieces
        else gather chunk (piece :: group) pieces

/-- The groups into which parts fall. -/
def groups (parts : List Rope) : List (List Rope) :=
  let chunk := chunkSize (lineTotal parts)
  gather chunk [] (breakUpAll (2 * chunk) parts)

/-- A balanced rope of the given length from parts that stand under each other. Few lines make a
leaf. A group of several pieces never holds all the lines of well-formed parts; one that does is
left as it is. -/
def ofParts (parts : List Rope) (length : Nat) : Rope :=
  if lineTotal parts < leafLimit then
    if length = 0 then empty else leaf (linesOf parts) length
  else
    let pieces := (groups parts).map fun group =>
      match group with
      | [piece] => piece
      | group =>
        if lineTotal group < lineTotal parts then ofParts group (joinedLength group)
        else ofChildren group (joinedLength group)
    match pieces with
    | [piece] => piece
    | pieces => ofChildren pieces length
termination_by lineTotal parts

/-- Lines cut into leaves, each but the last one full. -/
def leaves (lines : List String) : List Rope :=
  match lines with
  | [] => []
  | line :: lines =>
    ofBlock ((line :: lines).take leafLimit) :: leaves ((line :: lines).drop leafLimit)
termination_by lines.length
decreasing_by
  simp only [List.length_drop, List.length_cons, leafLimit]
  omega

def ofLines (lines : List String) : Rope :=
  if lines = [""] then empty
  else if lines.length ≤ leafLimit then ofBlock lines
  else ofParts (leaves lines) (Line.total lines)

end TextRevision.Rope
