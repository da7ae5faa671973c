import TextRevision.Checked
import TextRevision.Grapheme.Cluster

/-!
# Clusters as steps and as columns

A caret moves from one cluster boundary to the next, and a column counts clusters, a tab filling up
to the next multiple of the tab size. The rules are stated over any list of clusters and then
applied to the clusters of a line. A tab size may be as large as any word, so that columns are
counted twice: with numbers as they are, and with each column on the way held to its word. An offset
is held by a word as the line is.

## Main definitions

- `Grapheme.boundary`: the boundary next to a place, in either direction
- `Grapheme.column`, `Grapheme.column?`: the column of a place
- `Grapheme.offsetIn?`, `Grapheme.seek`: the place of a column
-/

namespace TextRevision.Grapheme

/-- The first boundary behind `pos`, where `here` is the boundary in front of the clusters. -/
def boundaryAfter (pos : Nat) : (here : Nat) → List (List Char) → Nat
  | here, [] => here
  | here, g :: gs =>
    if here + g.length > pos then here + g.length else boundaryAfter pos (here + g.length) gs

/-- The last boundary in front of `pos`, where `here` is the boundary in front of the clusters. -/
def boundaryBefore (pos : Nat) : (here : Nat) → List (List Char) → Nat
  | here, [] => here
  | here, g :: gs =>
    if here + g.length ≥ pos then here else boundaryBefore pos (here + g.length) gs

/-- The boundary that a caret at `pos` moves to. It stays at either end of the line. -/
def boundary (s : String) (pos : Nat) (forward : Bool) : Nat :=
  if forward then boundaryAfter pos 0 (clusters s) else boundaryBefore pos 0 (clusters s)

/-- How many columns a cluster takes from column `col` on. -/
def width (tab col : Nat) (g : List Char) : Nat :=
  if g = ['\t'] then tab - col % tab else 1

/-- The column reached at offset `stop`, counted on from column `col` at offset `here`. -/
def columnFrom (tab stop : Nat) : (col here : Nat) → List (List Char) → Nat
  | col, _, [] => col
  | col, here, g :: gs =>
    if here ≥ stop then col
    else columnFrom tab stop (col + width tab col g) (here + g.length) gs

/-- The column of an offset in a line of the given clusters. A tab size of zero counts as one. -/
def columnIn (gs : List (List Char)) (tab stop : Nat) : Nat :=
  columnFrom (max tab 1) stop 0 0 gs

/-- The column of offset `stop` in a line. -/
def column (s : String) (tab stop : Nat) : Nat :=
  columnIn (clusters s) tab stop

/-- The column reached at offset `stop`, each column on the way being held to its word. -/
def columnFrom? (tab stop : Nat) : (col here : Nat) → List (List Char) → Option Nat
  | col, _, [] => some col
  | col, here, g :: gs =>
    if here ≥ stop then some col
    else do columnFrom? tab stop (← word? (col + width tab col g)) (here + g.length) gs

def columnIn? (gs : List (List Char)) (tab stop : Nat) : Option Nat :=
  columnFrom? (max tab 1) stop 0 0 gs

/-- The column of offset `stop` in a line, held to words. -/
def column? (s : String) (tab stop : Nat) : Option Nat :=
  columnIn? (clusters s) tab stop

/-- The offset at which column `target` is reached, counted on from column `col` at offset `here`;
when the line ends before it, its length, or nothing if the search is strict. -/
def offsetFrom? (tab target : Nat) (strict : Bool) :
    (col here : Nat) → List (List Char) → Option Nat
  | col, here, [] => if col ≥ target then some here else if strict then none else some here
  | col, here, g :: gs =>
    if col ≥ target then some here
    else offsetFrom? tab target strict (col + width tab col g) (here + g.length) gs

/-- The offset of a column in a line of the given clusters. A tab size of zero counts as one. -/
def offsetIn? (gs : List (List Char)) (target tab : Nat) (strict : Bool) : Option Nat :=
  offsetFrom? (max tab 1) target strict 0 0 gs

/-- The offset at which column `target` is reached, each column on the way being held to its
word. -/
def seekFrom (tab target : Nat) (strict : Bool) :
    (col here : Nat) → List (List Char) → Checked (Option Nat)
  | col, here, [] => .done (if col ≥ target then some here else if strict then none else some here)
  | col, here, g :: gs =>
    if col ≥ target then .done (some here)
    else do
      seekFrom tab target strict (← word? (col + width tab col g)) (here + g.length) gs

def seekIn (gs : List (List Char)) (target tab : Nat) (strict : Bool) : Checked (Option Nat) :=
  seekFrom (max tab 1) target strict 0 0 gs

/-- The offset of column `target` in a line, held to words. -/
def seek (s : String) (target tab : Nat) (strict : Bool) : Checked (Option Nat) :=
  seekIn (clusters s) target tab strict

end TextRevision.Grapheme
