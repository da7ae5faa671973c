import TextRevision.Cursor.Chunked
import TextRevision.Word

/-!
# Equality of documents

Two documents are the same if their lines are, whatever their trees look like. Trees that share
subtrees need not be read in full: runs of shared subtrees at both ends are passed over, and what
lies between them is compared chunk by chunk.

Sharing is told by a function: `shared dir path` says that the nodes which the path reaches in the
two trees are one node, where a path counts children from the end at which `dir` starts. A pair of
trees that share nothing is compared in full.

## Main definitions

- `Rope.sharedRun`: the length of the run of shared subtrees at one end
- `Rope.sameText`: whether two documents are the same
-/

namespace TextRevision.Rope

mutual

/-- The tree with the children of each branch in the opposite order. Leaves stay as they are. -/
def reversed : Rope → Rope
  | leaf lines length => leaf lines length
  | branch children length lineCount => branch (reversedAll children) length lineCount

def reversedAll : List Rope → List Rope
  | [] => []
  | r :: rs => reversedAll rs ++ [r.reversed]

end

/-- Which subtrees two trees share, by the path from their roots. -/
abbrev Sharing := Direction → List Nat → Bool

def Sharing.none : Sharing :=
  fun _ _ => false

mutual

/-- The length of the run of shared subtrees at the start of two trees whose roots `path` reaches,
the break behind each subtree counted. -/
def sharedStart (shared : List Nat → Bool) (path : List Nat) : Rope → Rope → Nat
  | branch as _ _, branch bs _ _ => sharedStarts shared path 0 as bs
  | _, _ => 0

/-- The length of the run of shared subtrees at the start of the children from number `k` on. -/
def sharedStarts (shared : List Nat → Bool) (path : List Nat) (k : Nat) :
    List Rope → List Rope → Nat
  | a :: as, b :: bs =>
    if shared (path ++ [k]) then a.length + 1 + sharedStarts shared path (k + 1) as bs
    else sharedStart shared (path ++ [k]) a b
  | _, _ => 0

end

/-- The length of the run of shared subtrees at that end of two trees where a direction starts. -/
def sharedRun (shared : Sharing) (dir : Direction) (a b : Rope) : Nat :=
  match dir with
  | .forward => sharedStart (shared .forward) [] a b
  | .backward => sharedStart (shared .backward) [] a.reversed b.reversed

/-- Whether two cursors read the same from place `pos` up to place `stop`, a signed number of
characters being skipped first; `fuel` bounds the number of chunks. -/
def sameFrom (stop : Nat) : (fuel : Nat) → (a b : Cursor) → (skip : Int) → (pos : Nat) → Bool
  | 0, _, _, _, _ => false
  | fuel + 1, a, b, skip, pos =>
    let a := a.advance skip
    let b := b.advance skip
    if a.isBreak != b.isBreak || a.isDone != b.isDone || a.chunk != b.chunk then false
    else if a.isDone || stop ≤ pos + a.chunk.length then true
    else sameFrom stop fuel a b 0 (pos + a.chunk.length)

/-- Whether two documents are the same, for trees that may share subtrees. The run of shared
subtrees at their start is skipped, and its length is put into a signed word for that. -/
def sameText (shared : Sharing) (a b : Rope) : Bool :=
  if shared .forward [] then true
  else if b.length != a.length || b.lineCount != a.lineCount then false
  else
    let start := sharedRun shared .forward a b
    let stop := a.length - sharedRun shared .backward a b
    sameFrom stop (a.length + 1) (Cursor.ofRope a .forward) (Cursor.ofRope b .forward)
      (signedWord start) start

instance : BEq Rope := ⟨sameText Sharing.none⟩

end TextRevision.Rope
