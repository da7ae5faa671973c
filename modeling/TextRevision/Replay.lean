import TextRevision.Change.Revision
import TextRevision.Json.Reader
import TextRevision.Rope.Make
import TextRevision.Rope.Render

/-!
# Replaying revisions

Recorded revisions are made to a document one after the other and, on request, undone again through
their inverses. The tool reads the document and the revisions from files and shows the resulting
text.

## Main definitions

- `replay`: the document that revisions lead to
- `Replay.run`: what the tool does for its arguments
-/

namespace TextRevision

/-- Why revisions could not be replayed, or the tool not run. -/
inductive Trouble where
  /-- The arguments do not name a document and a file of changes. -/
  | usage
  | reading (path : String)
  | parsing (path : String)
  /-- The revision with this index could not be inverted. -/
  | inverting (index : Nat) (fault : Fault)
  /-- The revision with this index could not be made. -/
  | applying (index : Nat) (fault : Fault)
  /-- The revision with this index could not be undone. -/
  | undoing (index : Nat) (fault : Fault)
  /-- Undoing all revisions did not lead back. -/
  | diverged

namespace Trouble

def message : Trouble → String
  | usage => "expected a document and a change file"
  | reading path => "reading " ++ path
  | parsing path => "parsing change sets in " ++ path
  | inverting index _ => s!"inverting change {index}"
  | applying index _ => s!"applying change {index}"
  | undoing index _ => s!"undoing change {index}"
  | diverged => "inverse replay diverged from the original document"

/-- The fault behind a trouble. -/
def cause? : Trouble → Option Fault
  | inverting _ fault => some fault
  | applying _ fault => some fault
  | undoing _ fault => some fault
  | _ => none

/-- Whether the trouble lies in a file, outside revisions and documents. -/
def isFileTrouble : Trouble → Bool
  | reading _ => true
  | parsing _ => true
  | _ => false

end Trouble

namespace Replay

/-- A result, or the trouble that a fault makes. -/
def orTrouble {α : Type} (trouble : Fault → Trouble) : Except Fault α → Except Trouble α
  | .ok a => .ok a
  | .error fault => .error (trouble fault)

/-- The document after revisions that are numbered from `index` on, and their inverses, newest
first, if these are asked for. -/
def forward (invert : Bool) :
    List Revision → (index : Nat) → (doc : Rope) → (undo : List Revision) →
      Except Trouble (Rope × List Revision)
  | [], _, doc, undo => .ok (doc, undo)
  | c :: cs, index, doc, undo => do
    let undo ←
      if invert then (· :: undo) <$> orTrouble (.inverting index) (Revision.inverse c doc)
      else .ok undo
    let doc ← orTrouble (.applying index) (Revision.apply c doc)
    forward invert cs (index + 1) doc undo

/-- The document after inverses, newest first; as many are left as the last one's number tells. -/
def back : List Revision → (doc : Rope) → Except Trouble Rope
  | [], doc => .ok doc
  | c :: cs, doc => do
    back cs (← orTrouble (.undoing cs.length) (Revision.apply c doc))

end Replay

/-- The document that revisions lead to. If they are to be undone, that is the document itself. -/
def replay (doc : Rope) (revisions : List Revision) (invert : Bool) : Except Trouble Rope := do
  let (result, undo) ← Replay.forward invert revisions 0 doc []
  if invert then
    let restored ← Replay.back undo result
    if restored == doc then return restored else throw .diverged
  else return result

namespace Replay

def help : String :=
  "docmodel-replay\n\n"
    ++ "Usage: docmodel-replay <document> <changes.json> [--invert]\n\n"
    ++ "Applies a JSON array of change sets to the document in order and\n"
    ++ "prints the result.\n\n"
    ++ "Options:\n"
    ++ "  --invert    Undo every change again through its inverse\n"
    ++ "  --help      Show this help message\n"
    ++ "\nEnvironment variables:\n"
    ++ "  RUST_LOG    Log filter (default: docmodel=info)\n"

/-- The revisions that a file spells: a JSON array of written revisions. -/
def revisions? (content : String) : Option (List Revision) := do
  (← (← Json.read content).items?).mapM Revision.ofJson?

/-- What a run of the tool comes to. -/
structure Outcome where
  output : String
  /-- The trouble that ended the run, if any. -/
  trouble : Option Trouble

def Outcome.code (o : Outcome) : UInt8 :=
  if o.trouble.isSome then 1 else 0

def isOption (arg : String) : Bool :=
  "--".toList.isPrefixOf arg.toList

def paths (args : List String) : List String :=
  args.filter fun arg => !isOption arg

/-- The text that the named files lead to. -/
def replayFiles (file? : String → Option String) (document changes : String) (invert : Bool) :
    Except Trouble String := do
  let some content := file? document | throw (.reading document)
  let doc := Rope.ofString content none
  let some content := file? changes | throw (.reading changes)
  let some revisions := revisions? content | throw (.parsing changes)
  return (← replay doc revisions invert).toText

/-- What the tool does for its arguments, in front of files that `file?` reads. -/
def run (file? : String → Option String) (args : List String) : Outcome :=
  if args.contains "--help" then ⟨help, none⟩
  else
    match paths args with
    | [document, changes] =>
      match replayFiles file? document changes (args.contains "--invert") with
      | .ok text => ⟨text, none⟩
      | .error trouble => ⟨"", some trouble⟩
    | _ => ⟨help, some .usage⟩

end Replay

end TextRevision
