import TextRevision.Replay

/-!
# The replay tool

The files that the arguments name are read, the tool is run on them, and its output is printed.
-/

namespace TextRevision

/-- The content of a file, if it can be read as UTF-8. -/
def readFile? (path : String) : IO (Option String) := do
  try
    return some (← IO.FS.readFile path)
  catch _ =>
    return none

def report (trouble : Trouble) : String :=
  match trouble.cause? with
  | some fault => "Error: " ++ trouble.message ++ "\n\nCaused by:\n    " ++ fault.message
  | none => "Error: " ++ trouble.message

end TextRevision

open TextRevision in
def main (args : List String) : IO UInt32 := do
  let mut files : List (String × String) := []
  for path in Replay.paths args do
    if let some content ← readFile? path then
      files := (path, content) :: files
  let outcome := Replay.run (fun path => files.lookup path) args
  IO.print outcome.output
  if let some trouble := outcome.trouble then
    IO.eprintln (report trouble)
  return outcome.code.toUInt32
