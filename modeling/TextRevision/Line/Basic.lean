import TextRevision.Word

/-!
# Lines

A line is a string, and a place in it is a number of characters. Only `Line.byteOffset` counts
bytes.
-/

namespace TextRevision.Line

/-- The characters of a line from `start` up to `stop`; places past the end count as the end. -/
def extract (s : String) (start stop : Nat) : String :=
  String.ofList ((s.toList.drop start).take (stop - start))

/-- How many bytes the first `pos` characters take in UTF-8. -/
def byteOffset (s : String) (pos : Nat) : Nat :=
  sumBy Char.utf8Size (s.toList.take pos)

/-- The number of characters of lines that stand under each other, a break between two of them
counting as one. -/
def total (lines : List String) : Nat :=
  sumBy (fun line => line.length + 1) lines - 1

@[simp] theorem toList_extract (s : String) (start stop : Nat) :
    (extract s start stop).toList = (s.toList.drop start).take (stop - start) := by
  simp [extract]

end TextRevision.Line
