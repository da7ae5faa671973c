import TextRevision.Change.Span

/-!
# Runs and insertions in two lists

A change set keeps its runs in one list and the texts that they insert in another. A text stands in
the place of its run, with empty ones in front of it for the runs that insert nothing, and behind
the last run that inserts something there is none. Both lists are made at once: a run is put behind
the others, where it may become a part of the newest one, and then its insertion is told, which goes
on with the text of the newest run if there is one. Every sum is held to its word on the way.

## Main definitions

- `Span.pushRun?`: a run put behind others, as long as words hold its numbers
- `Ledger`: the two lists, and `Ledger.push?`, a span put to both
- `Span.pair`: the spans that two lists tell of
-/

namespace TextRevision

namespace Span

/-- Words hold both numbers of a run: an unsigned one its length, and a signed one its count. -/
def Held {α : Type} (s : Span α) : Prop :=
  s.length < wordCount ∧ -(signBound : Int) ≤ s.count ∧ s.count < signBound

instance {α : Type} (s : Span α) : Decidable s.Held :=
  inferInstanceAs (Decidable (_ ∧ _ ∧ _))

/-- A run put behind others as `pushRun` does, if words hold what the newest run comes to. -/
def pushRun? {α : Type} [Insertion α] (join : Bool) (spans : List (Span α)) (s : Span α) :
    Option (List (Span α)) :=
  match pushRun join spans s with
  | [] => some []
  | last :: rest => if last.Held then some (last :: rest) else none

/-- The spans of runs and their insertions; an empty one stands for each that is not told. -/
def pair {α : Type} [Insertion α] : List (Span Unit) → (texts : List α) → List (Span α)
  | [], _ => []
  | s :: runs, texts =>
    ⟨s.length, s.count, texts.head?.getD Insertion.empty⟩ :: pair runs texts.tail

end Span

/-- Runs and insertions that are told in two lists. -/
@[ext]
structure Ledger (α : Type) where
  /-- The runs, newest first. -/
  runs : List (Span Unit)
  /-- The insertions, in order, one for each run up to the last that inserts something. -/
  texts : List α

namespace Ledger

variable {α : Type} [Insertion α]

/-- Nothing told. -/
def blank : Ledger α :=
  ⟨[], []⟩

/-- The lists with an insertion of the newest run. It is put behind what is told of that run, or
behind empty ones for the runs of which nothing is told. -/
def tell (l : Ledger α) (text : α) : Ledger α :=
  if Insertion.isEmpty text then l
  else if l.runs.length - 1 < l.texts.length then
    { l with
      texts := l.texts.dropLast
        ++ l.texts.getLast?.toList.map fun last => Insertion.append last text }
  else
    { l with
      texts := l.texts ++ List.replicate (l.runs.length - 1 - l.texts.length) Insertion.empty
        ++ [text] }

/-- The lists with a run put behind the others and then its insertion told, if words hold what
becomes of the run. -/
def push? (join : Bool) (l : Ledger α) (s : Span α) : Option (Ledger α) := do
  let runs ← Span.pushRun? join l.runs s.shape
  return { l with runs := runs }.tell s.text

/-- An insertion changes what is told of insertions alone. -/
@[simp] theorem runs_tell (l : Ledger α) (text : α) : (l.tell text).runs = l.runs := by
  rw [tell]
  split
  · rfl
  · split <;> rfl

theorem tell_of_isEmpty {l : Ledger α} {text : α} (h : Insertion.isEmpty text = true) :
    l.tell text = l :=
  if_pos h

end Ledger

end TextRevision
