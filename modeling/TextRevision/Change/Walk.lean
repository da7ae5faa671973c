import TextRevision.Change.Span

/-!
# Walks over spans

Two changes are put together in a walk over the spans of both, which takes them in pieces. What is
left of a span tells how much of it the walk has passed. A walk may find that its changes do not fit
together, and with marks that no change is written with it may come to a point that it never leaves.

## Main definitions

- `Walk`: how a walk ends, and `Walk.onward`, a walk that goes on with what words hold
- `Rest`: a span in a walk
- `Rest.forward`, `Rest.forwardNew`: the spans behind some characters of the old or the new document
-/

namespace TextRevision

/-- How a walk over two lists of spans ends. -/
inductive Walk (β : Type) where
  | finished (result : β)
  /-- Because the spans do not fit together. -/
  | mismatch
  /-- Not at all: the walk waits for characters that do not come, or a number leaves its word. -/
  | stalled
  deriving DecidableEq, Repr

/-- A walk that goes on with what words hold. -/
def Walk.onward {β γ : Type} (x : Option γ) (walk : γ → Walk β) : Walk β :=
  match x with
  | some y => walk y
  | none => .stalled

@[simp] theorem Walk.onward_some {β γ : Type} (y : γ) (walk : γ → Walk β) :
    onward (some y) walk = walk y := rfl

/-- A span in a walk, or what is left of one. -/
structure Rest (α : Type) where
  /-- The characters of the old document that are left. -/
  length : Nat
  /-- The characters of the new document that are left, or a mark. -/
  count : Int
  text : α
  /-- How many characters of the span were passed. -/
  passed : Nat
  deriving DecidableEq, Repr

namespace Rest

variable {α : Type}

/-- A span of which nothing was passed. -/
def ofSpan (s : Span α) : Rest α :=
  ⟨s.length, s.count, s.text, 0⟩

/-- The characters of the new document that are left. -/
def newLength (r : Rest α) : Nat :=
  if r.count < 0 then r.length else r.count.toNat

/-- The count of what is left: an insertion goes with the first characters that are passed. -/
def remainder (r : Rest α) : Int :=
  if r.count = Span.keptMark then Span.keptMark else if r.passed = 0 then r.count else 0

/-- The spans behind `len` characters of the old document, which lie in the first of them. -/
def forward (len : Nat) : List (Rest α) → List (Rest α)
  | [] => []
  | r :: rs =>
    if len = r.length then rs
    else { r with length := r.length - len, passed := r.passed + len } :: rs

/-- The spans behind `len` characters of the new document, which lie in the first of them. -/
def forwardNew (len : Nat) : List (Rest α) → List (Rest α)
  | [] => []
  | r :: rs =>
    if r.count = Span.keptMark then forward len (r :: rs)
    else if r.count = signedWord len then rs
    else { r with count := r.count - signedWord len, passed := r.passed + len } :: rs

/-- The number of characters of the old document that some spans have. -/
def total (rs : List (Rest α)) : Nat :=
  sumBy Rest.length rs

theorem length_forward_le (len : Nat) (rs : List (Rest α)) :
    (forward len rs).length ≤ rs.length := by
  cases rs with
  | nil => simp [forward]
  | cons r rs =>
    simp only [forward]
    split <;> simp

theorem length_forwardNew_le (len : Nat) (rs : List (Rest α)) :
    (forwardNew len rs).length ≤ rs.length := by
  cases rs with
  | nil => simp [forwardNew]
  | cons r rs =>
    simp only [forwardNew]
    split
    · exact length_forward_le len (r :: rs)
    · split <;> simp

theorem total_forward {len : Nat} {r : Rest α} (rs : List (Rest α)) (h : len ≤ r.length) :
    total (forward len (r :: rs)) + len = total (r :: rs) := by
  simp only [forward]
  split
  · next he => simp [total, he, Nat.add_comm]
  · simp only [total, sumBy_cons]
    omega

end Rest

end TextRevision
