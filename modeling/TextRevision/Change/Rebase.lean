import TextRevision.Change.Basic
import TextRevision.Change.Walk

/-!
# A change made after a concurrent one

Two changes of one document were made without regard to each other. Rebasing the first over the
second gives a change of the document that the second leads to: what the second inserted is kept,
what it removed is no longer there to be removed, and every insertion of the first is still made.
Where both insert at one place, a flag says which comes first.

## Main definitions

- `Change.rebaseSpans`: the walk over two lists of spans
- `Change.rebase`: a change rebased over another
-/

namespace TextRevision

/-- How a run of removed characters passes spans of the other change. -/
structure Passage (β : Type) where
  /-- How many of its characters the other change keeps. -/
  kept : Nat
  /-- How many of its characters are left where it is stopped. -/
  left : Nat
  spans : List (Rest β)

namespace Change

open TextRevision.Span (keptMark endMark)

variable {α β : Type} [Insertion α]

/-- Whether a replaced run of the other change, of length `len`, comes before what is left of a
span: it does before kept characters, before a run whose insertion was told, and before an untouched
run that is longer, or as long and not preferred. -/
def yieldsTo (before : Bool) (len : Nat) (told : Bool) (a : Rest α) : Bool :=
  a.count < 0 || told
    || (a.passed = 0 && (len < a.length || (len = a.length && !before)))

/-- What is left of spans behind `len` characters that the other change removed. Insertions of runs
that end among these are put to `spans`, newest first; `told` says of the first run that is left
whether its insertion was. There is no result if the spans have fewer characters. -/
def absorb : List (Rest α) → (told : Bool) → (len : Nat) → (spans : List (Span α)) →
    Option (List (Rest α) × Bool × List (Span α))
  | as, told, 0, spans => some (as, told, spans)
  | [], _, _ + 1, _ => none
  | a :: as, told, len + 1, spans =>
    if a.length ≤ len + 1 then
      absorb as false (len + 1 - a.length) <|
        if 0 ≤ a.count ∧ !told then Span.push false spans ⟨0, a.count, a.text⟩ else spans
    else some (Rest.forward (len + 1) (a :: as), told, spans)

/-- How a run of `left` removed characters meets spans of the other change: it passes the kept ones,
until a replaced run stops it. A deletion inside the run does not stop it. -/
def passKept : (left : Nat) → List (Rest β) → Passage β
  | left, [] => ⟨0, left, []⟩
  | left, b :: bs =>
    if left = 0 then ⟨0, 0, b :: bs⟩
    else if b.count = keptMark then
      if b.length ≤ left then
        let later := passKept (left - b.length) bs
        { later with kept := b.length + later.kept }
      else ⟨left, 0, Rest.forward left (b :: bs)⟩
    else if b.count = 0 ∧ b.length < left then passKept (left - b.length) bs
    else ⟨0, left, b :: bs⟩

/-- A bound on the moves that spans take, the insertion of the first of them being one of its own if
it is not told. -/
def movesOf (as : List (Rest α)) (told : Bool) : Nat :=
  2 * as.length + if told then 0 else 1

theorem movesOf_absorb {as as' : List (Rest α)} {told told' : Bool} {len : Nat}
    {spans spans' : List (Span α)} (h : absorb as told len spans = some (as', told', spans')) :
    movesOf as' told' ≤ movesOf as told := by
  induction as generalizing told len spans with
  | nil =>
    cases len with
    | zero =>
      simp only [absorb, Option.some.injEq, Prod.mk.injEq] at h
      obtain ⟨rfl, rfl, -⟩ := h
      exact Nat.le_refl _
    | succ len => simp [absorb] at h
  | cons a as ih =>
    cases len with
    | zero =>
      simp only [absorb, Option.some.injEq, Prod.mk.injEq] at h
      obtain ⟨rfl, rfl, -⟩ := h
      exact Nat.le_refl _
    | succ len =>
      simp only [absorb] at h
      split at h
      · refine Nat.le_trans (ih h) ?_
        simp only [movesOf, List.length_cons, Bool.false_eq_true, if_false]
        omega
      · simp only [Option.some.injEq, Prod.mk.injEq] at h
        obtain ⟨rfl, rfl, -⟩ := h
        have := Rest.length_forward_le (len + 1) (a :: as)
        simp only [movesOf]
        omega

theorem length_passKept_le (left : Nat) (bs : List (Rest β)) :
    (passKept left bs).spans.length ≤ bs.length := by
  induction bs generalizing left with
  | nil => simp [passKept]
  | cons b bs ih =>
    have := ih (left - b.length)
    simp only [passKept]
    split
    · simp
    · split
      · split
        · simp only [List.length_cons]; omega
        · exact Rest.length_forward_le left (b :: bs)
      · split
        · simp only [List.length_cons]; omega
        · simp

omit [Insertion α] in
/-- A removed run that is passed to its end leaves fewer moves. -/
theorem pass_shortens (a : Rest α) (as : List (Rest α)) (told : Bool) (b : Rest β)
    (bs : List (Rest β)) :
    movesOf as false + (passKept a.length (b :: bs)).spans.length
      < movesOf (a :: as) told + (b :: bs).length := by
  have hpass := length_passKept_le a.length (b :: bs)
  simp only [movesOf, List.length_cons, Bool.false_eq_true, if_false] at hpass ⊢
  omega

omit [Insertion α] in
/-- A removed run that is stopped leaves fewer moves, unless it was told and passed nothing. -/
theorem stop_shortens {a : Rest α} (as : List (Rest α)) {told : Bool} {b : Rest β}
    {bs : List (Rest β)}
    (hstall : ¬ (told = true ∧ (passKept a.length (b :: bs)).spans.length = bs.length + 1)) :
    movesOf (Rest.forward (a.length - (passKept a.length (b :: bs)).left) (a :: as)) true
        + (passKept a.length (b :: bs)).spans.length
      < movesOf (a :: as) told + (b :: bs).length := by
  have hpass := length_passKept_le a.length (b :: bs)
  have has := Rest.length_forward_le (a.length - (passKept a.length (b :: bs)).left) (a :: as)
  simp only [movesOf, List.length_cons, if_true] at hpass has ⊢
  cases told with
  | false =>
    simp only [Bool.false_eq_true, if_false]
    omega
  | true =>
    simp only [if_true, true_and] at hstall ⊢
    omega

/-- The spans of a change, rebased over those of another, in one walk; `spans` holds the ones found,
newest first, and `told` says of the first span of the change whether its insertion is among
them. -/
def rebaseSpans (before : Bool) : List (Rest α) → (told : Bool) → List (Rest β) →
    (spans : List (Span α)) → Walk (List (Span α))
  | [], _, [], spans => .finished spans.reverse
  | [], told, b :: bs, spans =>
    if 0 < b.length then .mismatch
    else if 0 ≤ b.count then
      rebaseSpans before [] told bs (Span.push false spans (.keep b.count.toNat))
    else if b.count = endMark then .finished spans.reverse
    else .mismatch
  | a :: as, told, [], spans =>
    if 0 < a.length then .mismatch
    else if 0 ≤ a.count then
      rebaseSpans before as false []
        (if told then spans else Span.push false spans ⟨0, a.count, a.text⟩)
    else if a.count = endMark then .finished spans.reverse
    else .mismatch
  | a :: as, told, b :: bs, spans =>
    if (a.count = endMark ∧ 0 < b.length) ∨ (b.count = endMark ∧ 0 < a.length) then .mismatch
    else if a.count = keptMark ∧ b.count = keptMark then
      let spans := Span.push false spans (.keep (min a.length b.length))
      if a.length ≤ b.length then
        rebaseSpans before as false (Rest.forward a.length (b :: bs)) spans
      else rebaseSpans before (Rest.forward b.length (a :: as)) told bs spans
    else if 0 ≤ b.count ∧ yieldsTo before b.length told a then
      match _h : absorb (a :: as) told b.length
          (Span.push false spans (.keep b.count.toNat)) with
      | some (as', told', spans) => rebaseSpans before as' told' bs spans
      | none => .stalled
    else if 0 ≤ a.count then
      let met := passKept a.length (b :: bs)
      let spans := Span.push false spans
        (if told then ⟨met.kept, 0, Insertion.empty⟩ else ⟨met.kept, a.count, a.text⟩)
      if met.left = 0 then rebaseSpans before as false met.spans spans
      else if told ∧ met.spans.length = bs.length + 1 then .stalled
      else
        rebaseSpans before (Rest.forward (a.length - met.left) (a :: as)) true met.spans spans
    else if a.count = endMark ∧ b.count = endMark then .finished spans.reverse
    else .mismatch
termination_by as told bs => movesOf as told + bs.length
decreasing_by
  · simp only [List.length_cons]
    omega
  · simp only [movesOf, List.length_cons, Bool.false_eq_true, if_false]
    omega
  · have := Rest.length_forward_le a.length (b :: bs)
    simp only [movesOf, List.length_cons, Bool.false_eq_true, if_false] at this ⊢
    omega
  · have := Rest.length_forward_le b.length (a :: as)
    simp only [movesOf, List.length_cons] at this ⊢
    omega
  · have := movesOf_absorb (by assumption)
    simp only [List.length_cons]
    omega
  · exact pass_shortens a as told b bs
  · rename_i hstall
    exact stop_shortens as hstall

section Branches

variable {before told : Bool} {a : Rest α} {as : List (Rest α)} {b : Rest β} {bs : List (Rest β)}
  {spans : List (Span α)}

/-- Where one change has come to its mark, the other has no characters. -/
theorem rebaseSpans_of_ended
    (hend : (a.count = endMark ∧ 0 < b.length) ∨ (b.count = endMark ∧ 0 < a.length)) :
    rebaseSpans before (a :: as) told (b :: bs) spans = .mismatch := by
  rw [rebaseSpans, if_pos hend]

/-- What both keep is kept. -/
theorem rebaseSpans_of_kept
    (hend : ¬ ((a.count = endMark ∧ 0 < b.length) ∨ (b.count = endMark ∧ 0 < a.length)))
    (hkept : a.count = keptMark ∧ b.count = keptMark) :
    rebaseSpans before (a :: as) told (b :: bs) spans =
      if a.length ≤ b.length then
        rebaseSpans before as false (Rest.forward a.length (b :: bs))
          (Span.push false spans (.keep (min a.length b.length)))
      else
        rebaseSpans before (Rest.forward b.length (a :: as)) told bs
          (Span.push false spans (.keep (min a.length b.length))) := by
  rw [rebaseSpans, if_neg hend, if_pos hkept]

/-- What the other change inserts is kept, and what it removes is taken off. -/
theorem rebaseSpans_of_yields
    (hend : ¬ ((a.count = endMark ∧ 0 < b.length) ∨ (b.count = endMark ∧ 0 < a.length)))
    (hkept : ¬ (a.count = keptMark ∧ b.count = keptMark))
    (hyields : 0 ≤ b.count ∧ yieldsTo before b.length told a) :
    rebaseSpans before (a :: as) told (b :: bs) spans =
      match absorb (a :: as) told b.length (Span.push false spans (.keep b.count.toNat)) with
      | some (as', told', spans) => rebaseSpans before as' told' bs spans
      | none => .stalled := by
  rw [rebaseSpans, if_neg hend, if_neg hkept, if_pos hyields]
  split <;> next h => rw [h]

/-- A replaced run is put with the characters that the other change keeps of it. -/
theorem rebaseSpans_of_replaces
    (hend : ¬ ((a.count = endMark ∧ 0 < b.length) ∨ (b.count = endMark ∧ 0 < a.length)))
    (hkept : ¬ (a.count = keptMark ∧ b.count = keptMark))
    (hyields : ¬ (0 ≤ b.count ∧ yieldsTo before b.length told a)) (hput : 0 ≤ a.count)
    {met : Passage β}
    (hmet : passKept a.length (b :: bs) = met) {put : List (Span α)}
    (hspans : Span.push false spans
      (if told then ⟨met.kept, 0, Insertion.empty⟩ else ⟨met.kept, a.count, a.text⟩) = put) :
    rebaseSpans before (a :: as) told (b :: bs) spans =
      if met.left = 0 then rebaseSpans before as false met.spans put
      else if told ∧ met.spans.length = bs.length + 1 then .stalled
      else rebaseSpans before (Rest.forward (a.length - met.left) (a :: as)) true met.spans
        put := by
  subst hmet hspans
  rw [rebaseSpans, if_neg hend, if_neg hkept, if_neg hyields, if_pos hput]

/-- Otherwise the walk ends, and well if both changes have come to their marks. -/
theorem rebaseSpans_of_left
    (hend : ¬ ((a.count = endMark ∧ 0 < b.length) ∨ (b.count = endMark ∧ 0 < a.length)))
    (hkept : ¬ (a.count = keptMark ∧ b.count = keptMark))
    (hyields : ¬ (0 ≤ b.count ∧ yieldsTo before b.length told a)) (hput : ¬ 0 ≤ a.count) :
    rebaseSpans before (a :: as) told (b :: bs) spans =
      if a.count = endMark ∧ b.count = endMark then .finished spans.reverse else .mismatch := by
  rw [rebaseSpans, if_neg hend, if_neg hkept, if_neg hyields, if_neg hput]

end Branches

/-- The change `c`, mapped over the concurrent change `d` of the same document. With `before`, an
insertion of `c` comes first where both insert at one place. -/
def rebase [Insertion β] (c : Change α) (d : Change β) (before : Bool) :
    Except Fault (Change α) := do
  fits d.length c.length
  if d.isEmpty then return c
  match rebaseSpans before (c.spans.map Rest.ofSpan) false (d.spans.map Rest.ofSpan) [] with
  | .finished spans => return ⟨spans⟩
  | _ => throw (.lengthMismatch d.length c.length)

end Change

end TextRevision
