import TextRevision.Change.Basic
import TextRevision.Change.Walk

/-!
# One change after another

A change from a first document to a second and one from the second to a third make one from the
first to the third. The walk goes through both at once, the spans of the first being measured in
the second document by what they insert.

## Main definitions

- `Change.composeSpans`: the walk over two lists of spans
- `Change.andThen`: the change that does the work of two
-/

namespace TextRevision

namespace Change

open TextRevision.Span (keptMark endMark)

variable {α : Type} [Insertion α]

/-- The span that leads from the first document to the third, where spans of two changes meet in
`len` characters of the second document. What the first removes and what the second inserts goes
with the first characters in which their spans meet. -/
def meet (len : Nat) (a b : Rest α) : Span α :=
  if a.count = keptMark then
    ⟨len, b.remainder, if 0 < b.remainder then b.text else Insertion.empty⟩
  else
    let removed := if 0 < a.passed then 0 else a.length
    if b.count = keptMark then
      ⟨removed, signedWord len, Insertion.extract a.text a.passed (a.passed + len)⟩
    else
      ⟨removed, b.remainder, if b.passed = 0 then b.text else Insertion.empty⟩

/-- Whether what comes next belongs to the run in which two spans met in `len` characters: a part of
the insertion of the one, or of the replaced characters of the other, is left. -/
def staysOpen (len : Nat) (a b : Rest α) : Bool :=
  signedWord len < a.count || (0 ≤ b.count && len < b.length)

omit [Insertion α] in
/-- Where two spans meet, fewer spans or fewer characters of the second change are left. -/
theorem meeting_shortens {a b : Rest α} (as bs : List (Rest α))
    (hinsertion : ¬ (b.length = 0 ∧ b.count ≠ endMark))
    (hend : ¬ (a.count = endMark ∨ b.count = endMark))
    (hstall : ¬ (min a.newLength b.length = 0 ∧ a.count ≠ keptMark)) :
    (Rest.forwardNew (min a.newLength b.length) (a :: as)).length
        + (Rest.forward (min a.newLength b.length) (b :: bs)).length
        + Rest.total (Rest.forward (min a.newLength b.length) (b :: bs))
      < (a :: as).length + (b :: bs).length + Rest.total (b :: bs) := by
  have hlength : 0 < b.length :=
    Nat.pos_of_ne_zero fun hzero => hinsertion ⟨hzero, fun h => hend (Or.inr h)⟩
  have htotal := Rest.total_forward bs (Nat.min_le_right a.newLength b.length)
  have hbs := Rest.length_forward_le (min a.newLength b.length) (b :: bs)
  have has := Rest.length_forwardNew_le (min a.newLength b.length) (a :: as)
  rcases Nat.eq_zero_or_pos (min a.newLength b.length) with hnone | hsome
  · -- Only a kept run that has no characters meets the other in none, and it is gone then.
    have hkept : a.count = keptMark := Decidable.not_not.mp fun h => hstall ⟨hnone, h⟩
    have hnew : a.newLength = a.length := by simp [Rest.newLength, hkept, keptMark]
    have hzero : a.length = 0 := by omega
    have hgone : Rest.forwardNew (min a.newLength b.length) (a :: as) = as := by
      simp [Rest.forwardNew, Rest.forward, hkept, hnone, hzero]
    rw [hgone]
    simp only [List.length_cons] at hbs ⊢
    omega
  · simp only [List.length_cons] at has hbs ⊢
    omega

/-- The spans of two changes in one walk; `spans` holds the ones found, newest first, and `joined`
says that the next belongs to the run of the last. Deletions of the first change and insertions of
the second go through as they are. Otherwise the two meet in as many characters of the second
document as both have left. -/
def composeSpans : List (Rest α) → List (Rest α) → (joined : Bool) → (spans : List (Span α)) →
    Walk (List (Span α))
  | [], [], _, spans => .finished spans.reverse
  | [], b :: bs, joined, spans =>
    if b.count = endMark then .finished spans.reverse
    else if b.length = 0 then
      composeSpans [] bs joined (Span.push joined spans ⟨0, b.count, b.text⟩)
    else .mismatch
  | a :: as, [], joined, spans =>
    if a.count = 0 then
      composeSpans as [] joined (Span.push joined spans ⟨a.length, 0, Insertion.empty⟩)
    else if a.count = endMark then .finished spans.reverse
    else .mismatch
  | a :: as, b :: bs, joined, spans =>
    if a.count = 0 then
      composeSpans as (b :: bs) joined
        (Span.push joined spans ⟨a.length, 0, Insertion.empty⟩)
    else if b.length = 0 ∧ b.count ≠ endMark then
      composeSpans (a :: as) bs joined (Span.push joined spans ⟨0, b.count, b.text⟩)
    else if a.count = endMark ∧ b.count = endMark then .finished spans.reverse
    else if a.count = endMark ∨ b.count = endMark then .mismatch
    else
      let len := min a.newLength b.length
      if len = 0 ∧ a.count ≠ keptMark then .stalled
      else
        let spans' := Span.push joined spans (meet len a b)
        composeSpans (Rest.forwardNew len (a :: as)) (Rest.forward len (b :: bs))
          (staysOpen len a b && (joined || spans.length < spans'.length)) spans'
termination_by as bs => as.length + bs.length + Rest.total bs
decreasing_by
  · simp only [List.length_cons, Rest.total, sumBy_cons]
    omega
  · simp only [List.length_cons]
    omega
  · simp only [List.length_cons]
    omega
  · simp only [List.length_cons, Rest.total, sumBy_cons]
    omega
  · rename_i hb _ he hlen
    exact meeting_shortens as bs hb he hlen

/-- The composition of two changes: what does the work of `c` and then of `d`, which is made to the
document that `c` leads to. If one of them keeps the whole document, it is the other one. -/
def andThen (c d : Change α) : Except Fault (Change α) := do
  fits c.newLength d.length
  if c.isEmpty then return d
  if d.isEmpty then return c
  match composeSpans (c.spans.map Rest.ofSpan) (d.spans.map Rest.ofSpan) false [] with
  | .finished spans => return ⟨spans⟩
  | _ => throw (.lengthMismatch c.newLength d.length)

end Change

end TextRevision
