import TextRevision.Change.Compose
import TextRevision.Change.Rebase
import TextRevision.ChangeSet.Basic

/-!
# Change sets put together

The walks that put one change behind another, and that rebase one over another, as they are taken
through change sets: the runs that they find and the insertions of these are told in two lists, and
every number is held to its word. Where a number leaves its word, the walk breaks off.

## Main definitions

- `Change.composeRuns`, `Change.rebaseRuns`: the walks
- `ChangeSet.andThen`, `ChangeSet.rebase`: the operations on change sets
- `Outline.andThen?`, `Outline.rebase?`: the operations on outlines
-/

namespace TextRevision

namespace Change

open TextRevision.Span (keptMark endMark)

variable {α β : Type} [Insertion α]

/-- A signed word holds what is left of a count behind `len` characters of the new document. -/
def leavesHeld (len : Nat) (r : Rest α) : Prop :=
  r.count = keptMark ∨ (signed? (r.count - signedWord len)).isSome

instance (len : Nat) (r : Rest α) : Decidable (leavesHeld len r) :=
  inferInstanceAs (Decidable (_ ∨ _))

/-- The walk of `composeSpans`, what it finds being told in two lists. -/
def composeRuns : List (Rest α) → List (Rest α) → (joined : Bool) → Ledger α → Walk (Ledger α)
  | [], [], _, l => .finished l
  | [], b :: bs, joined, l =>
    if b.count = endMark then .finished l
    else if b.length = 0 then
      .onward (l.push? joined ⟨0, b.count, b.text⟩) fun l => composeRuns [] bs joined l
    else .mismatch
  | a :: as, [], joined, l =>
    if a.count = 0 then
      .onward (l.push? joined ⟨a.length, 0, Insertion.empty⟩) fun l => composeRuns as [] joined l
    else if a.count = endMark then .finished l
    else .mismatch
  | a :: as, b :: bs, joined, l =>
    if a.count = 0 then
      .onward (l.push? joined ⟨a.length, 0, Insertion.empty⟩) fun l =>
        composeRuns as (b :: bs) joined l
    else if b.length = 0 ∧ b.count ≠ endMark then
      .onward (l.push? joined ⟨0, b.count, b.text⟩) fun l => composeRuns (a :: as) bs joined l
    else if a.count = endMark ∧ b.count = endMark then .finished l
    else if a.count = endMark ∨ b.count = endMark then .mismatch
    else
      let len := min a.newLength b.length
      if len = 0 ∧ a.count ≠ keptMark then .stalled
      else
        .onward (l.push? joined (meet len a b)) fun l' =>
          if leavesHeld len a then
            composeRuns (Rest.forwardNew len (a :: as)) (Rest.forward len (b :: bs))
              (staysOpen len a b && (joined || l.runs.length < l'.runs.length)) l'
          else .stalled
termination_by as bs => as.length + bs.length + Rest.total bs
decreasing_by
  · simp only [List.length_cons, Rest.total, sumBy_cons]
    omega
  · simp only [List.length_cons]
    omega
  · simp only [List.length_cons]
    omega
  · simp only [List.length_cons, Rest.total, sumBy_cons]
    omega
  · rename_i hb _ he hlen _
    exact meeting_shortens as bs hb he hlen

/-- What is left of spans as `absorb` tells it, the insertions being told in two lists. There is no
result either if a number leaves its word. -/
def absorbRuns : List (Rest α) → (told : Bool) → (len : Nat) → Ledger α →
    Option (List (Rest α) × Bool × Ledger α)
  | as, told, 0, l => some (as, told, l)
  | [], _, _ + 1, _ => none
  | a :: as, told, len + 1, l =>
    if a.length ≤ len + 1 then
      (if 0 ≤ a.count ∧ !told then l.push? false ⟨0, a.count, a.text⟩ else some l).bind fun l =>
        absorbRuns as false (len + 1 - a.length) l
    else some (Rest.forward (len + 1) (a :: as), told, l)

theorem movesOf_absorbRuns {as as' : List (Rest α)} {told told' : Bool} {len : Nat}
    {l l' : Ledger α} (h : absorbRuns as told len l = some (as', told', l')) :
    movesOf as' told' ≤ movesOf as told := by
  fun_induction absorbRuns as told len l with
  | case1 as told l =>
    obtain ⟨rfl, rfl, -⟩ : as = as' ∧ told = told' ∧ l = l' := by simpa using h
    exact Nat.le_refl _
  | case2 => cases h
  | case3 a as told len l hle ih =>
    obtain ⟨l'', -, h⟩ := Option.bind_eq_some_iff.mp h
    refine Nat.le_trans (ih l'' h) ?_
    simp only [movesOf, List.length_cons, Bool.false_eq_true, if_false]
    omega
  | case4 a as told len l hlt =>
    obtain ⟨rfl, rfl, -⟩ :
        Rest.forward (len + 1) (a :: as) = as' ∧ told = told' ∧ l = l' := by simpa using h
    have := Rest.length_forward_le (len + 1) (a :: as)
    simp only [movesOf]
    omega

/-- The walk of `rebaseSpans`, what it finds being told in two lists. -/
def rebaseRuns (before : Bool) : List (Rest α) → (told : Bool) → List (Rest β) → Ledger α →
    Walk (Ledger α)
  | [], _, [], l => .finished l
  | [], told, b :: bs, l =>
    if 0 < b.length then .mismatch
    else if 0 ≤ b.count then
      .onward (l.push? false (.keep b.count.toNat)) fun l => rebaseRuns before [] told bs l
    else if b.count = endMark then .finished l
    else .mismatch
  | a :: as, told, [], l =>
    if 0 < a.length then .mismatch
    else if 0 ≤ a.count then
      .onward (if told then some l else l.push? false ⟨0, a.count, a.text⟩) fun l =>
        rebaseRuns before as false [] l
    else if a.count = endMark then .finished l
    else .mismatch
  | a :: as, told, b :: bs, l =>
    if (a.count = endMark ∧ 0 < b.length) ∨ (b.count = endMark ∧ 0 < a.length) then .mismatch
    else if a.count = keptMark ∧ b.count = keptMark then
      .onward (l.push? false (.keep (min a.length b.length))) fun l =>
        if a.length ≤ b.length then
          rebaseRuns before as false (Rest.forward a.length (b :: bs)) l
        else rebaseRuns before (Rest.forward b.length (a :: as)) told bs l
    else if 0 ≤ b.count ∧ yieldsTo before b.length told a then
      .onward (l.push? false (.keep b.count.toNat)) fun l =>
        match _h : absorbRuns (a :: as) told b.length l with
        | some (as', told', l) => rebaseRuns before as' told' bs l
        | none => .stalled
    else if 0 ≤ a.count then
      let met := passKept a.length (b :: bs)
      .onward (l.push? false
          (if told then ⟨met.kept, 0, Insertion.empty⟩ else ⟨met.kept, a.count, a.text⟩)) fun l =>
        if met.left = 0 then rebaseRuns before as false met.spans l
        else if told ∧ met.spans.length = bs.length + 1 then .stalled
        else
          rebaseRuns before (Rest.forward (a.length - met.left) (a :: as)) true met.spans l
    else if a.count = endMark ∧ b.count = endMark then .finished l
    else .mismatch
termination_by as told bs => movesOf as told + bs.length
decreasing_by
  · simp only [List.length_cons]
    omega
  · simp only [movesOf, List.length_cons, Bool.false_eq_true, if_false]
    omega
  · have := Rest.length_forward_le a.length (b :: bs)
    simp only [movesOf, List.length_cons, Bool.false_eq_true, if_false] at this ⊢
    omega
  · have := Rest.length_forward_le b.length (a :: as)
    simp only [movesOf, List.length_cons] at this ⊢
    omega
  · have := movesOf_absorbRuns (by assumption)
    simp only [List.length_cons]
    omega
  · exact pass_shortens a as told b bs
  · rename_i hstall
    exact stop_shortens as hstall

section Branches

variable {before told : Bool} {a : Rest α} {as : List (Rest α)} {b : Rest β} {bs : List (Rest β)}
  {l l' : Ledger α}

/-- What both changes keep is kept. -/
theorem rebaseRuns_of_kept {len : Nat} (hkept : a.count = keptMark) (hbkept : b.count = keptMark)
    (hlen : len = min a.length b.length) (hput : l.push? false (.keep len) = some l') :
    rebaseRuns before (a :: as) false (b :: bs) l
      = rebaseRuns before (Rest.forward len (a :: as)) false (Rest.forward len (b :: bs)) l' := by
  have hend : ¬ ((a.count = endMark ∧ 0 < b.length) ∨ (b.count = endMark ∧ 0 < a.length)) := by
    rw [hkept, hbkept]
    simp [keptMark, endMark]
  rw [rebaseRuns, if_neg hend, if_pos ⟨hkept, hbkept⟩, ← hlen, hput, Walk.onward_some]
  split
  · next hle =>
    rw [hlen, Nat.min_eq_left hle]
    exact congrArg (rebaseRuns before · false _ l') (if_pos rfl).symm
  · next hlt =>
    rw [hlen, Nat.min_eq_right (Nat.le_of_not_le hlt)]
    exact congrArg (rebaseRuns before _ false · l') (if_pos rfl).symm

variable (hmark : keptMark ≤ a.count) (hbmark : keptMark ≤ b.count)
include hmark hbmark

omit [Insertion α] in
/-- Where every mark is that of a kept run, none ends a walk. -/
theorem not_ended :
    ¬ ((a.count = endMark ∧ 0 < b.length) ∨ (b.count = endMark ∧ 0 < a.length)) := by
  simp only [keptMark, endMark] at *
  omega

/-- What the other change inserts is kept, and what it removes is taken off. -/
theorem rebaseRuns_of_yields (hyields : 0 ≤ b.count ∧ yieldsTo before b.length told a)
    (hput : l.push? false (.keep b.count.toNat) = some l') :
    rebaseRuns before (a :: as) told (b :: bs) l =
      match absorbRuns (a :: as) told b.length l' with
      | some (as', told', l) => rebaseRuns before as' told' bs l
      | none => .stalled := by
  have hkept : ¬ (a.count = keptMark ∧ b.count = keptMark) := by
    simp only [keptMark]
    omega
  rw [rebaseRuns, if_neg (not_ended hmark hbmark), if_neg hkept, if_pos hyields, hput,
    Walk.onward_some]
  split <;> next h => rw [h]

/-- A replaced run is put with the characters that the other change keeps of it. -/
theorem rebaseRuns_of_replaces {met : Passage β}
    (hyields : ¬ (0 ≤ b.count ∧ yieldsTo before b.length told a)) (hreplaces : 0 ≤ a.count)
    (hmet : passKept a.length (b :: bs) = met)
    (hput : l.push? false (if told then ⟨met.kept, 0, Insertion.empty⟩
      else ⟨met.kept, a.count, a.text⟩) = some l') :
    rebaseRuns before (a :: as) told (b :: bs) l =
      if met.left = 0 then rebaseRuns before as false met.spans l'
      else if told ∧ met.spans.length = bs.length + 1 then .stalled
      else rebaseRuns before (Rest.forward (a.length - met.left) (a :: as)) true met.spans l' := by
  have hkept : ¬ (a.count = keptMark ∧ b.count = keptMark) := by
    simp only [keptMark]
    omega
  subst hmet
  rw [rebaseRuns, if_neg (not_ended hmark hbmark), if_neg hkept, if_neg hyields, if_pos hreplaces]
  dsimp only
  rw [hput, Walk.onward_some]

end Branches

/-- What a walk finds, or that the lengths it was taken for do not fit. -/
def checkedWalk {γ : Type} (expected actual : Nat) : Walk γ → Checked γ
  | .finished result => .done result
  | .mismatch => .refused (.lengthMismatch expected actual)
  | .stalled => .nothing

end Change

namespace ChangeSet

/-- The walk that puts one change set behind another. -/
def composeWalk (c d : ChangeSet) : Walk (Ledger Rope) :=
  Change.composeRuns (c.revision.spans.map Rest.ofSpan) (d.revision.spans.map Rest.ofSpan) false
    .blank

/-- The walk that rebases a change set over an outline. -/
def rebaseWalk (c : ChangeSet) (d : Outline) (before : Bool) : Walk (Ledger Rope) :=
  Change.rebaseRuns before (c.revision.spans.map Rest.ofSpan) false (d.spans.map Rest.ofSpan)
    .blank

/-- The composition of two change sets: what does the work of `c` and then of `d`, which is made to
the document that `c` leads to. If one of them keeps the whole document, it is the other one. -/
def andThen (c d : ChangeSet) : Checked ChangeSet := do
  let newLength ← c.outline.newLength?
  let length ← d.outline.length?
  Change.fits newLength length
  if c.outline.isEmpty then return d
  if d.outline.isEmpty then return c
  return ofLedger (← Change.checkedWalk newLength length (composeWalk c d))

/-- The change set `c`, mapped over a concurrent change of the same document. With `before`, an
insertion of `c` comes first where both insert at one place. -/
def rebase (c : ChangeSet) (d : Outline) (before : Bool) : Checked ChangeSet := do
  let length ← d.length?
  let length' ← c.outline.length?
  Change.fits length length'
  if d.isEmpty then return c
  return ofLedger (← Change.checkedWalk length length' (rebaseWalk c d before))

end ChangeSet

namespace Outline

def ofLedger (l : Ledger Unit) : Outline :=
  ⟨l.runs.reverse⟩

/-- The outline of a change and then another, as `Change.andThen` tells it, held to words. -/
def andThen? (c d : Outline) : Checked Outline := do
  let newLength ← c.newLength?
  let length ← d.length?
  Change.fits newLength length
  if c.isEmpty then return d
  if d.isEmpty then return c
  return ofLedger (← Change.checkedWalk newLength length <|
    Change.composeRuns (c.spans.map Rest.ofSpan) (d.spans.map Rest.ofSpan) false .blank)

/-- An outline that is rebased over a concurrent one, as `Change.rebase` tells it, held to words. -/
def rebase? (c d : Outline) (before : Bool) : Checked Outline := do
  let length ← d.length?
  let length' ← c.length?
  Change.fits length length'
  if d.isEmpty then return c
  return ofLedger (← Change.checkedWalk length length' <|
    Change.rebaseRuns before (c.spans.map Rest.ofSpan) false (d.spans.map Rest.ofSpan) .blank)

end Outline

end TextRevision
