import TextRevision.Proofs.Change.RebasingStates
import TextRevision.Proofs.Change.Totals

/-!
# Numbers in signed words

An outline that operations lead to from ones that are read has lengths that signed words hold, if
there was room wherever one outline was rebased over another. Then nothing that is counted leaves
the words: not the numbers of a span, nor the places at which spans start, nor any number in any
state of the walks that put two such outlines together. Without room, an outline is rebased all the
same, and it is too long.

## Main definitions

- `Outline.InWords`: an outline whose numbers are held by signed words

## Main statements

- `Outline.InRange.inWords`
- `Outline.Derived.numbers_inWords`
-/

namespace TextRevision

/-- Spans in front of others have no more characters than all of them. -/
theorem sumBy_le_of_append {γ : Type} (count : γ → Nat) {xs behind ahead : List γ}
    (h : xs = behind ++ ahead) : sumBy count behind ≤ sumBy count xs := by
  rw [h, sumBy_append]
  exact Nat.le_add_right _ _

namespace Outline

variable {c d : Outline}

/-- An outline whose numbers are held by signed words, and so are those that come up where its
lengths are counted and where places are looked for in it. -/
structure InWords (c : Outline) : Prop where
  length : c.length ≤ lengthLimit
  newLength : c.newLength ≤ lengthLimit
  spans : ∀ s ∈ c.spans, s.Within lengthLimit
  /-- A length that is put into a signed word stays what it is. -/
  word : ∀ s ∈ c.spans, signedWord s.length = s.length
  /-- The places at which spans start. -/
  starts : ∀ behind ahead, c.spans = behind ++ ahead →
    sumBy Span.length behind ≤ lengthLimit ∧ sumBy Span.newLength behind ≤ lengthLimit
  newPlace : ∀ pos side q, c.newPlace pos side = .ok q → q ≤ lengthLimit

/-- An outline within the limit counts nothing that is not. -/
theorem InRange.inWords (h : c.InRange) : c.InWords where
  length := h.length
  newLength := h.newLength
  spans s hs := (h.marked s hs).within hs h.length (c.volume_le_newLength.trans h.newLength)
  word s hs := signedWord_of_lt (h.length_lt s hs)
  starts behind ahead happend :=
    ⟨(sumBy_le_of_append Span.length happend).trans h.length,
      (sumBy_le_of_append Span.newLength happend).trans h.newLength⟩
  newPlace pos side q hq := by
    by_cases hpos : pos ≤ c.length
    · obtain ⟨q', -, hplace, hle⟩ := Change.exists_newPlace hpos side
      obtain rfl : q' = q := Except.ok.inj (hplace.symm.trans hq)
      exact hle.trans h.newLength
    · rw [Change.newPlace_eq_error (Nat.not_le.mp hpos)] at hq
      cases hq

namespace InRange

/-- No number leaves its word while two outlines within the limit are put behind each other. -/
theorem within_composing (hc : c.InRange) (hd : d.InRange) {w : Composing Unit}
    (h : Composing.Reaches (Composing.start c d) w) : w.Within lengthLimit :=
  (Composing.bounded_of_reaches h (Composing.bounded_start hc.marked hd.marked (by decide)
    hc.length hc.newLength hd.length hd.newLength)).within

theorem bounded_rebasing (hc : c.InRange) (hd : d.InRange) :
    (Rebasing.start c d).Bounded lengthLimit :=
  Rebasing.bounded_start hc.length (c.volume_le_newLength.trans hc.newLength) hd.length
    hd.newLength hc.marked hd.marked

/-- No number leaves its word while an outline within the limit is rebased over another. -/
theorem within_rebasing (hc : c.InRange) (hd : d.InRange) {before : Bool} {w : Rebasing Unit Unit}
    (h : Rebasing.Reaches before (Rebasing.start c d) w) : w.Within lengthLimit :=
  (Rebasing.bounded_of_reaches h (hc.bounded_rebasing hd)).within

/-- What results from one outline behind another is where the walk ends, if neither keeps the whole
document. -/
theorem composing_ends (hc : c.InRange) (hd : d.InRange) {e : Outline} (h : c.andThen d = .ok e) :
    c.isEmpty = true ∨ d.isEmpty = true
      ∨ ∃ last, Composing.Reaches (Composing.start c d) ⟨[], [], last, e.spans.reverse⟩ := by
  have hsmall : ∀ s ∈ c.spans, s.count < signBound := by
    intro s hs
    have hwithin := (hc.inWords.spans s hs).count
    exact hwithin.trans_lt (by decide)
  have hfits : c.newLength = d.length := Change.fits_of_andThen h
  obtain ⟨hempty, -⟩ | ⟨hempty, -⟩ | ⟨out, hout, hmoves⟩ :=
    Change.andThen_moves hc.marked hd.marked hsmall hfits
  · exact Or.inl hempty
  · exact Or.inr (Or.inl hempty)
  · obtain rfl := Except.ok.inj (hout.symm.trans h)
    exact Or.inr (Or.inr hmoves.steps)

/-- What results from rebasing is where the walk ends, if the other outline does not keep the whole
document. -/
theorem rebasing_ends (hc : c.InRange) (hd : d.InRange) {before : Bool} {e : Outline}
    (h : c.rebase d before = .ok e) :
    d.isEmpty = true ∨ ∃ last, Rebasing.Reaches before (Rebasing.start c d)
      ⟨[], last, [], e.spans.reverse, .between⟩ := by
  obtain ⟨hempty, -⟩ | ⟨out, hout, hturns⟩ :=
    Change.rebase_turns hc.marked hd.marked (Change.fits_of_rebase h) before
  · exact Or.inl hempty
  · obtain rfl := Except.ok.inj (hout.symm.trans h)
    exact Or.inr (Rebasing.exists_steps hturns rfl)

end InRange

/-- Signed words hold the lengths of an outline that operations lead to from ones that are read, and
all that is counted in it, if there was room for both outlines wherever one was rebased over
another. They also hold all numbers in all states of the walks over two such outlines, which end at
what results. Rebasing leads to an outline within the limit exactly if there is room for both. -/
theorem Derived.numbers_inWords (before : Bool) (hc : Derived Roomy c) (hd : Derived Roomy d) :
    c.InWords ∧ d.InWords
      ∧ (∀ w, Composing.Reaches (Composing.start c d) w → w.Within lengthLimit)
      ∧ (∀ w, Rebasing.Reaches before (Rebasing.start c d) w → w.Within lengthLimit)
      ∧ (∀ e, c.andThen d = .ok e → c.isEmpty = true ∨ d.isEmpty = true
        ∨ ∃ last, Composing.Reaches (Composing.start c d) ⟨[], [], last, e.spans.reverse⟩)
      ∧ ∀ e, c.rebase d before = .ok e → (e.newLength ≤ lengthLimit ↔ Roomy c d)
        ∧ (d.isEmpty = true ∨ ∃ last, Rebasing.Reaches before (Rebasing.start c d)
          ⟨[], last, [], e.spans.reverse, .between⟩) := by
  have hcRange := hc.inRange
  have hdRange := hd.inRange
  refine ⟨hcRange.inWords, hdRange.inWords, fun w => hcRange.within_composing hdRange,
    fun w => hcRange.within_rebasing hdRange, fun e => hcRange.composing_ends hdRange,
    fun e he => ⟨?_, hcRange.rebasing_ends hdRange he⟩⟩
  rw [Change.newLength_rebase hcRange.marked hdRange.marked he]
  exact Iff.rfl

/-- The insertion of some characters into an empty document. -/
def fill (n : Nat) : Outline :=
  ⟨[⟨0, n, ()⟩]⟩

/-- One insertion is kept behind another one of as many characters. -/
def fillBehind (n : Nat) : Outline :=
  ⟨[⟨n, -1, ()⟩, ⟨0, n, ()⟩]⟩

theorem fill_rebase_fill {n : Nat} (hpos : 0 < n) :
    (fill n).rebase (fill n) false = .ok (fillBehind n) := by
  have hsome : ¬ (fill n).isEmpty = true := by
    simp [fill, Change.isEmpty, Span.isKept]
  rw [Change.rebase_eq, if_pos rfl, if_neg hsome]
  simp [fill, fillBehind, Change.rebaseSpans, Rest.ofSpan, Span.push, Span.attach, Span.pushRun,
    Span.isVoid, Span.keptMark, Span.endMark, Span.keep, Change.absorb, Change.yieldsTo,
    Nat.ne_of_gt hpos]

theorem ofJson_fill_one : ofJson (.arr [.int 0, .int 1]) = .ok (fill 1) := by
  decide

/-- Two insertions of one character. -/
theorem Derived.numbers_inWords_one_character :
    Derived Roomy (fill 1) ∧ Derived Roomy (fillBehind 1)
      ∧ (fillBehind 1).InWords ∧ (fillBehind 1).newLength = 2
      ∧ ∀ w, Composing.Reaches (Composing.start (fill 1) (fillBehind 1)) w →
        w.Within lengthLimit := by
  have hfill : Derived Roomy (fill 1) := .ofJson ofJson_fill_one
  have hbehind : Derived Roomy (fillBehind 1) :=
    .rebase false hfill hfill (by decide) (fill_rebase_fill Nat.one_pos)
  obtain ⟨-, hwords, hwalk, -⟩ := Derived.numbers_inWords false hfill hbehind
  exact ⟨hfill, hbehind, hwords, rfl, hwalk⟩

/-- Two insertions that are as long as they may be make a document that is too long. -/
theorem Derived.not_numbers_inWords :
    ∃ c e : Outline, Outline.ofJson (.arr [.int 0, .int 9223372036854775807]) = .ok c
      ∧ c.rebase c false = .ok e ∧ Derived (fun _ _ => True) e
      ∧ e.newLength = 18446744073709551614 ∧ ¬ e.newLength ≤ lengthLimit
      ∧ Outline.ofJson e.toJson = .error (.malformedJson .outline) := by
  have hread : Outline.ofJson (.arr [.int 0, .int 9223372036854775807])
      = .ok (fill 9223372036854775807) := by
    decide
  have hmade : (fill 9223372036854775807).rebase (fill 9223372036854775807) false
      = .ok (fillBehind 9223372036854775807) := fill_rebase_fill (by decide)
  exact ⟨_, _, hread, hmade, .rebase false (.ofJson hread) (.ofJson hread) trivial hmade, rfl,
    by decide, by decide⟩

end Outline

end TextRevision
