import Mathlib
import TextRevision.Change.Edit

/-!
# What the operations on changes come to

The operations on changes compare lengths first and leave out a walk that would change nothing.
Here they are told as one choice between their outcomes.

## Main statements

- `Change.andThen_eq`, `Change.rebase_eq`, `Revision.apply_eq`, `Revision.inverse_eq`
- `Revision.ofJson_eq_ok`, `Outline.ofJson_eq_ok`
- `Draft.merge_eq_ok`, `Draft.settle_eq_ok`, `Draft.replace_eq_ok`, `Draft.finish_eq_ok`
-/

namespace TextRevision

namespace Change

variable {α β : Type}

/-- Two changes that do not meet in one document are refused. Otherwise one that keeps everything
is left out, and else the walk decides. -/
theorem andThen_eq [Insertion α] (c d : Change α) :
    c.andThen d =
      if c.newLength = d.length then
        if c.isEmpty then .ok d
        else if d.isEmpty then .ok c
        else
          match composeSpans (c.spans.map Rest.ofSpan) (d.spans.map Rest.ofSpan) false [] with
          | .finished spans => .ok ⟨spans⟩
          | _ => .error (.lengthMismatch c.newLength d.length)
      else .error (.lengthMismatch c.newLength d.length) := by
  rw [andThen, fits]
  by_cases hfits : c.newLength = d.length
  · rw [if_pos hfits, if_pos hfits]
    cases c.isEmpty <;> cases d.isEmpty <;> rfl
  · rw [if_neg hfits, if_neg hfits]
    rfl

/-- Two changes of documents of different lengths are refused. Otherwise one is rebased over the
other by the walk, unless the other keeps everything. -/
theorem rebase_eq [Insertion α] [Insertion β] (c : Change α) (d : Change β) (before : Bool) :
    c.rebase d before =
      if d.length = c.length then
        if d.isEmpty then .ok c
        else
          match rebaseSpans before (c.spans.map Rest.ofSpan) false (d.spans.map Rest.ofSpan) [] with
          | .finished spans => .ok ⟨spans⟩
          | _ => .error (.lengthMismatch d.length c.length)
      else .error (.lengthMismatch d.length c.length) := by
  rw [rebase, fits]
  by_cases hfits : d.length = c.length
  · rw [if_pos hfits, if_pos hfits]
    cases d.isEmpty <;> rfl
  · rw [if_neg hfits, if_neg hfits]
    rfl

/-- Changes that are put behind each other meet in one document. -/
theorem fits_of_andThen [Insertion α] {c d e : Change α} (h : c.andThen d = .ok e) :
    c.newLength = d.length := by
  by_contra hne
  rw [andThen_eq, if_neg hne] at h
  cases h

/-- A change is rebased over changes of its own document. -/
theorem fits_of_rebase [Insertion α] [Insertion β] {c e : Change α} {d : Change β} {before : Bool}
    (h : c.rebase d before = .ok e) : d.length = c.length := by
  by_contra hne
  rw [rebase_eq, if_neg hne] at h
  cases h

end Change

namespace Revision

theorem apply_eq (c : Revision) (doc : Rope) :
    c.apply doc =
      if c.length = doc.length then
        .ok ((c.replacements false).foldl
          (fun doc r => doc.splice r.newStart (r.newStart + (r.stop - r.start)) r.text) doc)
      else .error (.lengthMismatch c.length doc.length) := by
  rw [apply, Change.fits]
  split <;> rfl

theorem inverse_eq (c : Revision) (doc : Rope) :
    c.inverse doc =
      if c.length = doc.length then .ok ⟨inverseFrom doc 0 c.spans⟩
      else .error (.lengthMismatch c.length doc.length) := by
  rw [inverse, Change.fits]
  split <;> rfl

end Revision

section Written

/-- What is read of a list item by item comes from the items. -/
theorem exists_of_mem_mapM {γ δ : Type} {f : γ → Option δ} {xs : List γ} {ys : List δ}
    (h : xs.mapM f = some ys) {y : δ} (hy : y ∈ ys) : ∃ x ∈ xs, f x = some y := by
  induction xs generalizing ys with
  | nil =>
    obtain rfl : ys = [] := by simpa using h.symm
    simp at hy
  | cons x xs ih =>
    rw [List.mapM_cons] at h
    obtain ⟨first, hfirst, h⟩ := Option.bind_eq_some_iff.mp h
    obtain ⟨rest, hrest, h⟩ := Option.bind_eq_some_iff.mp h
    obtain rfl : first :: rest = ys := Option.some.inj h
    rcases List.mem_cons.mp hy with rfl | hy
    · exact ⟨x, by simp, hfirst⟩
    · obtain ⟨z, hz, hfz⟩ := ih hrest hy
      exact ⟨z, by simp [hz], hfz⟩

/-- A written revision is read part by part. -/
theorem Revision.ofJson_eq_ok {v : Json} {c : Revision} (h : Revision.ofJson v = .ok c) :
    ∃ items parts, v.items? = some items ∧ items.mapM Revision.part? = some parts
      ∧ Change.collect? parts ⟨0, 0⟩ [] = some c.spans.reverse := by
  rw [Revision.ofJson] at h
  split at h
  · next c' hread =>
    obtain rfl := Except.ok.inj h
    obtain ⟨items, hitems, hread⟩ := Option.bind_eq_some_iff.mp hread
    obtain ⟨parts, hparts, hread⟩ := Option.bind_eq_some_iff.mp hread
    obtain ⟨spans, hspans, rfl⟩ := Option.map_eq_some_iff.mp hread
    exact ⟨items, parts, hitems, hparts, by rw [hspans, List.reverse_reverse]⟩
  · cases h

/-- A written outline is read as numbers taken two by two. -/
theorem Outline.ofJson_eq_ok {v : Json} {c : Outline} (h : Outline.ofJson v = .ok c) :
    ∃ numbers parts, Outline.spans? numbers = some parts
      ∧ Change.collect? parts ⟨0, 0⟩ [] = some c.spans.reverse := by
  rw [Outline.ofJson] at h
  split at h
  · next c' hread =>
    obtain rfl := Except.ok.inj h
    obtain ⟨items, hitems, hread⟩ := Option.bind_eq_some_iff.mp hread
    obtain ⟨numbers, hnumbers, hread⟩ := Option.bind_eq_some_iff.mp hread
    obtain ⟨parts, hparts, hread⟩ := Option.bind_eq_some_iff.mp hread
    obtain ⟨spans, hspans, rfl⟩ := Option.map_eq_some_iff.mp hread
    exact ⟨numbers, parts, hparts, by rw [hspans, List.reverse_reverse]⟩
  · cases h

end Written

section Drafts

theorem ok_of_bind {γ δ : Type} {x : Except Fault γ} {f : γ → Except Fault δ} {y : δ}
    (h : x >>= f = .ok y) : ∃ a, x = .ok a ∧ f a = .ok y := by
  cases x with
  | error fault => cases h
  | ok a => exact ⟨a, rfl, h⟩

namespace Draft

variable {d d' : Draft}

/-- Merging a revision into a draft rebases it over what is there and puts it behind. -/
theorem merge_eq_ok {c : Revision} (h : d.merge c = .ok d') :
    (d.total = none ∧ d' = { d with total := some c })
      ∨ ∃ total rebased next, d.total = some total ∧ c.rebase total.outline false = .ok rebased
          ∧ total.andThen rebased = .ok next ∧ d' = { d with total := some next } := by
  rw [merge] at h
  split at h
  · next hnone => exact Or.inl ⟨hnone, (Except.ok.inj h).symm⟩
  · next total hsome =>
    obtain ⟨rebased, hrebased, h⟩ := ok_of_bind h
    obtain ⟨next, hnext, h⟩ := ok_of_bind h
    exact Or.inr ⟨total, rebased, next, hsome, hrebased, hnext, (Except.ok.inj h).symm⟩

/-- Settling a draft merges its open batch, if there is anything in it. -/
theorem settle_eq_ok (h : d.settle = .ok d') :
    (d.spans = [] ∧ d' = d) ∨ { d with spans := [], pos := 0 }.merge d.batch = .ok d' := by
  rw [settle] at h
  split at h
  · next hempty => exact Or.inl ⟨by simpa using hempty, (Except.ok.inj h).symm⟩
  · exact Or.inr h

/-- The draft with a replaced range put behind the open batch. -/
def putReplaced (d : Draft) (start stop : Nat) (text : Rope) : Draft :=
  { d with
    spans := Span.push false (Span.push false d.spans (.keep (start - d.pos)))
      (Span.replace (stop - start) text)
    pos := stop }

/-- Replacing a range closes the open batch if it goes back, and then tells the range. -/
theorem replace_eq_ok {start stop : Nat} {text : Rope} (h : d.replace start stop text = .ok d') :
    d' = d ∨ (d.pos ≤ start ∧ d' = d.putReplaced start stop text)
      ∨ (start < d.pos ∧ ∃ settled, d.settle = .ok settled
          ∧ d' = settled.putReplaced start stop text) := by
  rw [replace] at h
  split at h
  · exact Or.inl (Except.ok.inj h).symm
  · dsimp only at h
    split at h
    · next hback =>
      obtain ⟨settled, hsettled, h⟩ := ok_of_bind h
      exact Or.inr (Or.inr ⟨hback, settled, hsettled, (Except.ok.inj h).symm⟩)
    · next hforward => exact Or.inr (Or.inl ⟨Nat.not_lt.mp hforward, (Except.ok.inj h).symm⟩)

/-- A finished draft has all its batches closed. -/
theorem finish_eq_ok {c : Revision} (h : d.finish = .ok c) :
    ∃ finished : Draft, (if d.total.isNone then d.close else d.settle) = .ok finished
      ∧ c = finished.total.getD (Change.unchanged finished.length) := by
  rw [finish] at h
  dsimp only at h
  split at h
  · next htotal =>
    obtain ⟨finished, hfinished, h⟩ := ok_of_bind h
    exact ⟨finished, by rw [if_pos htotal, hfinished], (Except.ok.inj h).symm⟩
  · next htotal =>
    obtain ⟨finished, hfinished, h⟩ := ok_of_bind h
    exact ⟨finished, by rw [if_neg htotal, hfinished], (Except.ok.inj h).symm⟩

end Draft

end Drafts

end TextRevision
