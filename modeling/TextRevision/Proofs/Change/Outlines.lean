import TextRevision.Proofs.Change.Redoing
import TextRevision.Proofs.Change.Shapes

/-!
# Revisions and their outlines

Revisions are put behind each other, rebased and undone, and so are outlines, by operations of their
own. Leaving out the insertions of revisions leads from the one to the other: the outline of what
comes of revisions is what comes of their outlines. Two revisions that cannot be put behind each
other, or over each other, are refused for the same reason as their outlines. Undoing differs: a
revision is undone in a document and refuses one that it does not fit, while an outline is undone on
its own.

## Main statements

- `Change.andThen_made_or_refused`, `Change.rebase_made_or_refused`: the only reason to refuse
- `Revision.map_outline_inverse`
- `Revision.outline_operations`
-/

namespace TextRevision

namespace Change

variable {α β : Type}

/-- Changes are put behind each other unless their lengths are at odds. -/
theorem andThen_made_or_refused [Insertion α] (c d : Change α) :
    (∃ e, c.andThen d = .ok e)
      ∨ c.andThen d = .error (.lengthMismatch c.newLength d.length) := by
  rw [andThen_eq]
  split
  · split
    · exact .inl ⟨d, rfl⟩
    · split
      · exact .inl ⟨c, rfl⟩
      · split
        · next spans _ => exact .inl ⟨⟨spans⟩, rfl⟩
        · exact .inr rfl
  · exact .inr rfl

/-- A change is rebased over another unless their lengths are at odds. -/
theorem rebase_made_or_refused [Insertion α] [Insertion β] (c : Change α) (d : Change β)
    (before : Bool) :
    (∃ e, c.rebase d before = .ok e)
      ∨ c.rebase d before = .error (.lengthMismatch d.length c.length) := by
  rw [rebase_eq]
  split
  · split
    · exact .inl ⟨c, rfl⟩
    · split
      · next spans _ => exact .inl ⟨⟨spans⟩, rfl⟩
      · exact .inr rfl
  · exact .inr rfl

end Change

namespace Revision

/-- The outline of what undoes a revision, in a document that it fits, does not depend on the
document. -/
theorem map_outline_inverse (c : Revision) (doc : Rope) :
    (c.inverse doc).map Change.outline
      = if c.length = doc.length then .ok c.outline.inverse
        else .error (.lengthMismatch c.length doc.length) := by
  by_cases hlength : c.length = doc.length
  · have hmade : c.inverse doc = .ok ⟨inverseFrom doc 0 c.spans⟩ := by
      rw [inverse_eq, if_pos hlength]
    rw [if_pos hlength, ← outline_inverse hmade, hmade]
    rfl
  · rw [if_neg hlength, inverse_eq, if_neg hlength]
    rfl

/-- The outline of what comes of revisions is what comes of their outlines. Revisions are put behind
each other, and over each other, just when their outlines are, and are refused for the same
mismatch of lengths. A revision is undone in the documents of its length, and its outline always. -/
theorem outline_operations (c d : Revision) :
    c.outline.andThen d.outline = (c.andThen d).map Change.outline
      ∧ ((∃ e, c.andThen d = .ok e)
        ∨ c.andThen d = .error (.lengthMismatch c.newLength d.length))
      ∧ (∀ before, c.outline.rebase d.outline before
            = (c.rebase d.outline before).map Change.outline
          ∧ ((∃ e, c.rebase d.outline before = .ok e)
            ∨ c.rebase d.outline before = .error (.lengthMismatch d.length c.length)))
      ∧ ∀ doc, (c.inverse doc).map Change.outline
          = if c.length = doc.length then .ok c.outline.inverse
            else .error (.lengthMismatch c.length doc.length) := by
  refine ⟨Change.andThen_outline c d, Change.andThen_made_or_refused c d, fun before => ?_,
    c.map_outline_inverse⟩
  have hrebase := Change.rebase_made_or_refused c d.outline before
  rw [Change.length_outline] at hrebase
  refine ⟨?_, hrebase⟩
  rw [Change.outline_rebase, Change.rebase_outline]

/-- A revision that removes the only character of a document is not undone in the empty document,
and its outline is undone all the same. -/
theorem not_outline_inverse_refused :
    ∃ c, ofEdit (.replace 0 1 .nothing) 1 none = .ok c
      ∧ c.inverse Rope.empty = .error (.lengthMismatch 1 0)
      ∧ c.outline.inverse = ⟨[⟨0, 1, ()⟩]⟩
      ∧ (c.inverse Rope.empty).map Change.outline ≠ .ok c.outline.inverse := by
  refine ⟨⟨[⟨1, 0, Rope.empty⟩]⟩, rfl, rfl, by cbv, ?_⟩
  have hrefused : inverse ⟨[⟨1, 0, Rope.empty⟩]⟩ Rope.empty = .error (.lengthMismatch 1 0) := rfl
  rw [hrefused]
  exact fun h => by cases h

end Revision

end TextRevision
