import TextRevision.Proofs.Grapheme.Columns

/-!
# Steps of a caret

A caret that moves forward goes to the first boundary behind it, and one that moves backward to the
last boundary in front of it, wherever it stands: at a boundary, within a cluster, or outside the
line. Where there is no such boundary, it goes to the end or to the start of the line. Between two
neighbouring boundaries the steps are inverse to each other.

It does not matter how the line is cut: a cluster without characters has its boundary where another
one stands already.

## Main definitions

- `Grapheme.boundaryIn`: the steps of a caret in a line cut in any way
- `Grapheme.Steps`: what steps have to do with boundaries

## Main statements

- `Grapheme.boundaryAfter_isLeast`, `Grapheme.boundaryBefore_isGreatest`
- `Grapheme.caret_steps`
-/

namespace TextRevision.Grapheme

/-- The boundary that a caret at `pos` moves to in a line of the given clusters. -/
def boundaryIn (gs : List (List Char)) (pos : Nat) (forward : Bool) : Nat :=
  if forward then boundaryAfter pos 0 gs else boundaryBefore pos 0 gs

/-- Steps of a caret in a line of the given clusters and length. -/
structure Steps (gs : List (List Char)) (length : Nat)
    (step : (pos : Nat) → (forward : Bool) → Nat) : Prop where
  /-- A caret moves forward to the first boundary behind it. -/
  ahead : ∀ pos, (∃ q, IsBoundary 0 gs q ∧ pos < q) →
    IsLeast {q | IsBoundary 0 gs q ∧ pos < q} (step pos true)
  /-- A caret that has no boundary behind it moves forward to the end. -/
  atEnd : ∀ pos, (∀ q, IsBoundary 0 gs q → q ≤ pos) → step pos true = length
  /-- A caret moves backward to the last boundary in front of it. -/
  behind : ∀ pos, (∃ q, IsBoundary 0 gs q ∧ q < pos) →
    IsGreatest {q | IsBoundary 0 gs q ∧ q < pos} (step pos false)
  /-- A caret that has no boundary in front of it moves backward to the start. -/
  atStart : ∀ pos, (∀ q, IsBoundary 0 gs q → pos ≤ q) → step pos false = 0
  /-- A step forward from a boundary is taken back by one backward. -/
  forward_backward : ∀ p, IsBoundary 0 gs p → p ≠ length → step (step p true) false = p
  /-- A step backward from a boundary is taken back by one forward. -/
  backward_forward : ∀ p, IsBoundary 0 gs p → p ≠ 0 → step (step p false) true = p

variable {here pos p q : Nat} {g : List Char} {gs : List (List Char)}

section Boundaries

theorem isBoundary_start (here : Nat) (gs : List (List Char)) : IsBoundary here gs here :=
  ⟨[], List.nil_prefix, rfl⟩

theorem isBoundary_end (here : Nat) (gs : List (List Char)) :
    IsBoundary here gs (here + gs.flatten.length) :=
  ⟨gs, List.prefix_rfl, rfl⟩

/-- In front of the boundary that follows another one, that one is the last. -/
theorem isGreatest_of_isLeast (hp : IsBoundary here gs p)
    (h : IsLeast {r | IsBoundary here gs r ∧ p < r} q) :
    IsGreatest {r | IsBoundary here gs r ∧ r < q} p := by
  refine ⟨⟨hp, h.1.2⟩, ?_⟩
  rintro r ⟨hr, hrq⟩
  by_contra hpr
  have hqr : q ≤ r := h.2 ⟨hr, Nat.not_le.mp hpr⟩
  exact absurd hrq (Nat.not_lt.mpr hqr)

/-- Behind the boundary that precedes another one, that one is the first. -/
theorem isLeast_of_isGreatest (hp : IsBoundary here gs p)
    (h : IsGreatest {r | IsBoundary here gs r ∧ r < p} q) :
    IsLeast {r | IsBoundary here gs r ∧ q < r} p := by
  refine ⟨⟨hp, h.1.2⟩, ?_⟩
  rintro r ⟨hr, hqr⟩
  by_contra hpr
  have hrq : r ≤ q := h.2 ⟨hr, Nat.not_le.mp hpr⟩
  exact absurd hqr (Nat.not_lt.mpr hrq)

end Boundaries

section Searches

/-- The search forward, begun in front of the clusters at a place not behind `pos`, ends at the
first boundary behind `pos`. -/
theorem boundaryAfter_isLeast (hhere : here ≤ pos) (h : ∃ q, IsBoundary here gs q ∧ pos < q) :
    IsLeast {q | IsBoundary here gs q ∧ pos < q} (boundaryAfter pos here gs) := by
  induction gs generalizing here with
  | nil =>
    obtain ⟨q, hq, hpos⟩ := h
    obtain rfl := isBoundary_nil.mp hq
    exact absurd hhere (Nat.not_le.mpr hpos)
  | cons g gs ih =>
    have hbehind : ∀ q, IsBoundary here (g :: gs) q ∧ pos < q
        ↔ IsBoundary (here + g.length) gs q ∧ pos < q := by
      intro q
      rw [isBoundary_cons]
      constructor
      · rintro ⟨rfl | hq, hpos⟩
        · exact absurd hhere (Nat.not_le.mpr hpos)
        · exact ⟨hq, hpos⟩
      · rintro ⟨hq, hpos⟩
        exact ⟨.inr hq, hpos⟩
    simp only [hbehind] at h ⊢
    rw [boundaryAfter]
    split
    · next hnext => exact ⟨⟨isBoundary_start .., hnext⟩, fun q hq => hq.1.le⟩
    · next hnext => exact ih (Nat.not_lt.mp hnext) h

/-- The search forward that passes every boundary ends behind the clusters. -/
theorem boundaryAfter_eq_end (h : ∀ q, IsBoundary here gs q → q ≤ pos) :
    boundaryAfter pos here gs = here + gs.flatten.length := by
  induction gs generalizing here with
  | nil => rfl
  | cons g gs ih =>
    have hbehind : ∀ q, IsBoundary (here + g.length) gs q → q ≤ pos :=
      fun q hq => h q (isBoundary_cons.mpr (.inr hq))
    have hnext : here + g.length ≤ pos := hbehind _ (isBoundary_start ..)
    rw [boundaryAfter, if_neg (Nat.not_lt.mpr hnext), ih hbehind, List.flatten_cons,
      List.length_append, Nat.add_assoc]

/-- The search backward, begun in front of the clusters at a place in front of `pos`, ends at the
last boundary in front of `pos`. -/
theorem boundaryBefore_isGreatest (hhere : here < pos) :
    IsGreatest {q | IsBoundary here gs q ∧ q < pos} (boundaryBefore pos here gs) := by
  induction gs generalizing here with
  | nil => exact ⟨⟨isBoundary_start .., hhere⟩, fun q hq => (isBoundary_nil.mp hq.1).le⟩
  | cons g gs ih =>
    rw [boundaryBefore]
    split
    · next hnext =>
      refine ⟨⟨isBoundary_start .., hhere⟩, ?_⟩
      rintro q ⟨hq, hpos⟩
      rcases isBoundary_cons.mp hq with rfl | hq
      · exact le_rfl
      · exact absurd hpos (Nat.not_lt.mpr (hnext.trans hq.le))
    · next hnext =>
      obtain ⟨⟨hfound, hpos⟩, hlast⟩ := ih (Nat.not_le.mp hnext)
      refine ⟨⟨isBoundary_cons.mpr (.inr hfound), hpos⟩, ?_⟩
      rintro q ⟨hq, hqpos⟩
      rcases isBoundary_cons.mp hq with rfl | hq
      · exact (Nat.le_add_right _ _).trans hfound.le
      · exact hlast ⟨hq, hqpos⟩

theorem boundaryBefore_of_le (h : pos ≤ here) : boundaryBefore pos here gs = here := by
  cases gs with
  | nil => rfl
  | cons g gs => rw [boundaryBefore, if_pos (h.trans (Nat.le_add_right _ _))]

end Searches

section Lines

theorem boundaryIn_isLeast (h : ∃ q, IsBoundary 0 gs q ∧ pos < q) :
    IsLeast {q | IsBoundary 0 gs q ∧ pos < q} (boundaryIn gs pos true) :=
  boundaryAfter_isLeast (Nat.zero_le pos) h

theorem boundaryIn_isGreatest (h : ∃ q, IsBoundary 0 gs q ∧ q < pos) :
    IsGreatest {q | IsBoundary 0 gs q ∧ q < pos} (boundaryIn gs pos false) := by
  obtain ⟨q, -, hpos⟩ := h
  exact boundaryBefore_isGreatest ((Nat.zero_le q).trans_lt hpos)

theorem steps_of_flatten {s : String} (hs : gs.flatten = s.toList) :
    Steps gs s.length (boundaryIn gs) := by
  have hlength : 0 + gs.flatten.length = s.length := by
    rw [hs, String.length_toList, Nat.zero_add]
  have hstart : IsBoundary 0 gs 0 := isBoundary_start 0 gs
  have hend : IsBoundary 0 gs s.length := hlength ▸ isBoundary_end 0 gs
  refine ⟨fun pos => boundaryIn_isLeast, ?_, fun pos => boundaryIn_isGreatest, ?_, ?_, ?_⟩
  · intro pos hpos
    exact (boundaryAfter_eq_end hpos).trans hlength
  · intro pos hpos
    exact boundaryBefore_of_le (hpos 0 hstart)
  · intro p hp hne
    have hlt : p < s.length := Nat.lt_of_le_of_ne (hlength ▸ hp.le_length) hne
    have hahead := boundaryIn_isLeast ⟨s.length, hend, hlt⟩
    -- The boundary that the caret comes from is the last one in front of where it comes to.
    exact (boundaryIn_isGreatest ⟨p, hp, hahead.1.2⟩).unique (isGreatest_of_isLeast hp hahead)
  · intro p hp hne
    have hbehind := boundaryIn_isGreatest ⟨0, hstart, Nat.pos_of_ne_zero hne⟩
    exact (boundaryIn_isLeast ⟨p, hp, hbehind.1.2⟩).unique (isLeast_of_isGreatest hp hbehind)

/-- In a line that is cut into clusters in any way, a caret steps from boundary to boundary, and so
it does in a line with the clusters that it has. -/
theorem caret_steps :
    (∀ (s : String) (gs : List (List Char)), gs.flatten = s.toList →
        Steps gs s.length (boundaryIn gs))
      ∧ ∀ s : String, Steps (clusters s) s.length (boundary s) :=
  ⟨fun _ _ hs => steps_of_flatten hs, fun s => steps_of_flatten (flatten_clusters s)⟩

/-- A letter, a letter with an accent on it, and a letter: from within the second cluster a caret
moves to either side of it, and one that passes it comes back to where it stood. -/
theorem caret_steps_over_an_accent :
    let gs := [['a'], ['e', '\u0301'], ['b']]
    gs.flatten = "ae\u0301b".toList
      ∧ IsLeast {q | IsBoundary 0 gs q ∧ 2 < q} 3 ∧ boundaryIn gs 2 true = 3
      ∧ IsGreatest {q | IsBoundary 0 gs q ∧ q < 2} 1 ∧ boundaryIn gs 2 false = 1
      ∧ boundaryIn gs 1 true = 3 ∧ boundaryIn gs (boundaryIn gs 1 true) false = 1
      ∧ boundaryIn gs 3 false = 1 ∧ boundaryIn gs (boundaryIn gs 3 false) true = 3
      ∧ boundaryIn gs 4 true = 4 ∧ boundaryIn gs 0 false = 0 := by
  intro gs
  have hs : gs.flatten = "ae\u0301b".toList := by decide
  have hfront : IsBoundary 0 gs 1 := ⟨[['a']], by decide, rfl⟩
  have hback : IsBoundary 0 gs 3 := ⟨[['a'], ['e', '\u0301']], by decide, rfl⟩
  have h := caret_steps.1 "ae\u0301b" gs hs
  exact ⟨hs, h.ahead 2 ⟨3, hback, by decide⟩, by decide, h.behind 2 ⟨1, hfront, by decide⟩,
    by decide, by decide, h.forward_backward 1 hfront (by decide), by decide,
    h.backward_forward 3 hback (by decide), h.atEnd 4 fun q hq => hq.le_length,
    h.atStart 0 fun q _ => Nat.zero_le q⟩

end Lines

end TextRevision.Grapheme
