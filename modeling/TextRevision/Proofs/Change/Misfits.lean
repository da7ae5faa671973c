import TextRevision.Proofs.Change.Turns

/-!
# Changes that do not fit together

The walk that rebases one change over another finds no result if the two have different lengths. In
most cases it comes to where one of them has characters left and the other has not. But a run that
the other change replaces is taken off the first one as a whole: if the first has some characters of
the run, and not all, the walk waits for the rest and never ends. So a change has to be refused for
its length before the walk begins, and it is.

## Main definitions

- `Rest.endsInRun`: some characters in front end within a replaced run
- `Change.CutsRun`: a place within a replaced run

## Main statements

- `Rest.endsInRun_iff`, `Change.endsInRun_ofSpan`
- `Change.Turns.walk_of_ne`: what the walk comes to from any point
- `Change.rebaseSpans_of_misfit`: what it comes to from the start
-/

namespace TextRevision

variable {α β : Type}

namespace Rest

/-- Whether the first `n` characters end within a replaced run, with a part of it behind them. -/
def endsInRun : (n : Nat) → List (Rest β) → Bool
  | _, [] => false
  | n, b :: bs => if n < b.length then 0 < n && 0 ≤ b.count else endsInRun (n - b.length) bs

variable {n len : Nat} {b : Rest β} {bs : List (Rest β)}

theorem length_le_total (b : Rest β) (bs : List (Rest β)) : b.length ≤ total (b :: bs) :=
  Nat.le_add_right _ _

theorem total_sub_length (b : Rest β) (bs : List (Rest β)) :
    total (b :: bs) - b.length = total bs :=
  Nat.add_sub_cancel_left _ _

theorem endsInRun_cons_of_le (h : b.length ≤ n) :
    endsInRun n (b :: bs) = endsInRun (n - b.length) bs :=
  if_neg (Nat.not_lt.mpr h)

theorem endsInRun_zero (bs : List (Rest β)) : endsInRun 0 bs = false := by
  induction bs with
  | nil => rfl
  | cons b bs ih =>
    rw [endsInRun]
    split
    · rfl
    · rw [Nat.zero_sub, ih]

/-- A replaced run of which some characters are in front, and not all, ends the search. -/
theorem endsInRun_of_lt (hpos : 0 < n) (hlt : n < b.length) (hput : 0 ≤ b.count) :
    endsInRun n (b :: bs) = true := by
  rw [endsInRun, if_pos hlt]
  simp [hpos, hput]

/-- Kept characters in front do not matter. -/
theorem endsInRun_forward (hkept : b.count < 0) (hlen : len ≤ b.length) (hn : len ≤ n) :
    endsInRun (n - len) (forward len (b :: bs)) = endsInRun n (b :: bs) := by
  rw [forward]
  split
  · next hall =>
    subst hall
    exact (endsInRun_cons_of_le hn).symm
  · next hpart =>
    have hcount : decide (0 ≤ b.count) = false := decide_eq_false (Int.not_le.mpr hkept)
    have hless : n - len < b.length - len ↔ n < b.length := by omega
    have hrest : n - len - (b.length - len) = n - b.length := by omega
    simp only [endsInRun, hless, hrest, hcount, Bool.and_false]

theorem endsInRun_iff : endsInRun n bs = true ↔ ∃ front b back, bs = front ++ b :: back
    ∧ 0 ≤ b.count ∧ total front < n ∧ n < total front + b.length := by
  induction bs generalizing n with
  | nil => simp [endsInRun]
  | cons b bs ih =>
    by_cases hlt : n < b.length
    · have hhere : endsInRun n (b :: bs) = true ↔ 0 < n ∧ 0 ≤ b.count := by
        rw [endsInRun, if_pos hlt, Bool.and_eq_true, decide_eq_true_iff, decide_eq_true_iff]
      rw [hhere]
      constructor
      · rintro ⟨hpos, hput⟩
        exact ⟨[], b, bs, rfl, hput, hpos, (Nat.zero_add b.length).symm ▸ hlt⟩
      · rintro ⟨front, r, back, happend, hput, hbehind, hahead⟩
        rcases List.cons_eq_append_iff.mp happend with ⟨rfl, htail⟩ | ⟨front, rfl, -⟩
        · obtain ⟨rfl, -⟩ := List.cons.inj htail
          exact ⟨hbehind, hput⟩
        · rw [Reading.total_cons] at hbehind
          omega
    · have hle : b.length ≤ n := Nat.not_lt.mp hlt
      rw [endsInRun_cons_of_le hle, ih]
      constructor
      · rintro ⟨front, r, back, rfl, hput, hbehind, hahead⟩
        refine ⟨b :: front, r, back, rfl, hput, ?_, ?_⟩
        · rw [Reading.total_cons]
          omega
        · rw [Reading.total_cons]
          omega
      · rintro ⟨front, r, back, happend, hput, hbehind, hahead⟩
        rcases List.cons_eq_append_iff.mp happend with ⟨rfl, htail⟩ | ⟨front, rfl, hback⟩
        · obtain ⟨rfl, -⟩ := List.cons.inj htail
          rw [Reading.total_nil] at hahead
          omega
        · rw [Reading.total_cons] at hbehind hahead
          exact ⟨front, r, back, hback, hput, by omega, by omega⟩

end Rest

namespace Change

open TextRevision.Reading (Told total_nil total_cons)

section Walk

variable {before : Bool} {as : List (Rest α)} {told : Bool} {bs : List (Rest β)}

/-- What is in front of a place ends in the same run as before where a run is passed as a whole, and
more behind it down to `rest` removed characters. -/
theorem endsInRun_of_passed {n left rest : Nat} {b : Rest β} {passed : List (Rest β)}
    (hle : b.length ≤ left) (hn : left ≤ n) (hrest : rest ≤ left - b.length)
    (h : Rest.endsInRun (n - b.length - (left - b.length - rest)) passed
      = Rest.endsInRun (n - b.length) bs) :
    Rest.endsInRun (n - (left - rest)) passed = Rest.endsInRun n (b :: bs) := by
  have hpassed : n - b.length - (left - b.length - rest) = n - (left - rest) := by omega
  rw [Rest.endsInRun_cons_of_le (hle.trans hn), ← h, hpassed]

/-- So it does where removed characters have passed spans of the other change. -/
theorem endsInRun_passKept (n left : Nat) (bs : List (Rest β)) (hn : left ≤ n) :
    Rest.endsInRun (n - (left - (passKept left bs).left)) (passKept left bs).spans
      = Rest.endsInRun n bs := by
  fun_induction passKept left bs generalizing n with
  | case1 left => rw [Nat.sub_self, Nat.sub_zero]
  | case2 b bs => rw [Nat.sub_self, Nat.sub_zero]
  | case3 left b bs hpos hkept hle later ih =>
    exact endsInRun_of_passed hle hn (left_passKept_le _ _) (ih _ (Nat.sub_le_sub_right hn _))
  | case4 left b bs hpos hkept hlt =>
    exact Rest.endsInRun_forward (hkept ▸ by decide) (Nat.le_of_not_le hlt) hn
  | case5 left b bs hpos hkept hdeletion ih =>
    exact endsInRun_of_passed (Nat.le_of_lt hdeletion.2) hn (left_passKept_le _ _)
      (ih _ (Nat.sub_le_sub_right hn _))
  | case6 left b bs hpos hkept hdeletion => rw [Nat.sub_self, Nat.sub_zero]

variable [Insertion α]

/-- The walk over what is left of two changes of different lengths finds no result. It stalls where
the first change ends within a run that the other one replaces. -/
theorem Turns.walk_of_ne {spans : List (Span α)} {walk : Walk (List (Span α))}
    (h : Turns before as told bs spans walk) (hne : Rest.total as ≠ Rest.total bs) :
    walk = if Rest.endsInRun (Rest.total as) bs then .stalled else .mismatch := by
  -- A turn takes as many characters off the one change as off the other, and what is left of the
  -- first one ends in the same run as before.
  induction h with
  | done => exact absurd rfl hne
  | short =>
    rw [total_nil, Rest.endsInRun_zero]
    rfl
  | long => rfl
  | @stalls a as told b bs spans hpos hput _ habsorb =>
    have hsome : 0 < Rest.total (a :: as) := by
      rw [total_cons]
      omega
    rw [Rest.endsInRun_of_lt hsome (absorb_eq_none_iff.mp habsorb) hput]
    rfl
  | keepLast hzero _ _ ih =>
    rw [total_cons, hzero, Nat.zero_add] at hne
    rw [ih hne, total_nil, Rest.endsInRun_zero, Rest.endsInRun_zero]
  | putLast hzero _ _ ih =>
    rw [total_cons, hzero, Nat.zero_add] at hne
    exact ih hne
  | @keep a as b bs spans walk len _ hbkept hlen _ ih =>
    have hle : len ≤ a.length := hlen.trans_le (Nat.min_le_left _ _)
    have hble : len ≤ b.length := hlen.trans_le (Nat.min_le_right _ _)
    have has := Rest.total_forward as hle
    have hbs := Rest.total_forward bs hble
    have hends : Rest.endsInRun (Rest.total (a :: as) - len) (Rest.forward len (b :: bs))
        = Rest.endsInRun (Rest.total (a :: as)) (b :: bs) :=
      Rest.endsInRun_forward (hbkept ▸ by decide) hble (hle.trans (Rest.length_le_total a as))
    rw [ih (by omega), ← hends, ← has, Nat.add_sub_cancel]
  | @yields a as as' told told' b bs spans spans' walk _ _ habsorb _ ih =>
    have has := total_absorb habsorb
    rw [← has, total_cons, Nat.add_comm, Ne, Nat.add_left_cancel_iff] at hne
    rw [ih hne, Rest.endsInRun_cons_of_le (by omega), ← has, Nat.add_sub_cancel]
  | @passes a as told b bs spans walk met _ _ hmet hleft _ ih =>
    have hbs := total_passKept a.length (b :: bs)
    have hends := endsInRun_passKept _ _ (b :: bs) (Rest.length_le_total a as)
    rw [hmet, hleft, Nat.sub_zero] at hbs hends
    rw [total_cons] at hne
    rw [ih (by omega), ← hends, Rest.total_sub_length]
  | @stops a as told b bs spans walk met _ _ hmet _ _ ih =>
    have has := Rest.total_forward as (Nat.sub_le a.length met.left)
    have hbs := total_passKept a.length (b :: bs)
    have hends := endsInRun_passKept _ _ (b :: bs) (Rest.length_le_total a as)
    rw [hmet] at hbs hends
    rw [ih (by omega), ← hends, ← has, Nat.add_sub_cancel]

end Walk

section Misfits

variable {c : Change α} {d : Change β} {place : Nat}

/-- A place within a replaced run, with characters of the run on both sides. -/
def CutsRun (d : Change β) (place : Nat) : Prop :=
  ∃ front s back, d.spans = front ++ s :: back ∧ 0 ≤ s.count
    ∧ sumBy Span.length front < place ∧ place < sumBy Span.length front + s.length

theorem endsInRun_ofSpan :
    Rest.endsInRun place (d.spans.map Rest.ofSpan) = true ↔ d.CutsRun place := by
  rw [Rest.endsInRun_iff]
  constructor
  · rintro ⟨fronts, b, backs, happend, hput, hbehind, hahead⟩
    obtain ⟨front, rest, hspans, rfl, hrest⟩ := List.map_eq_append_iff.mp happend
    obtain ⟨s, back, rfl, rfl, rfl⟩ := List.map_eq_cons_iff.mp hrest
    rw [total_ofSpan] at hbehind hahead
    exact ⟨front, s, back, hspans, hput, hbehind, hahead⟩
  · rintro ⟨front, s, back, hspans, hput, hbehind, hahead⟩
    rw [← total_ofSpan] at hbehind hahead
    refine ⟨front.map Rest.ofSpan, Rest.ofSpan s, back.map Rest.ofSpan, ?_, hput, hbehind, hahead⟩
    rw [hspans, List.map_append, List.map_cons]

variable [Insertion α] [Insertion β]

/-- The walk over two changes of different lengths stalls if the first one ends within a run that
the other replaces, and finds out otherwise that they do not fit; which of them comes first makes no
difference. So lengths are compared in front of the walk, and the change is refused. -/
theorem rebaseSpans_of_misfit (hc : ∀ s ∈ c.spans, s.Marked) (hd : ∀ s ∈ d.spans, s.Marked)
    (hne : c.length ≠ d.length) (before : Bool) :
    (d.CutsRun c.length →
        rebaseSpans before (c.spans.map Rest.ofSpan) false (d.spans.map Rest.ofSpan) [] = .stalled)
      ∧ (¬ d.CutsRun c.length →
        rebaseSpans before (c.spans.map Rest.ofSpan) false (d.spans.map Rest.ofSpan) [] = .mismatch)
      ∧ c.rebase d before = .error (.lengthMismatch d.length c.length) := by
  have hcTotal : Rest.total (c.spans.map Rest.ofSpan) = c.length := total_ofSpan c.spans
  have hdTotal : Rest.total (d.spans.map Rest.ofSpan) = d.length := total_ofSpan d.spans
  have hturns := turns_rebaseSpans before _ false _ [] (markedSecond_of_mem hc) Told.untold
    (markedSecond_of_mem hd)
  have hwalk := hturns.walk_of_ne (by rwa [hcTotal, hdTotal])
  rw [hcTotal] at hwalk
  refine ⟨?_, ?_, ?_⟩
  · intro hcuts
    rw [hwalk, if_pos (endsInRun_ofSpan.mpr hcuts)]
  · intro hcuts
    rw [hwalk, if_neg (mt endsInRun_ofSpan.mp hcuts)]
  · rw [rebase_eq, if_neg hne.symm]

/-- Three characters are kept: the other change removes five, or it keeps four. -/
example :
    let c : Outline := ⟨[⟨3, -1, ()⟩]⟩
    let removal : Outline := ⟨[⟨5, 0, ()⟩]⟩
    let insertion : Outline := ⟨[⟨4, -1, ()⟩, ⟨0, 2, ()⟩]⟩
    rebaseSpans true (c.spans.map Rest.ofSpan) false (removal.spans.map Rest.ofSpan) [] = .stalled
      ∧ rebaseSpans true (c.spans.map Rest.ofSpan) false (insertion.spans.map Rest.ofSpan) []
        = .mismatch := by
  decide +kernel

end Misfits

end Change

end TextRevision
