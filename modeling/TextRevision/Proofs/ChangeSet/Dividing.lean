import TextRevision.ChangeSet.Divide
import TextRevision.Proofs.ChangeSet.Operations

/-!
# Dividing change sets and revisions

A change set is divided step by step as its revision is. Each step puts one piece to either part,
and what the walk has still to pass stays within the limit of written changes together with what it
has put to each part, so that no number leaves its word. That limit is far below the place up to
which the walk goes at its end, so that nothing is left there.

## Main definitions

- `ChangeSet.Divider.Follows`: a walk through a change set beside the walk through its revision

## Main statements

- `ChangeSet.divide_ofRevision`
-/

namespace TextRevision

/-- With a place behind all characters, a walk puts everything into the outer part. -/
theorem Change.leaveOutside_of_lt {α : Type} [Insertion α] {stop : Nat} {rs : List (Rest α)}
    (hmarked : ∀ r ∈ rs, r.count ≠ Span.endMark) (w : Change.Divider α)
    (hstop : w.pos + Rest.total rs < stop) :
    leaveOutside stop rs w
      = { rs.foldl (fun w r => w.putOutside r.length r) w with spans := [] } := by
  induction rs generalizing w with
  | nil => rfl
  | cons r rs ih =>
    obtain ⟨hr, hrs⟩ := List.forall_mem_cons.mp hmarked
    rw [Reading.total_cons] at hstop
    have hlen : min r.length (stop - w.pos) = r.length := Nat.min_eq_left (by omega)
    rw [leaveOutside, if_pos (Or.inl (by omega)), if_neg hr]
    dsimp only
    rw [hlen, if_pos rfl, ih hrs _ (by rw [Divider.putOutside]; dsimp only; omega), List.foldl_cons]

namespace ChangeSet

open TextRevision.Ledger (Tells Fine Stocked)

/-- The number of characters that are still to be inserted. -/
def left (rs : List (Rest Rope)) : Nat :=
  sumBy (fun r => r.remainder.toNat) rs

/-- A walk through a change set beside the walk through its revision: what is left of the spans is
marked and has fine insertions, and the two parts are told in lists. What is left and what was put
to a part come to no more than `n` characters. -/
structure Divider.Follows (n : Nat) (rs : List (Rest Rope)) (w : Divider)
    (v : Change.Divider Rope) : Prop where
  marked : ∀ r ∈ rs, r.MarkedSecond
  fine : ∀ r ∈ rs, Fine r.count r.text
  pos : w.pos = v.pos
  length : v.pos + Rest.total rs ≤ n
  volume : left rs ≤ n
  outside : w.outside.Stocked Tells v.pos (n - left rs) v.outside
  inside : w.inside.Stocked (fun l spans => l.runs = spans.map Span.shape) v.pos (n - left rs)
    v.inside

variable {n len : Nat} {r : Rest Rope} {rs : List (Rest Rope)} {w : Divider}
  {v : Change.Divider Rope}

/-- What is inserted goes with the first characters that are passed. -/
theorem left_forward (rs : List (Rest Rope)) (hpart : len = r.length ∨ 0 < len) :
    left (Rest.forward len (r :: rs)) + r.remainder.toNat = left (r :: rs) := by
  rcases hpart with hall | hpos
  · rw [Rest.forward, if_pos hall, left, left, sumBy_cons, Nat.add_comm]
  · exact Rest.remainder_forward r rs hpos

namespace Divider

/-- A piece is put into the outer part. -/
theorem Follows.putOutside? (h : w.Follows n (r :: rs) v) (len : Nat) (hn : n ≤ lengthLimit)
    (hlen : len ≤ r.length) (hpart : len = r.length ∨ 0 < len) :
    ∃ w', w.putOutside? len r = some w'
      ∧ w'.Follows n (Rest.forward len (r :: rs)) (v.putOutside len r) := by
  obtain ⟨hmarked, hrs⟩ := List.forall_mem_cons.mp h.marked
  obtain ⟨hfine, hrsFine⟩ := List.forall_mem_cons.mp h.fine
  have hleft := left_forward rs hpart
  have htotal := Rest.total_forward rs hlen
  have hlength := h.length
  have hvolume := h.volume
  obtain ⟨inside, hinside, hinsideStocked⟩ := h.inside.push? Ledger.stands_runs false
    (.keep len) trivial (Int.le_refl _) (by dsimp only [Span.keep]; omega)
    (by show _ + 0 ≤ _; omega)
  obtain ⟨outside, houtside, houtsideStocked⟩ := h.outside.push? Ledger.stands_ofSpans false
    ⟨len, r.remainder, if 0 < r.remainder then r.text else Insertion.empty⟩
    (Change.fine_remainder Ledger.stands_ofSpans hfine)
    (Rest.keptMark_le_remainder hmarked.mark) (by dsimp only; omega)
    (by dsimp only [Span.volume]; omega)
  refine ⟨{ w with outside := outside, inside := inside, pos := w.pos + len }, ?_, ?_⟩
  · rw [Divider.putOutside?, hinside, houtside]
    rfl
  · refine ⟨hmarked.forward hrs hlen, Change.fine_forward hfine hrsFine, ?_, ?_, by omega, ?_, ?_⟩
    · rw [Change.Divider.putOutside, h.pos]
    · rw [Change.Divider.putOutside]
      dsimp only
      omega
    · exact houtsideStocked.mono (by dsimp only [Span.volume]; omega)
    · exact hinsideStocked.mono (by show _ + 0 ≤ _; omega)

/-- A piece is put into the inner part. -/
theorem Follows.putInside? (h : w.Follows n (r :: rs) v) (len : Nat) (hn : n ≤ lengthLimit)
    (hlen : len ≤ r.length) (hpart : len = r.length ∨ 0 < len) :
    ∃ w', w.putInside? len r = some w'
      ∧ w'.Follows n (Rest.forward len (r :: rs)) (v.putInside len r) := by
  obtain ⟨hmarked, hrs⟩ := List.forall_mem_cons.mp h.marked
  obtain ⟨hfine, hrsFine⟩ := List.forall_mem_cons.mp h.fine
  have hleft := left_forward rs hpart
  have htotal := Rest.total_forward rs hlen
  have hlength := h.length
  have hvolume := h.volume
  obtain ⟨outside, houtside, houtsideStocked⟩ := h.outside.push? Ledger.stands_ofSpans false
    (.keep len) (Ledger.fine_empty _) (Int.le_refl _) (by dsimp only [Span.keep]; omega)
    (by show _ + 0 ≤ _; omega)
  obtain ⟨inside, hinside, hinsideStocked⟩ := h.inside.push? Ledger.stands_runs false
    ⟨len, r.remainder, ()⟩ trivial
    (Rest.keptMark_le_remainder hmarked.mark) (by dsimp only; omega)
    (by dsimp only [Span.volume]; omega)
  refine ⟨{ w with outside := outside, inside := inside, pos := w.pos + len }, ?_, ?_⟩
  · rw [Divider.putInside?, houtside, hinside]
    rfl
  · refine ⟨hmarked.forward hrs hlen, Change.fine_forward hfine hrsFine, ?_, ?_, by omega, ?_, ?_⟩
    · rw [Change.Divider.putInside, h.pos]
    · rw [Change.Divider.putInside]
      dsimp only
      omega
    · exact houtsideStocked.mono (by show _ + 0 ≤ _; omega)
    · exact hinsideStocked.mono (by dsimp only [Span.volume]; omega)

/-- The walk up to a place, everything put into the outer part. -/
theorem Follows.leaveOutside? (stop : Nat) (hn : n ≤ lengthLimit) (h : w.Follows n rs v) :
    ∃ w', ChangeSet.leaveOutside? stop rs w = some w'
      ∧ w'.spans = (Change.leaveOutside stop rs v).spans
      ∧ w'.Follows n w'.spans (Change.leaveOutside stop rs v) := by
  induction rs generalizing w v with
  | nil =>
    exact ⟨_, rfl, rfl, h.marked, h.fine, h.pos, h.length, h.volume, h.outside, h.inside⟩
  | cons r rs ih =>
    have hmark := (h.marked r List.mem_cons_self).ne_endMark
    rw [ChangeSet.leaveOutside?, Change.leaveOutside, h.pos]
    by_cases hstop : v.pos < stop ∨ (v.pos = stop ∧ r.length = 0)
    · rw [if_pos hstop, if_pos hstop, if_neg hmark, if_neg hmark]
      dsimp only
      obtain ⟨w', hw', hfollows⟩ := h.putOutside? (min r.length (stop - v.pos)) hn
        (Nat.min_le_left _ _) (by omega)
      rw [hw', Option.bind_some]
      by_cases hall : min r.length (stop - v.pos) = r.length
      · rw [if_pos hall, if_pos hall]
        rw [Rest.forward, if_pos hall] at hfollows
        exact ih hfollows
      · rw [if_neg hall, if_neg hall]
        exact ⟨_, rfl, rfl, hfollows.marked, hfollows.fine, hfollows.pos, hfollows.length,
          hfollows.volume, hfollows.outside, hfollows.inside⟩
    · rw [if_neg hstop, if_neg hstop]
      exact ⟨_, rfl, rfl, h.marked, h.fine, rfl, h.length, h.volume, h.outside, h.inside⟩

/-- The walk up to a place, everything put into the inner part. -/
theorem Follows.takeInside? (stop : Nat) (hn : n ≤ lengthLimit) (h : w.Follows n rs v) :
    ∃ w', ChangeSet.takeInside? stop rs w = some w'
      ∧ w'.spans = (Change.takeInside stop rs v).spans
      ∧ w'.Follows n w'.spans (Change.takeInside stop rs v) := by
  induction rs generalizing w v with
  | nil =>
    exact ⟨_, rfl, rfl, h.marked, h.fine, h.pos, h.length, h.volume, h.outside, h.inside⟩
  | cons r rs ih =>
    have hmark := (h.marked r List.mem_cons_self).ne_endMark
    rw [ChangeSet.takeInside?, Change.takeInside, h.pos]
    by_cases hstop : v.pos < stop
    · rw [if_pos hstop, if_pos hstop, if_neg hmark, if_neg hmark]
      dsimp only
      obtain ⟨w', hw', hfollows⟩ := h.putInside? (min r.length (stop - v.pos)) hn
        (Nat.min_le_left _ _) (by omega)
      rw [hw', Option.bind_some]
      by_cases hall : min r.length (stop - v.pos) = r.length
      · rw [if_pos hall, if_pos hall]
        rw [Rest.forward, if_pos hall] at hfollows
        exact ih hfollows
      · rw [if_neg hall, if_neg hall]
        exact ⟨_, rfl, rfl, hfollows.marked, hfollows.fine, hfollows.pos, hfollows.length,
          hfollows.volume, hfollows.outside, hfollows.inside⟩
    · rw [if_neg hstop, if_neg hstop]
      exact ⟨_, rfl, rfl, h.marked, h.fine, rfl, h.length, h.volume, h.outside, h.inside⟩

/-- The walk through ranges. -/
theorem Follows.passRanges (ranges : List (Nat × Nat)) (hn : n ≤ lengthLimit)
    (hspans : w.spans = v.spans) (h : w.Follows n w.spans v) :
    ∃ w', ranges.foldlM passRange? w = some w'
      ∧ w'.spans = (ranges.foldl Change.Divider.passRange v).spans
      ∧ w'.Follows n w'.spans (ranges.foldl Change.Divider.passRange v) := by
  induction ranges generalizing w v with
  | nil => exact ⟨w, rfl, hspans, h⟩
  | cons range ranges ih =>
    obtain ⟨left, hleft, hleftSpans, hleftFollows⟩ := h.leaveOutside? range.1 hn
    obtain ⟨taken, htaken, htakenSpans, htakenFollows⟩ := hleftFollows.takeInside? range.2 hn
    have hpass : w.passRange? range = some taken := by
      rw [passRange?, hleft]
      exact htaken
    rw [List.foldlM_cons, hpass, List.foldl_cons, Change.Divider.passRange, ← hspans, ← hleftSpans]
    exact ih htakenSpans htakenFollows

/-- The walk to the end. -/
theorem Follows.finish? (hn : n ≤ lengthLimit) (hspans : w.spans = v.spans)
    (h : w.Follows n w.spans v) :
    ∃ w', w.finish? = some w' ∧ w'.outside.Tells v.finish.outside
      ∧ w'.inside.runs = v.finish.inside.map Span.shape := by
  have hmark : ∀ r ∈ w.spans, r.count ≠ Span.endMark := fun r hr => (h.marked r hr).ne_endMark
  have hlength := h.length
  have hlimit : lengthLimit < wordCount - 1 := by decide
  obtain ⟨w', hw', hspans', hfollows⟩ := h.leaveOutside? (wordCount - 1) hn
  rw [Change.leaveOutside_of_lt hmark v (by omega)] at hspans' hfollows
  have hall : v.spans.takeWhile (fun r => r.count != Span.endMark) = w.spans := by
    rw [← hspans, List.takeWhile_eq_self_iff]
    intro r hr
    simpa using hmark r hr
  refine ⟨w', ?_, ?_, ?_⟩
  · rw [Divider.finish?, hw']
    simp [hspans']
  · rw [Change.Divider.finish, hall]
    exact hfollows.outside.stands
  · rw [Change.Divider.finish, hall]
    exact hfollows.inside.stands

end Divider

/-- Within the limit of written changes, a change set is divided as its revision is. -/
theorem divide_ofRevision {c : Revision} (hc : ∀ s ∈ c.spans, Rope.reading.Sound s)
    (hwithin : c.Within (· ≤ lengthLimit)) (ranges : List (Nat × Nat)) :
    (ofRevision c).divide ranges
      = some (ofRevision (c.divide ranges).outside, (c.divide ranges).inside) := by
  have hleft : left (c.spans.map Rest.ofSpan) = c.volume := Reading.sumBy_remainder c.spans
  have hvolume : c.volume ≤ lengthLimit := c.volume_le_newLength.trans hwithin.2
  let start : Divider := ⟨c.spans.map Rest.ofSpan, 0, .blank, .blank⟩
  have hstart : start.Follows lengthLimit start.spans ⟨c.spans.map Rest.ofSpan, 0, [], []⟩ := by
    refine ⟨Change.markedSecond_of_mem fun s hs => (hc s hs).marked, Change.fine_ofSpan
      fun s hs => Ledger.fine_of_fit (hc s hs).toFit, rfl, ?_, hleft ▸ hvolume, ?_, ?_⟩
    · rw [Nat.zero_add, Change.total_ofSpan]
      exact hwithin.1
    · exact (Ledger.stocked_blank tells_blank).mono (Nat.zero_le _)
    · exact (Ledger.stocked_blank rfl).mono (Nat.zero_le _)
  obtain ⟨w, hw, hspans, hfollows⟩ := hstart.passRanges ranges (Nat.le_refl _) rfl
  obtain ⟨w', hw', houtside, hinside⟩ := hfollows.finish? (Nat.le_refl _) hspans
  rw [← List.reverse_reverse (Change.Divider.finish _).outside] at houtside
  have hinner : w'.inside.runs.reverse = (c.divide ranges).inside.spans := by
    rw [hinside, show ∀ spans : List (Span Unit), spans.map Span.shape = spans from List.map_id]
    rfl
  rw [divide, revision_ofRevision (obeys_of_sound hc), hw, Option.bind_eq_bind, Option.bind_some,
    hw', Option.bind_some, ofLedger_eq houtside, hinner]
  rfl

end ChangeSet

end TextRevision
