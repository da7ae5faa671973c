import TextRevision.Proofs.Change.Words

/-!
# Changes that fit together

Whether a walk over two changes finds a result is told by their lengths. Putting one change behind
another, it always comes to an end: with a result if the first makes as many characters as the
second has, and otherwise where one of them has characters left and the other has not. Rebasing one
over another of the same length, it finds a result, whichever comes first. In both it takes steps to
its end.

## Main statements

- `Change.composeSpans_eq_mismatch`: changes that do not fit
- `Change.composeSpans_of_fits`, `Change.rebaseSpans_of_fits`: changes that do
-/

namespace TextRevision

namespace Change

variable {α β : Type} [Insertion α] [Insertion β]

omit [Insertion β] in
/-- The walk over changes that do not meet in one document finds that out. -/
theorem composeSpans_eq_mismatch (as bs : List (Rest α)) (joined : Bool) (spans : List (Span α))
    (ha : ∀ a ∈ as, a.MarkedFirst) (hb : ∀ b ∈ bs, b.MarkedSecond)
    (hne : sumBy Rest.newLength as ≠ Rest.total bs) :
    composeSpans as bs joined spans = .mismatch := by
  -- A move takes as many characters of the second document off the one change as off the other.
  fun_induction composeSpans as bs joined spans with
  | case1 joined spans => exact absurd rfl hne
  | case2 b bs joined spans hmark => exact absurd hmark (hb b List.mem_cons_self).ne_endMark
  | case3 b bs joined spans _ hzero ih =>
    rw [Reading.total_cons, hzero, Nat.zero_add] at hne
    exact ih ha (fun t ht => hb t (List.mem_cons_of_mem _ ht)) hne
  | case4 b bs joined spans _ hpos => rfl
  | case5 a as joined spans hzero ih =>
    rw [sumBy_cons, Reading.newLength_deletion hzero, Nat.zero_add] at hne
    exact ih (fun t ht => ha t (List.mem_cons_of_mem _ ht)) hb hne
  | case6 a as joined spans _ hmark => exact absurd hmark (ha a List.mem_cons_self).ne_endMark
  | case7 a as joined spans _ _ => rfl
  | case8 a as b bs joined spans hzero ih =>
    rw [sumBy_cons, Reading.newLength_deletion hzero, Nat.zero_add] at hne
    exact ih (fun t ht => ha t (List.mem_cons_of_mem _ ht)) hb hne
  | case9 a as b bs joined spans _ hzero ih =>
    rw [Reading.total_cons, hzero.1, Nat.zero_add] at hne
    exact ih ha (fun t ht => hb t (List.mem_cons_of_mem _ ht)) hne
  | case10 a as b bs joined spans _ _ hmark =>
    exact absurd hmark.1 (ha a List.mem_cons_self).ne_endMark
  | case11 a as b bs joined spans _ _ _ _ => rfl
  | case12 a as b bs joined spans hcount hlength _ _ len hstall =>
    have hnew := (ha a List.mem_cons_self).newLength_pos hcount
    have hlength' : b.length ≠ 0 := fun h => hlength ⟨h, (hb b List.mem_cons_self).ne_endMark⟩
    omega
  | case13 a as b bs joined spans hcount hlength _ _ len hstall spans' ih =>
    obtain ⟨hahead, has⟩ := List.forall_mem_cons.mp ha
    obtain ⟨hbhead, hbs⟩ := List.forall_mem_cons.mp hb
    have hnew := hahead.newLength_pos hcount
    have hlength' : b.length ≠ 0 := fun h => hlength ⟨h, hbhead.ne_endMark⟩
    have hpos : 0 < len := by omega
    have hlen : len ≤ b.length := Nat.min_le_right _ _
    obtain ⟨has', hasNew, -⟩ := hahead.forwardNew has hpos (Nat.min_le_left _ _)
    have hbsTotal := Rest.total_forward bs hlen
    exact ih has' (hbhead.forward hbs hlen) (by omega)

section Fitting

variable {c d : Change α} {e : Change β}

omit [Insertion β] in
/-- Changes that meet in one document are put behind each other by steps to the end of the walk. -/
theorem composeSpans_of_fits (hc : ∀ s ∈ c.spans, s.Marked) (hd : ∀ s ∈ d.spans, s.Marked)
    (hsmall : ∀ s ∈ c.spans, s.count < signBound) (hfits : c.newLength = d.length) :
    ∃ out last,
      composeSpans (c.spans.map Rest.ofSpan) (d.spans.map Rest.ofSpan) false [] = .finished out
        ∧ Composing.Reaches (Composing.start c d) ⟨[], [], last, out.reverse⟩ := by
  obtain ⟨out, hout, hmoves⟩ := exists_moves _ _ false [] (markedFirst_of_mem hc hsmall)
    (markedSecond_of_mem hd) (rests_fit_iff.mpr hfits)
  obtain ⟨last, hsteps⟩ := hmoves.steps
  exact ⟨out, last, hout, hsteps⟩

omit [Insertion β] in
/-- A change is rebased over another of the same length by steps to the end of the walk. -/
theorem rebaseSpans_of_fits (hc : ∀ s ∈ c.spans, s.Marked) (he : ∀ s ∈ e.spans, s.Marked)
    (hfits : e.length = c.length) (before : Bool) :
    ∃ out last, rebaseSpans before (c.spans.map Rest.ofSpan) false (e.spans.map Rest.ofSpan) []
        = .finished out
      ∧ Rebasing.Reaches before (Rebasing.start c e) ⟨[], last, [], out.reverse, .between⟩ := by
  have htotal : Rest.total (c.spans.map Rest.ofSpan) = Rest.total (e.spans.map Rest.ofSpan) := by
    rw [total_ofSpan, total_ofSpan]
    exact hfits.symm
  obtain ⟨out, hout, hturns⟩ := exists_turns before _ false _ [] (markedSecond_of_mem hc)
    Reading.Told.untold (markedSecond_of_mem he) htotal
  obtain ⟨last, hsteps⟩ := Rebasing.exists_steps hturns rfl
  exact ⟨out, last, hout, hsteps⟩

end Fitting

end Change

end TextRevision
