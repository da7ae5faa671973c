import TextRevision.ChangeSet.Walks
import TextRevision.Proofs.Change.Fitting
import TextRevision.Proofs.ChangeSet.Ledger

/-!
# Walks through two lists

The walks that tell what they find in two lists, and hold every number to its word, end as the walks
through spans do, with the same result, as long as all lengths keep to a bound that signed words
hold. Every state of a walk is within that bound, so that no sum leaves its word, and a span that is
put to the two lists leaves them in step.

## Main definitions

- `Walk.Agree`: two walks with the same end

## Main statements

- `Change.composeRuns_agrees`, `Change.Turns.rebaseRuns_agrees`: from any state
- `Change.composeRuns_start`, `Change.rebaseRuns_start`: from the start
-/

namespace TextRevision

/-- Two walks that end in the same way, and whose results are related. -/
inductive Walk.Agree {β γ : Type} (R : β → γ → Prop) : Walk β → Walk γ → Prop
  | finished {x : β} {y : γ} : R x y → Agree R (.finished x) (.finished y)
  | mismatch : Agree R .mismatch .mismatch
  | stalled : Agree R .stalled .stalled

/-- A walk whose counterpart has a result has one too. -/
theorem Walk.Agree.exists_finished {β γ : Type} {R : β → γ → Prop} {walk : Walk β} {y : γ}
    (h : Walk.Agree R walk (.finished y)) : ∃ x, walk = .finished x ∧ R x y := by
  cases h with
  | finished hxy => exact ⟨_, rfl, hxy⟩

/-- Walks that end with what was found, which is told newest first until then. -/
theorem Walk.Agree.finished_reverse {β γ : Type} {R : β → List γ → Prop} {x : β} {ys : List γ}
    (h : R x ys) : Walk.Agree (fun x ys => R x ys.reverse) (.finished x) (.finished ys.reverse) :=
  .finished (ys.reverse_reverse.symm ▸ h)

theorem Walk.Agree.eq_mismatch {β γ : Type} {R : β → γ → Prop} {walk : Walk β}
    (h : Walk.Agree R walk (.mismatch : Walk γ)) : walk = .mismatch := by
  cases h
  rfl

variable {α β : Type} [Insertion α] {n : Nat}

omit [Insertion α] in
/-- What is still to be inserted of a run is its whole insertion or nothing. -/
theorem Rest.remainder_of_pos {r : Rest α} (h : 0 < r.remainder) : r.remainder = r.count := by
  rw [Rest.remainder] at h ⊢
  split at h
  · cases h
  · next hput =>
    rw [if_neg hput]
    split at h
    · next hpassed => rw [if_pos hpassed]
    · cases h

/-- Numbers within a bound that signed words hold are put to both sides. -/
theorem Ledger.Stands.push_within {R : Ledger α → List (Span α) → Prop} {fine : Int → α → Prop}
    (hR : Ledger.Stands R fine) (hn : n < signBound) {join : Bool} {l : Ledger α}
    {spans : List (Span α)} {s : Span α} (hl : R l spans)
    (hwithin : ∀ t ∈ Span.push join spans s, t.Within n) (hs : fine s.count s.text) :
    ∃ l', l.push? join s = some l' ∧ R l' (Span.push join spans s) :=
  hR.push join hl hs fun t ht => (hwithin t ht).held hn

namespace Change

section Compose

variable {R : Ledger α → List (Span α) → Prop} {fine : Int → α → Prop} {a b : Rest α}
  {as bs : List (Rest α)} {joined : Bool} {spans : List (Span α)} {l : Ledger α} {len : Nat}

/-- What is still to be inserted of a run is fine if its insertion is. -/
theorem fine_remainder (hR : Ledger.Stands R fine) (hfine : fine b.count b.text) :
    fine b.remainder (if 0 < b.remainder then b.text else Insertion.empty) := by
  split
  · next hput => rwa [Rest.remainder_of_pos hput]
  · exact hR.empty _

/-- What is inserted where two spans meet is fine if the insertions of both are. -/
theorem fine_meet (hR : Ledger.Stands R fine) (ha : a.MarkedFirst) (hb : b.MarkedSecond)
    (hpos : 0 < len) (hlen : len ≤ a.newLength) (hfineA : fine a.count a.text)
    (hfineB : fine b.count b.text) :
    fine (meet len a b).count (meet len a b).text := by
  by_cases hkept : a.count < 0
  · rw [Reading.meet_of_kept (ha.eq_keptMark hkept)]
    exact fine_remainder hR hfineB
  · have hput : 0 ≤ a.count := Int.not_lt.mp hkept
    by_cases hbkept : b.count < 0
    · have hsmall := ha.small
      rw [Rest.newLength_of_put hput] at hlen
      rw [Reading.meet_of_put_kept hput (hb.eq_keptMark hbkept), signedWord_of_lt (by omega)]
      exact hR.extract _ _ hfineA (by omega) (Int.natCast_pos.mpr hpos)
    · have hbput : 0 ≤ b.count := Int.not_lt.mp hbkept
      rw [Reading.meet_of_put_put hput hbput, Reading.remainder_of_put hbput]
      dsimp only
      split
      · exact hfineB
      · exact hR.empty _

omit [Insertion α] in
/-- Characters of the old document that are passed leave the insertion of their run. -/
theorem fine_forward (ha : fine a.count a.text) (has : ∀ r ∈ as, fine r.count r.text) :
    ∀ r ∈ Rest.forward len (a :: as), fine r.count r.text := by
  rw [Rest.forward]
  split
  · exact has
  · exact List.forall_mem_cons.mpr ⟨ha, has⟩

/-- Characters of the new document that are passed leave a part of an insertion. -/
theorem fine_forwardNew (hR : Ledger.Stands R fine) (hmarked : a.MarkedFirst)
    (hlen : len ≤ a.newLength) (ha : fine a.count a.text) (has : ∀ r ∈ as, fine r.count r.text) :
    ∀ r ∈ Rest.forwardNew len (a :: as), fine r.count r.text := by
  rw [Rest.forwardNew]
  split
  · exact fine_forward ha has
  · next hkept =>
    have hput : 0 ≤ a.count := by
      by_contra hneg
      exact hkept (hmarked.eq_keptMark (Int.not_le.mp hneg))
    have hsmall := hmarked.small
    rw [Rest.newLength_of_put hput] at hlen
    rw [signedWord_of_lt (by omega)]
    split
    · exact has
    · next hpart =>
      refine List.forall_mem_cons.mpr ⟨?_, has⟩
      exact hR.part ha (by omega) (by dsimp only; omega)

omit [Insertion α] in
/-- A signed word holds what is left of a small count. -/
theorem leavesHeld_of_marked (hmarked : a.MarkedFirst) (hlen : len ≤ a.newLength) :
    leavesHeld len a := by
  by_cases hkept : a.count < 0
  · exact Or.inl (hmarked.eq_keptMark hkept)
  · have hput : 0 ≤ a.count := Int.not_lt.mp hkept
    have hsmall := hmarked.small
    rw [Rest.newLength_of_put hput] at hlen
    refine Or.inr ?_
    rw [signedWord_of_lt (by omega), signed?_of_lt (by omega) (by omega)]
    rfl

/-- A deletion of the first change is put to both sides. -/
theorem composeRuns_deletion (hR : Ledger.Stands R fine) (hn : n < signBound)
    (hv : Composing.Bounded n ⟨a :: as, bs, joined, spans⟩) (hzero : a.count = 0)
    (hl : R l spans) :
    let spans' := Span.push joined spans ⟨a.length, 0, Insertion.empty⟩
    Composing.Bounded n ⟨as, bs, joined, spans'⟩
      ∧ ∃ l', composeRuns (a :: as) bs joined l = composeRuns as bs joined l' ∧ R l' spans' := by
  intro spans'
  have hw := (Composing.Step.deletion hzero).bounded hv
  obtain ⟨l', hl', hstands⟩ := hR.push_within hn hl hw.within.spans (hR.empty 0)
  refine ⟨hw, l', ?_, hstands⟩
  cases bs with
  | nil => rw [composeRuns, if_pos hzero, hl', Walk.onward_some]
  | cons b bs => rw [composeRuns, if_pos hzero, hl', Walk.onward_some]

/-- An insertion of the second change is put to both sides. -/
theorem composeRuns_insertion (hR : Ledger.Stands R fine) (hn : n < signBound)
    (hv : Composing.Bounded n ⟨as, b :: bs, joined, spans⟩)
    (hhead : ∀ a ∈ as.head?, a.count ≠ 0) (hzero : b.length = 0) (hb : fine b.count b.text)
    (hl : R l spans) :
    let spans' := Span.push joined spans ⟨0, b.count, b.text⟩
    Composing.Bounded n ⟨as, bs, joined, spans'⟩
      ∧ ∃ l', composeRuns as (b :: bs) joined l = composeRuns as bs joined l' ∧ R l' spans' := by
  intro spans'
  have hend := (hv.second b List.mem_cons_self).toMarkedSecond.ne_endMark
  have hw := (Composing.Step.insertion hhead hzero).bounded hv
  obtain ⟨l', hl', hstands⟩ := hR.push_within hn hl hw.within.spans hb
  refine ⟨hw, l', ?_, hstands⟩
  cases as with
  | nil => rw [composeRuns, if_neg hend, if_pos hzero, hl', Walk.onward_some]
  | cons a as => rw [composeRuns, if_neg (hhead a rfl), if_pos ⟨hzero, hend⟩, hl', Walk.onward_some]

/-- The walk that puts one change behind another ends as it does through spans. -/
theorem composeRuns_agrees (hR : Ledger.Stands R fine) (hn : n < signBound)
    (hv : Composing.Bounded n ⟨as, bs, joined, spans⟩) (ha : ∀ a ∈ as, fine a.count a.text)
    (hb : ∀ b ∈ bs, fine b.count b.text) :
    ∀ {l : Ledger α}, R l spans →
      Walk.Agree (fun l out => R l out.reverse) (composeRuns as bs joined l)
        (composeSpans as bs joined spans) := by
  fun_induction composeSpans as bs joined spans with
  | case1 joined spans =>
    intro l hl
    rw [composeRuns]
    exact .finished_reverse hl
  | case2 b bs joined spans hend =>
    intro l hl
    rw [composeRuns, if_pos hend]
    exact .finished_reverse hl
  | case3 b bs joined spans hend hzero ih =>
    intro l hl
    obtain ⟨hbhead, hbs⟩ := List.forall_mem_cons.mp hb
    obtain ⟨hw, l', hwalk, hstands⟩ :=
      composeRuns_insertion hR hn hv (by simp) hzero hbhead hl
    rw [hwalk]
    exact ih hw ha hbs hstands
  | case4 b bs joined spans hend hpos =>
    intro l hl
    rw [composeRuns, if_neg hend, if_neg hpos]
    exact .mismatch
  | case5 a as joined spans hzero ih =>
    intro l hl
    obtain ⟨-, has⟩ := List.forall_mem_cons.mp ha
    obtain ⟨hw, l', hwalk, hstands⟩ := composeRuns_deletion hR hn hv hzero hl
    rw [hwalk]
    exact ih hw has hb hstands
  | case6 a as joined spans hzero hend =>
    intro l hl
    rw [composeRuns, if_neg hzero, if_pos hend]
    exact .finished_reverse hl
  | case7 a as joined spans hzero hend =>
    intro l hl
    rw [composeRuns, if_neg hzero, if_neg hend]
    exact .mismatch
  | case8 a as b bs joined spans hzero ih =>
    intro l hl
    obtain ⟨-, has⟩ := List.forall_mem_cons.mp ha
    obtain ⟨hw, l', hwalk, hstands⟩ := composeRuns_deletion hR hn hv hzero hl
    rw [hwalk]
    exact ih hw has hb hstands
  | case9 a as b bs joined spans hzero hfree ih =>
    intro l hl
    obtain ⟨hbhead, hbs⟩ := List.forall_mem_cons.mp hb
    have hhead : ∀ r ∈ (a :: as).head?, r.count ≠ 0 := fun r hr => Option.some.inj hr ▸ hzero
    obtain ⟨hw, l', hwalk, hstands⟩ := composeRuns_insertion hR hn hv hhead hfree.1 hbhead hl
    rw [hwalk]
    exact ih hw ha hbs hstands
  | case10 a as b bs joined spans hzero hfree hends =>
    intro l hl
    rw [composeRuns, if_neg hzero, if_neg hfree, if_pos hends]
    exact .finished_reverse hl
  | case11 a as b bs joined spans hzero hfree hends hend =>
    intro l hl
    rw [composeRuns, if_neg hzero, if_neg hfree, if_neg hends, if_pos hend]
    exact .mismatch
  | case12 a as b bs joined spans hzero hfree hends hend len hstall =>
    intro l hl
    rw [composeRuns, if_neg hzero, if_neg hfree, if_neg hends, if_neg hend]
    exact (if_pos hstall).symm ▸ .stalled
  | case13 a as b bs joined spans hzero hfree hends hend len hstall spans' ih =>
    intro l hl
    obtain ⟨hahead, has⟩ := List.forall_mem_cons.mp ha
    obtain ⟨hbhead, hbs⟩ := List.forall_mem_cons.mp hb
    have hfirst := (hv.first a List.mem_cons_self).toMarkedFirst
    have hsecond := (hv.second b List.mem_cons_self).toMarkedSecond
    have hlengthB : 0 < b.length :=
      Nat.pos_of_ne_zero fun h => hfree ⟨h, hsecond.ne_endMark⟩
    have hlenA : len ≤ a.newLength := Nat.min_le_left _ _
    have hpos : 0 < len := Nat.lt_min.mpr ⟨hfirst.newLength_pos hzero, hlengthB⟩
    have hw := (Composing.Step.meeting hzero hlengthB rfl hpos).bounded hv
    obtain ⟨l', hl', hstands⟩ := hR.push_within hn hl hw.within.spans
      (fine_meet hR hfirst hsecond hpos hlenA hahead hbhead)
    rw [composeRuns, if_neg hzero, if_neg hfree, if_neg hends, if_neg hend]
    dsimp only
    rw [if_neg hstall, hl', Walk.onward_some, if_pos (leavesHeld_of_marked hfirst hlenA),
      hR.length hl, hR.length hstands]
    exact ih hw (fine_forwardNew hR hfirst hlenA hahead has) (fine_forward hbhead hbs) hstands

end Compose

section Rebase

variable {R : Ledger α → List (Span α) → Prop} {fine : Int → α → Prop} {before : Bool}
  {as as' : List (Rest α)} {told told' : Bool} {bs : List (Rest β)} {spans spans' : List (Span α)}
  {len : Nat}

/-- Where the characters do not come that are to be taken off, there is no result, whatever words
hold. -/
theorem absorbRuns_eq_none (h : absorb as told len spans = none) :
    ∀ l : Ledger α, absorbRuns as told len l = none := by
  fun_induction absorb as told len spans with
  | case1 => cases h
  | case2 => exact fun _ => rfl
  | case3 a as told len spans hle ih =>
    intro l
    rw [absorbRuns, if_pos hle, Option.bind_eq_none_iff]
    exact fun l' _ => ih h l'
  | case4 => cases h

/-- Taking off characters tells the same insertions in two lists. -/
theorem absorbRuns_agrees (hR : Ledger.Stands R fine) (hn : n < signBound)
    (h : absorb as told len spans = some (as', told', spans'))
    (hv : Rebasing.Bounded n ⟨as, told, bs, spans, .absorbing len⟩)
    (ha : ∀ a ∈ as, fine a.count a.text) :
    ∀ {l : Ledger α}, R l spans → ∃ l', absorbRuns as told len l = some (as', told', l')
      ∧ R l' spans' ∧ ∀ a ∈ as', fine a.count a.text := by
  fun_induction absorb as told len spans with
  | case1 as told spans =>
    intro l hl
    obtain ⟨rfl, rfl, rfl⟩ : as = as' ∧ told = told' ∧ spans = spans' := by simpa using h
    exact ⟨l, by rw [absorbRuns], hl, ha⟩
  | case2 => cases h
  | case3 a as told len spans hle ih =>
    intro l hl
    obtain ⟨hahead, has⟩ := List.forall_mem_cons.mp ha
    have hstep : Rebasing.Step false ⟨a :: as, told, bs, spans, .absorbing (len + 1)⟩ _ :=
      .absorbAll (Nat.succ_pos len) hle
    have hw := hstep.bounded hv
    rw [absorbRuns, if_pos hle]
    by_cases hputs : 0 ≤ a.count ∧ (!told) = true
    · rw [if_pos hputs] at h hw ih ⊢
      obtain ⟨l', hl', hstands⟩ := hR.push_within hn hl hw.within.spans hahead
      rw [hl', Option.bind_some]
      exact ih h hw has hstands
    · rw [if_neg hputs] at h hw ih ⊢
      rw [Option.bind_some]
      exact ih h hw has hl
  | case4 a as told len spans hlt =>
    intro l hl
    obtain ⟨hahead, has⟩ := List.forall_mem_cons.mp ha
    obtain ⟨rfl, rfl, rfl⟩ :
        Rest.forward (len + 1) (a :: as) = as' ∧ told = told' ∧ spans = spans' := by
      simpa using h
    exact ⟨l, by rw [absorbRuns, if_neg hlt], hl, fine_forward hahead has⟩

/-- What is told of a replaced run is fine if its insertion is. -/
theorem fine_replaced (hR : Ledger.Stands R fine) {a : Rest α} (told : Bool) (kept : Nat)
    (ha : fine a.count a.text) :
    fine (Rebasing.replaced told kept a).count (Rebasing.replaced told kept a).text := by
  cases told with
  | true => exact hR.empty 0
  | false => exact ha

/-- The walk that rebases one change over another ends as its turns do. -/
theorem Turns.rebaseRuns_agrees {walk : Walk (List (Span α))}
    (h : Turns before as told bs spans walk) (hR : Ledger.Stands R fine) (hn : n < signBound)
    (hv : Rebasing.Bounded n ⟨as, told, bs, spans, .between⟩)
    (ha : ∀ a ∈ as, fine a.count a.text) :
    ∀ {l : Ledger α}, R l spans →
      Walk.Agree (fun l out => R l out.reverse) (rebaseRuns before as told bs l) walk := by
  have hreaches : ∀ {v w : Rebasing α β}, v.Bounded n → Rebasing.Reaches before v w →
      w.Bounded n := fun hv h => Rebasing.bounded_of_reaches h hv
  induction h with
  | done =>
    intro l hl
    rw [rebaseRuns]
    exact .finished_reverse hl
  | short hpos =>
    intro l hl
    rw [rebaseRuns, if_pos hpos]
    exact .mismatch
  | long hpos =>
    intro l hl
    rw [rebaseRuns, if_pos hpos]
    exact .mismatch
  | @stalls a as told b bs spans hpos hput hyields habsorb =>
    intro l hl
    have hw := hreaches hv (.single (.yields hput hyields))
    obtain ⟨l', hl', -⟩ := hR.push_within hn hl hw.within.spans (hR.empty _)
    rw [rebaseRuns_of_yields (hv.first a List.mem_cons_self).mark
      (hv.second b List.mem_cons_self).mark ⟨hput, hyields⟩ hl', absorbRuns_eq_none habsorb]
    exact .stalled
  | keepLast hzero hput _ ih =>
    intro l hl
    have hw := hreaches hv (.single (.keepLast hzero hput))
    obtain ⟨l', hl', hstands⟩ := hR.push_within hn hl hw.within.spans (hR.empty _)
    rw [rebaseRuns, if_neg (Nat.not_lt.mpr (Nat.le_of_eq hzero)), if_pos hput, hl',
      Walk.onward_some]
    exact ih hw ha hstands
  | putLast hzero hput _ ih =>
    intro l hl
    obtain ⟨hahead, has⟩ := List.forall_mem_cons.mp ha
    have hw := hreaches hv (.single (.putLast hzero hput))
    obtain ⟨l', hl', hstands⟩ := hR.push_within hn hl hw.within.spans hahead
    rw [rebaseRuns, if_neg (Nat.not_lt.mpr (Nat.le_of_eq hzero)), if_pos hput,
      if_neg Bool.false_ne_true, hl', Walk.onward_some]
    exact ih hw has hstands
  | keep hkept hbkept hlen _ ih =>
    intro l hl
    obtain ⟨hahead, has⟩ := List.forall_mem_cons.mp ha
    have hw := hreaches hv (Rebasing.keep_steps hkept hbkept hlen)
    obtain ⟨l', hl', hstands⟩ := hR.push_within hn hl hw.within.spans (hR.empty _)
    rw [rebaseRuns_of_kept hkept hbkept hlen hl']
    exact ih hw (fine_forward hahead has) hstands
  | @yields a as as' told told' b bs spans spans' walk hput hyields habsorb _ ih =>
    intro l hl
    have hw := hreaches hv (.single (.yields hput hyields))
    obtain ⟨l', hl', hstands⟩ := hR.push_within hn hl hw.within.spans (hR.empty _)
    obtain ⟨l'', habsorbed, hstands', hfine⟩ := absorbRuns_agrees hR hn habsorb hw ha hstands
    rw [rebaseRuns_of_yields (hv.first a List.mem_cons_self).mark
      (hv.second b List.mem_cons_self).mark ⟨hput, hyields⟩ hl', habsorbed]
    exact ih (hreaches hw (Rebasing.absorb_steps bs habsorb)) hfine hstands'
  | @passes a as told b bs spans walk met hyields hput hmet hleft _ ih =>
    intro l hl
    obtain ⟨hahead, has⟩ := List.forall_mem_cons.mp ha
    have hw := hreaches hv (Rebasing.passes_steps hyields hput hmet hleft)
    obtain ⟨l', hl', hstands⟩ :=
      hR.push_within hn hl hw.within.spans (fine_replaced hR told _ hahead)
    rw [rebaseRuns_of_replaces (hv.first a List.mem_cons_self).mark
      (hv.second b List.mem_cons_self).mark hyields hput hmet hl', if_pos hleft]
    exact ih hw has hstands
  | @stops a as told b bs spans walk met hyields hput hmet hpos _ ih =>
    intro l hl
    obtain ⟨hahead, has⟩ := List.forall_mem_cons.mp ha
    have hbmark := (hv.second b List.mem_cons_self).mark
    have hstall := not_stalled hbmark hyields (hmet.symm ▸ hpos)
    rw [hmet] at hstall
    have hw := hreaches hv (Rebasing.stops_steps hyields hput hmet hpos)
    obtain ⟨l', hl', hstands⟩ :=
      hR.push_within hn hl hw.within.spans (fine_replaced hR told _ hahead)
    rw [rebaseRuns_of_replaces (hv.first a List.mem_cons_self).mark hbmark hyields hput hmet hl',
      if_neg (Nat.ne_of_gt hpos), if_neg hstall]
    exact ih hw (fine_forward hahead has) hstands

end Rebase

section Start

variable {R : Ledger α → List (Span α) → Prop} {fine : Int → α → Prop} {c d : Change α}
  {e : Change β}

omit [Insertion α] in
/-- What is left of spans at the start of a walk has their insertions. -/
theorem fine_ofSpan (hc : ∀ s ∈ c.spans, fine s.count s.text) :
    ∀ r ∈ c.spans.map Rest.ofSpan, fine r.count r.text := by
  intro r hr
  obtain ⟨s, hs, rfl⟩ := List.mem_map.mp hr
  exact hc s hs

/-- The walk that puts one change behind another, from its start. -/
theorem composeRuns_start (hR : Ledger.Stands R fine) (hblank : R .blank [])
    (hc : ∀ s ∈ c.spans, s.Marked) (hd : ∀ s ∈ d.spans, s.Marked)
    (hcwithin : c.Within (· ≤ lengthLimit)) (hdwithin : d.Within (· ≤ lengthLimit))
    (hcfine : ∀ s ∈ c.spans, fine s.count s.text) (hdfine : ∀ s ∈ d.spans, fine s.count s.text) :
    Walk.Agree (fun l out => R l out.reverse)
      (composeRuns (c.spans.map Rest.ofSpan) (d.spans.map Rest.ofSpan) false .blank)
      (composeSpans (c.spans.map Rest.ofSpan) (d.spans.map Rest.ofSpan) false []) := by
  have hsmall : lengthLimit < signBound := lt_signBound (Nat.le_refl _)
  exact composeRuns_agrees hR hsmall (Composing.bounded_start hc hd hsmall hcwithin.1 hcwithin.2
    hdwithin.1 hdwithin.2) (fine_ofSpan hcfine) (fine_ofSpan hdfine) hblank

/-- The walk that rebases one change over another, from its start. -/
theorem rebaseRuns_start [Insertion β] (hR : Ledger.Stands R fine) (hblank : R .blank [])
    (hc : ∀ s ∈ c.spans, s.Marked) (he : ∀ s ∈ e.spans, s.Marked)
    (hcwithin : c.Within (· ≤ lengthLimit)) (hewithin : e.Within (· ≤ lengthLimit))
    (hcfine : ∀ s ∈ c.spans, fine s.count s.text) (before : Bool) :
    Walk.Agree (fun l out => R l out.reverse)
      (rebaseRuns before (c.spans.map Rest.ofSpan) false (e.spans.map Rest.ofSpan) .blank)
      (rebaseSpans before (c.spans.map Rest.ofSpan) false (e.spans.map Rest.ofSpan) []) := by
  have hsmall : lengthLimit < signBound := lt_signBound (Nat.le_refl _)
  have hturns := turns_rebaseSpans before (c.spans.map Rest.ofSpan) false
    (e.spans.map Rest.ofSpan) [] (markedSecond_of_mem hc) Reading.Told.untold
    (markedSecond_of_mem he)
  exact hturns.rebaseRuns_agrees hR hsmall (Rebasing.bounded_start hcwithin.1
    (c.volume_le_newLength.trans hcwithin.2) hewithin.1 hewithin.2 hc he) (fine_ofSpan hcfine)
    hblank

end Start

end Change

end TextRevision
