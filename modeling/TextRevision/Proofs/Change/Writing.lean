import TextRevision.Change.Divide
import TextRevision.Proofs.Change.Outcome
import TextRevision.Proofs.Change.Pushing

/-!
# What the operations write

Apart from composition, every operation finds its spans by putting one behind the other, none of
them joined in any case. A property that this keeps is therefore true of what they find. Rebasing
writes only kept runs and replaced ones, whatever marks the other change has; reading and dividing
write what they are given.

## Main definitions

- `Span.Stable`: a property that a span put behind others keeps

## Main statements

- `Span.stable_normal`
- `Change.collect_stable`, `Change.rebase_stable`, `Change.divide_stable`
-/

namespace TextRevision

variable {α β : Type} [Insertion α]

namespace Span

/-- A property of spans, told newest first, that every span put behind them keeps. -/
def Stable (P : List (Span α) → Prop) : Prop :=
  ∀ ⦃spans s⦄, keptMark ≤ s.count → P spans → P (push false spans s)

theorem Stable.keep {P : List (Span α) → Prop} (hP : Stable P) {spans : List (Span α)}
    (h : P spans) (n : Nat) : P (push false spans (keep n)) :=
  hP (Int.le_refl _) h

/-- Spans that are marked and of which no two neighbours are runs of one kind. -/
structure Normal (spans : List (Span α)) : Prop where
  marked : ∀ s ∈ spans, s.Marked
  separate : Separate spans

theorem stable_normal : Stable (Normal (α := α)) := by
  intro spans s hs h
  have hpushing := pushing false spans s
  exact ⟨hpushing.marked h.marked hs,
    hpushing.separate h.separate h.marked hs fun hjoin => by cases hjoin⟩

omit [Insertion α] in
theorem Normal.reverse {spans : List (Span α)} (h : Normal spans) : Normal spans.reverse :=
  ⟨fun s hs => h.marked s (List.mem_reverse.mp hs), h.separate.reverse⟩

omit [Insertion α] in
theorem normal_nil : Normal ([] : List (Span α)) :=
  ⟨by simp, List.isChain_nil⟩

end Span

omit [Insertion α] in
theorem Rest.keptMark_le_remainder {r : Rest α} (h : Span.keptMark ≤ r.count) :
    Span.keptMark ≤ r.remainder := by
  rw [remainder]
  split
  · exact Int.le_refl _
  · split
    · exact h
    · decide

namespace Change

variable {P : List (Span α) → Prop}

section Collect

/-- Reading a change puts its parts behind each other. -/
theorem collect_stable (hP : Span.Stable P) {parts spans spans' : List (Span α)} {totals : Totals}
    (hparts : ∀ s ∈ parts, Span.keptMark ≤ s.count) (hspans : P spans)
    (h : collect? parts totals spans = some spans') : P spans' := by
  induction parts generalizing totals spans with
  | nil => exact Option.some.inj h ▸ hspans
  | cons s parts ih =>
    obtain ⟨hs, hparts⟩ := List.forall_mem_cons.mp hparts
    rw [collect?] at h
    split at h
    · exact ih hparts (hP hs hspans) h
    · cases h

end Collect

section Rebase

variable {before : Bool}

theorem absorb_stable (hP : Span.Stable P) {as as' : List (Rest α)} {told told' : Bool} {len : Nat}
    {spans spans' : List (Span α)} (hspans : P spans)
    (h : absorb as told len spans = some (as', told', spans')) : P spans' := by
  fun_induction absorb as told len spans with
  | case1 as told spans =>
    obtain ⟨-, -, rfl⟩ : as = as' ∧ told = told' ∧ spans = spans' := by simpa using h
    exact hspans
  | case2 => cases h
  | case3 a as told len spans hle ih =>
    refine ih ?_ h
    split
    · next hput => exact hP (Span.keptMark_le hput.1) hspans
    · exact hspans
  | case4 a as told len spans hlt =>
    obtain ⟨-, -, rfl⟩ : _ ∧ told = told' ∧ spans = spans' := by simpa using h
    exact hspans

/-- The walk that rebases a change writes kept runs and the replaced runs of the change. -/
theorem rebaseSpans_stable (hP : Span.Stable P) {as : List (Rest α)} {told : Bool}
    {bs : List (Rest β)}
    {spans out : List (Span α)} (hspans : P spans)
    (h : rebaseSpans before as told bs spans = .finished out) : P out.reverse := by
  have hnothing : Span.keptMark ≤ 0 := by decide
  fun_induction rebaseSpans before as told bs spans with
  | case1 | case4 | case8 | case18 =>
    obtain rfl := Walk.finished.inj h
    rwa [List.reverse_reverse]
  | case2 | case5 | case6 | case9 | case10 | case14 | case16 | case19 => cases h
  | case3 told b bs spans hpos hput ih => exact ih (hP.keep hspans _) h
  | case7 a as told spans hpos hput ih =>
    refine ih ?_ h
    split
    · exact hspans
    · exact hP (Span.keptMark_le hput) hspans
  | case11 a as told b bs spans hend hkept spans' hle ih => exact ih (hP.keep hspans _) h
  | case12 a as told b bs spans hend hkept spans' hlt ih => exact ih (hP.keep hspans _) h
  | case13 a as told b bs spans hend hkept hyields as' told' spans' habsorb ih =>
    exact ih (absorb_stable hP (hP.keep hspans _) habsorb) h
  | case15 a as told b bs spans hend hkept hyields hput met spans' hleft ih =>
    refine ih (hP ?_ hspans) h
    split
    · exact hnothing
    · exact Span.keptMark_le hput
  | case17 a as told b bs spans hend hkept hyields hput met spans' hleft hstall ih =>
    refine ih (hP ?_ hspans) h
    split
    · exact hnothing
    · exact Span.keptMark_le hput

/-- What is true of a change and of all that is written is true of the change rebased. -/
theorem rebase_stable [Insertion β] (hP : Span.Stable P) (hnil : P []) {c e : Change α}
    {d : Change β}
    (hc : P c.spans.reverse) (h : c.rebase d before = .ok e) : P e.spans.reverse := by
  rw [rebase_eq] at h
  split at h
  · split at h
    · exact Except.ok.inj h ▸ hc
    · split at h
      · next out hout =>
        obtain rfl := Except.ok.inj h
        exact rebaseSpans_stable hP hnil hout
      · cases h
  · cases h

end Rebase

section Divide

omit [Insertion α] in
theorem mark_forward {r : Rest α} {rs : List (Rest α)} (len : Nat)
    (h : ∀ t ∈ r :: rs, Span.keptMark ≤ t.count) :
    ∀ t ∈ Rest.forward len (r :: rs), Span.keptMark ≤ t.count := by
  obtain ⟨hr, hrs⟩ := List.forall_mem_cons.mp h
  rw [Rest.forward]
  split
  · exact hrs
  · exact List.forall_mem_cons.mpr ⟨hr, hrs⟩

variable {Q : List (Span Unit) → Prop}

/-- A change that is being divided: what is left of it has marks of kept runs alone, and something
is true of the outer part, and of the inner part. -/
structure Divider.Stable (P : List (Span α) → Prop) (Q : List (Span Unit) → Prop)
    (rs : List (Rest α)) (w : Divider α) : Prop where
  mark : ∀ r ∈ rs, Span.keptMark ≤ r.count
  outside : P w.outside
  inside : Q w.inside

theorem Divider.Stable.putOutside (hP : Span.Stable P) (hQ : Span.Stable Q) {r : Rest α}
    {rs rs' : List (Rest α)} {w : Divider α} (h : Divider.Stable P Q (r :: rs) w)
    (hrs : ∀ t ∈ rs', Span.keptMark ≤ t.count) (len : Nat) :
    Divider.Stable P Q rs' (w.putOutside len r) :=
  ⟨hrs, hP (Rest.keptMark_le_remainder (h.mark r List.mem_cons_self)) h.outside,
    hQ.keep h.inside len⟩

theorem Divider.Stable.putInside (hP : Span.Stable P) (hQ : Span.Stable Q) {r : Rest α}
    {rs rs' : List (Rest α)} {w : Divider α} (h : Divider.Stable P Q (r :: rs) w)
    (hrs : ∀ t ∈ rs', Span.keptMark ≤ t.count) (len : Nat) :
    Divider.Stable P Q rs' (w.putInside len r) :=
  ⟨hrs, hP.keep h.outside len,
    hQ (Rest.keptMark_le_remainder (h.mark r List.mem_cons_self)) h.inside⟩

theorem Divider.Stable.leaveOutside (hP : Span.Stable P) (hQ : Span.Stable Q) (stop : Nat)
    {rs : List (Rest α)} {w : Divider α} (h : Divider.Stable P Q rs w) :
    Divider.Stable P Q (Change.leaveOutside stop rs w).spans (Change.leaveOutside stop rs w) := by
  fun_induction Change.leaveOutside stop rs w with
  | case1 w => exact ⟨by simp, h.outside, h.inside⟩
  | case2 w r rs hreach hend => exact ⟨by simp, h.outside, h.inside⟩
  | case3 w r rs hreach hend len hall ih =>
    exact ih (h.putOutside hP hQ (fun t ht => h.mark t (List.mem_cons_of_mem _ ht)) len)
  | case4 w r rs hreach hend len hpart =>
    have hput := h.putOutside hP hQ (mark_forward len h.mark) len
    exact ⟨hput.mark, hput.outside, hput.inside⟩
  | case5 w r rs hreach => exact ⟨h.mark, h.outside, h.inside⟩

theorem Divider.Stable.takeInside (hP : Span.Stable P) (hQ : Span.Stable Q) (stop : Nat)
    {rs : List (Rest α)} {w : Divider α} (h : Divider.Stable P Q rs w) :
    Divider.Stable P Q (Change.takeInside stop rs w).spans (Change.takeInside stop rs w) := by
  fun_induction Change.takeInside stop rs w with
  | case1 w => exact ⟨by simp, h.outside, h.inside⟩
  | case2 w r rs hreach hend => exact ⟨by simp, h.outside, h.inside⟩
  | case3 w r rs hreach hend len hall ih =>
    exact ih (h.putInside hP hQ (fun t ht => h.mark t (List.mem_cons_of_mem _ ht)) len)
  | case4 w r rs hreach hend len hpart =>
    have hput := h.putInside hP hQ (mark_forward len h.mark) len
    exact ⟨hput.mark, hput.outside, hput.inside⟩
  | case5 w r rs hreach => exact ⟨h.mark, h.outside, h.inside⟩

theorem Divider.Stable.passRanges (hP : Span.Stable P) (hQ : Span.Stable Q)
    (ranges : List (Nat × Nat)) {w : Divider α} (h : Divider.Stable P Q w.spans w) :
    Divider.Stable P Q (ranges.foldl Divider.passRange w).spans
      (ranges.foldl Divider.passRange w) := by
  induction ranges generalizing w with
  | nil => exact h
  | cons range ranges ih => exact ih ((h.leaveOutside hP hQ range.1).takeInside hP hQ range.2)

theorem Divider.Stable.putAllOutside (hP : Span.Stable P) (hQ : Span.Stable Q) {rs : List (Rest α)}
    {w : Divider α} (h : Divider.Stable P Q rs w) :
    Divider.Stable P Q [] (rs.foldl (fun w r => w.putOutside r.length r) w) := by
  induction rs generalizing w with
  | nil => exact h
  | cons r rs ih =>
    exact ih (h.putOutside hP hQ (fun t ht => h.mark t (List.mem_cons_of_mem _ ht)) r.length)

/-- What is true of all that is written is true of both parts of a divided change. -/
theorem divide_stable (hP : Span.Stable P) (hQ : Span.Stable Q) (hnil : P []) (hnil' : Q [])
    {c : Change α} (hc : ∀ s ∈ c.spans, Span.keptMark ≤ s.count) (ranges : List (Nat × Nat)) :
    P (c.divide ranges).outside.spans.reverse ∧ Q (c.divide ranges).inside.spans.reverse := by
  have hstart : Divider.Stable P Q (⟨c.spans.map Rest.ofSpan, 0, [], []⟩ : Divider α).spans
      ⟨c.spans.map Rest.ofSpan, 0, [], []⟩ := by
    refine ⟨?_, hnil, hnil'⟩
    intro r hr
    obtain ⟨s, hs, rfl⟩ := List.mem_map.mp hr
    exact hc s hs
  have hpassed := hstart.passRanges hP hQ ranges
  have hrest : Divider.Stable P Q
      ((ranges.foldl Divider.passRange ⟨c.spans.map Rest.ofSpan, 0, [], []⟩).spans.takeWhile
        (·.count != Span.endMark))
      (ranges.foldl Divider.passRange ⟨c.spans.map Rest.ofSpan, 0, [], []⟩) :=
    ⟨fun r hr => hpassed.mark r ((List.takeWhile_sublist _).subset hr), hpassed.outside,
      hpassed.inside⟩
  have hdone := hrest.putAllOutside hP hQ
  have houtside := hdone.outside
  have hinside := hdone.inside
  rw [← List.reverse_reverse (Divider.outside _)] at houtside
  rw [← List.reverse_reverse (Divider.inside _)] at hinside
  exact ⟨houtside, hinside⟩

end Divide

end Change

end TextRevision
