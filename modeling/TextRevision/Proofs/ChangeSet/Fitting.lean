import TextRevision.Proofs.ChangeSet.Obtainable

/-!
# Change sets that fit together

The lengths of two change sets decide what comes of putting one behind the other, or of rebasing one
over the other. Within the limit of written changes the walks end, with a result if the lengths
agree. So behind a comparison of lengths nothing is refused.

The outline that undoes a removal counts the removed characters in a signed word. Beyond the limit a
count comes to stand there that the walk takes for the mark of its end.

## Main statements

- `ChangeSet.walks_decided`
- `ChangeSet.not_walks_decided`
-/

namespace TextRevision

open TextRevision.Span (Normal)

namespace Change

variable {α β : Type} [Insertion α] [Insertion β] {c d : Change α} {e : Change β}

omit [Insertion β] in
/-- Where the first change makes as many characters as the second one has, the walk that puts the
second behind the first has a result. -/
theorem composeRuns_of_fits (hc : ∀ s ∈ c.spans, s.Marked) (hd : ∀ s ∈ d.spans, s.Marked)
    (hcwithin : c.Within (· ≤ lengthLimit)) (hdwithin : d.Within (· ≤ lengthLimit))
    (hfits : c.newLength = d.length) :
    ∃ l, composeRuns (c.spans.map Rest.ofSpan) (d.spans.map Rest.ofSpan) false .blank
      = .finished l := by
  have hwalk := composeRuns_start Ledger.stands_runs rfl hc hd hcwithin hdwithin
    (fun _ _ => trivial) (fun _ _ => trivial)
  obtain ⟨out, -, hout, -⟩ := composeSpans_of_fits hc hd hcwithin.count_lt hfits
  rw [hout] at hwalk
  obtain ⟨l, hl, -⟩ := hwalk.exists_finished
  exact ⟨l, hl⟩

omit [Insertion β] in
/-- Otherwise it finds that they do not fit. -/
theorem composeRuns_eq_mismatch (hc : ∀ s ∈ c.spans, s.Marked) (hd : ∀ s ∈ d.spans, s.Marked)
    (hcwithin : c.Within (· ≤ lengthLimit)) (hdwithin : d.Within (· ≤ lengthLimit))
    (hne : c.newLength ≠ d.length) :
    composeRuns (c.spans.map Rest.ofSpan) (d.spans.map Rest.ofSpan) false .blank = .mismatch := by
  have hwalk := composeRuns_start Ledger.stands_runs rfl hc hd hcwithin hdwithin
    (fun _ _ => trivial) (fun _ _ => trivial)
  rw [composeSpans_eq_mismatch _ _ false [] (markedFirst_of_mem hc hcwithin.count_lt)
    (markedSecond_of_mem hd) (mt rests_fit_iff.mp hne)] at hwalk
  exact hwalk.eq_mismatch

/-- The walk that rebases a change over one of the same length has a result. -/
theorem rebaseRuns_of_fits (hc : ∀ s ∈ c.spans, s.Marked) (he : ∀ s ∈ e.spans, s.Marked)
    (hcwithin : c.Within (· ≤ lengthLimit)) (hewithin : e.Within (· ≤ lengthLimit))
    (hfits : e.length = c.length) (before : Bool) :
    ∃ l, rebaseRuns before (c.spans.map Rest.ofSpan) false (e.spans.map Rest.ofSpan) .blank
      = .finished l := by
  have hwalk := rebaseRuns_start Ledger.stands_runs rfl hc he hcwithin hewithin
    (fun _ _ => trivial) before
  obtain ⟨out, -, hout, -⟩ := rebaseSpans_of_fits hc he hfits before
  rw [hout] at hwalk
  obtain ⟨l, hl, -⟩ := hwalk.exists_finished
  exact ⟨l, hl⟩

end Change

namespace Change

/-- An operation that takes what a walk has found. -/
theorem exists_done_of_finished {γ δ : Type} {walk : Walk γ} {m k : Nat} {f : γ → δ}
    (h : ∃ l, walk = .finished l) : ∃ r, f <$> checkedWalk m k walk = .done r := by
  obtain ⟨l, rfl⟩ := h
  exact ⟨f l, rfl⟩

end Change

/-- Runs in normal form, with lengths within the limit of written changes. -/
structure Outline.Regular (d : Outline) : Prop where
  normal : Normal d.spans
  within : d.Within (· ≤ lengthLimit)

namespace ChangeSet

variable {s t : ChangeSet} {c d : Outline}

/-- What two lists tell is as their runs are. -/
theorem marked_revision (hs : s.outline.Regular) : ∀ r ∈ s.revision.spans, r.Marked := by
  intro r hr
  rw [← s.outline_revision] at hs
  exact (hs.normal.marked r.shape (List.mem_map_of_mem hr)).of_eq rfl rfl

theorem within_of_regular (hs : s.outline.Regular) : s.revision.Within (· ≤ lengthLimit) := by
  rw [Change.Within, length_revision, newLength_revision]
  exact hs.within

theorem composeWalk_of_fits (hs : s.outline.Regular) (ht : t.outline.Regular)
    (hfits : s.outline.newLength = t.outline.length) : ∃ l, composeWalk s t = .finished l :=
  Change.composeRuns_of_fits (marked_revision hs) (marked_revision ht) (within_of_regular hs)
    (within_of_regular ht) ((s.newLength_revision.trans hfits).trans t.length_revision.symm)

theorem composeWalk_eq_mismatch (hs : s.outline.Regular) (ht : t.outline.Regular)
    (hne : s.outline.newLength ≠ t.outline.length) : composeWalk s t = .mismatch := by
  refine Change.composeRuns_eq_mismatch (marked_revision hs) (marked_revision ht)
    (within_of_regular hs) (within_of_regular ht) ?_
  rwa [newLength_revision, length_revision]

theorem rebaseWalk_of_fits (hs : s.outline.Regular) (hd : d.Regular)
    (hfits : d.length = s.outline.length) (before : Bool) :
    ∃ l, rebaseWalk s d before = .finished l :=
  Change.rebaseRuns_of_fits (marked_revision hs) hd.normal.marked (within_of_regular hs) hd.within
    (hfits.trans s.length_revision.symm) before

theorem exists_andThen (hs : s.outline.Regular) (ht : t.outline.Regular)
    (hfits : s.outline.newLength = t.outline.length) : ∃ r, s.andThen t = .done r := by
  rw [andThen_eq hs.within.newLength?_eq ht.within.length?_eq, if_pos hfits]
  split
  · exact ⟨t, rfl⟩
  · split
    · exact ⟨s, rfl⟩
    · exact Change.exists_done_of_finished (composeWalk_of_fits hs ht hfits)

theorem exists_rebase (hs : s.outline.Regular) (hd : d.Regular)
    (hfits : d.length = s.outline.length) (before : Bool) : ∃ r, s.rebase d before = .done r := by
  rw [rebase_eq hd.within.length?_eq hs.within.length?_eq, if_pos hfits]
  split
  · exact ⟨s, rfl⟩
  · exact Change.exists_done_of_finished (rebaseWalk_of_fits hs hd hfits before)

theorem exists_andThen_outline (hc : c.Regular) (hd : d.Regular) (hfits : c.newLength = d.length) :
    ∃ r, c.andThen? d = .done r := by
  rw [Outline.andThen?_choice hc.within.newLength?_eq hd.within.length?_eq, if_pos hfits]
  split
  · exact ⟨d, rfl⟩
  · split
    · exact ⟨c, rfl⟩
    · exact Change.exists_done_of_finished (Change.composeRuns_of_fits hc.normal.marked
        hd.normal.marked hc.within hd.within hfits)

theorem exists_rebase_outline (hc : c.Regular) (hd : d.Regular) (hfits : d.length = c.length)
    (before : Bool) : ∃ r, c.rebase? d before = .done r := by
  rw [Outline.rebase?_choice hd.within.length?_eq hc.within.length?_eq, if_pos hfits]
  split
  · exact ⟨c, rfl⟩
  · exact Change.exists_done_of_finished (Change.rebaseRuns_of_fits hc.normal.marked
      hd.normal.marked hc.within hd.within hfits before)

/-- The lengths decide. One change set is put behind another exactly if the first makes as many
characters as the second has, and else the walk finds that they do not fit; with the same length one
is rebased over the other, whichever comes first. So what is refused is refused where the lengths
are compared, for change sets and for outlines. -/
theorem walks_decided (hs : s.outline.Regular) (ht : t.outline.Regular) (hd : d.Regular) :
    ((∃ l, composeWalk s t = .finished l) ↔ s.outline.newLength = t.outline.length)
      ∧ (s.outline.newLength ≠ t.outline.length → composeWalk s t = .mismatch)
      ∧ (d.length = s.outline.length → ∀ before, ∃ l, rebaseWalk s d before = .finished l)
      ∧ (s.outline.newLength = t.outline.length →
        (∃ r, s.andThen t = .done r) ∧ ∃ r, s.outline.andThen? t.outline = .done r)
      ∧ (s.outline.newLength ≠ t.outline.length →
        s.andThen t = .refused (.lengthMismatch s.outline.newLength t.outline.length)
          ∧ s.outline.andThen? t.outline
            = .refused (.lengthMismatch s.outline.newLength t.outline.length))
      ∧ (d.length = s.outline.length → ∀ before,
        (∃ r, s.rebase d before = .done r) ∧ ∃ r, s.outline.rebase? d before = .done r)
      ∧ (d.length ≠ s.outline.length → ∀ before,
        s.rebase d before = .refused (.lengthMismatch d.length s.outline.length)
          ∧ s.outline.rebase? d before
            = .refused (.lengthMismatch d.length s.outline.length)) := by
  refine ⟨⟨?_, composeWalk_of_fits hs ht⟩, composeWalk_eq_mismatch hs ht,
    rebaseWalk_of_fits hs hd, fun hfits => ⟨exists_andThen hs ht hfits,
      exists_andThen_outline hs ht hfits⟩, fun hne => ⟨?_, ?_⟩, fun hfits before =>
    ⟨exists_rebase hs hd hfits before, exists_rebase_outline hs hd hfits before⟩,
    fun hne before => ⟨?_, ?_⟩⟩
  · rintro ⟨l, hl⟩
    by_contra hne
    cases hl.symm.trans (composeWalk_eq_mismatch hs ht hne)
  · rw [andThen_eq hs.within.newLength?_eq ht.within.length?_eq, if_neg hne]
  · rw [Outline.andThen?_choice hs.within.newLength?_eq ht.within.length?_eq, if_neg hne]
  · rw [rebase_eq hd.within.length?_eq hs.within.length?_eq, if_neg hne]
  · rw [Outline.rebase?_choice hd.within.length?_eq hs.within.length?_eq, if_neg hne]

/-- The second character of two is replaced by two others, a character is put in front of the three,
and the two characters are removed concurrently. The removal does not meet the change it is put
behind. -/
theorem walks_decided_two_characters :
    let s : ChangeSet := ⟨⟨[⟨1, -1, ()⟩, ⟨1, 2, ()⟩]⟩, [Rope.empty, Rope.ofBlock ["xy"]]⟩
    let t : ChangeSet := ⟨⟨[⟨0, 1, ()⟩, ⟨3, -1, ()⟩]⟩, [Rope.ofBlock ["z"]]⟩
    let d : Outline := ⟨[⟨2, 0, ()⟩]⟩
    s.outline.Regular ∧ t.outline.Regular ∧ d.Regular
      ∧ (∃ l, composeWalk s t = .finished l)
      ∧ (∃ r, s.andThen t = .done r)
      ∧ s.andThen ⟨d, []⟩ = .refused (.lengthMismatch 3 2)
      ∧ ∀ before, ∃ r, s.rebase d before = .done r := by
  intro s t d
  have hmarked : ∀ r : Span Unit, Span.keptMark ≤ r.count → r.isVoid = false → r.Marked :=
    fun _ hmark hvoid => ⟨hmark, hvoid⟩
  have hs : s.outline.Regular := by
    refine ⟨⟨List.forall_mem_cons.mpr ⟨hmarked _ (by decide) rfl, ?_⟩, ?_⟩, by decide, by decide⟩
    · exact List.forall_mem_singleton.mpr (hmarked _ (by decide) rfl)
    · exact .cons_cons ⟨by decide, by decide, by decide⟩ (.singleton _)
  have ht : t.outline.Regular := by
    refine ⟨⟨List.forall_mem_cons.mpr ⟨hmarked _ (by decide) rfl, ?_⟩, ?_⟩, by decide, by decide⟩
    · exact List.forall_mem_singleton.mpr (hmarked _ (by decide) rfl)
    · exact .cons_cons ⟨by decide, by decide, by decide⟩ (.singleton _)
  have hd : d.Regular :=
    ⟨⟨List.forall_mem_singleton.mpr (hmarked _ (by decide) rfl), .singleton _⟩, by decide,
      by decide⟩
  obtain ⟨hfinished, -, -, hput, -, hrebased, -⟩ := walks_decided hs ht hd
  have hother : (⟨d, []⟩ : ChangeSet).outline.Regular := hd
  obtain ⟨-, -, -, -, hrefused, -⟩ := walks_decided hs hother hd
  exact ⟨hs, ht, hd, hfinished.mpr rfl, (hput rfl).1, (hrefused (by decide)).1,
    fun before => (hrebased rfl before).1⟩

/-- Without the limit: the outline that undoes the removal of 2⁶⁴ − 2 characters counts them as −2,
the mark of the end. A change of the one character that is left is refused behind a comparison of
lengths that agree. In normal form nothing comes of rebasing where the characters kept are too many
for a word. -/
theorem not_walks_decided :
    (∃ s d, Obtainable (fun _ => True) s ∧ Outline.Obtainable (fun _ => True) d
      ∧ d.length? = some 1 ∧ s.outline.length? = some 1
      ∧ ∀ before, s.rebase d before = .refused (.lengthMismatch 1 1))
      ∧ ∃ s d, Obtainable (fun _ => True) s ∧ Outline.Obtainable (fun _ => True) d
        ∧ Normal s.outline.spans ∧ Normal d.spans
        ∧ d.length? = some 18446744073709551615 ∧ s.outline.length? = some 18446744073709551615
        ∧ ∀ before, s.rebase d before = .nothing := by
  refine ⟨?_, ?_⟩
  · have hnone : signedWord Rope.empty.length = 0 := by decide
    have hword : signedWord 18446744073709551614 = -2 :=
      signedWord_of_le (by decide) (by decide)
    have hreplaced : Ledger.push? false .blank
          (Span.replace (1 - 0) (Inserted.nothing.toRope none))
        = some (⟨[⟨1, 0, ()⟩], []⟩ : Ledger Rope) := by
      rw [Inserted.toRope, Span.replace, hnone]
      rfl
    have hmake : ofEdit (.replace 0 1 .nothing) 1 none = .done ⟨⟨[⟨1, 0, ()⟩]⟩, []⟩ :=
      ofEdit_replace (Nat.zero_le 1) (Nat.le_refl 1) (by simp) rfl hreplaced rfl
    have hs : Obtainable (fun _ => True) ⟨⟨[⟨1, 0, ()⟩]⟩, []⟩ :=
      .ofEdit (by simp [Edit.atoms]) (by simp [Edit.atoms]) hmake trivial
    have hinverse : (keepLast 18446744073709551614).outline.inverse
        = ⟨[⟨0, -2, ()⟩, ⟨1, -1, ()⟩]⟩ := by
      rw [← hword]
      rfl
    have hd : Outline.Obtainable (fun _ => True) ⟨[⟨0, -2, ()⟩, ⟨1, -1, ()⟩]⟩ :=
      hinverse ▸ .inverse (.outline (obtainable_keepLast (by decide))) ⟨trivial, trivial⟩
    refine ⟨_, _, hs, hd, rfl, rfl, fun before => ?_⟩
    have hwalk :
        rebaseWalk ⟨⟨[⟨1, 0, ()⟩]⟩, []⟩ ⟨[⟨0, -2, ()⟩, ⟨1, -1, ()⟩]⟩ before = .mismatch := by
      simp [rebaseWalk, revision, Span.pair, Rest.ofSpan, Change.rebaseRuns, Span.endMark]
    rw [rebase_eq (m := 1) (k := 1) rfl rfl, if_pos rfl, if_neg (by decide), hwalk]
    rfl
  · have hs : Obtainable (fun _ => True) (unchanged 18446744073709551615) := .unchanged _ trivial
    have hd : Outline.Obtainable (fun _ => True) (insertBehind 18446744073709551615).outline :=
      .outline (TextRevision.obtainable_insertBehind (by decide) fun _ _ => trivial)
    have hfirst : Ledger.push? false (.blank : Ledger Rope)
        ⟨18446744073709551615, -1, Insertion.empty⟩
        = some ⟨[⟨18446744073709551615, -1, ()⟩], []⟩ := push?_keep (by decide) (by decide)
    have hsecond : Ledger.push? false (⟨[⟨18446744073709551615, -1, ()⟩], []⟩ : Ledger Rope)
        ⟨1, -1, Insertion.empty⟩ = none := rfl
    refine ⟨_, _, hs, hd, ?_, ?_, rfl, rfl, fun before => ?_⟩
    · exact ⟨List.forall_mem_singleton.mpr ⟨by decide, rfl⟩, .singleton _⟩
    · refine ⟨List.forall_mem_cons.mpr ⟨⟨by decide, rfl⟩, ?_⟩, ?_⟩
      · exact List.forall_mem_singleton.mpr ⟨by decide, rfl⟩
      · exact .cons_cons ⟨by decide, by decide, by decide⟩ (.singleton _)
    · have hwalk : rebaseWalk (unchanged 18446744073709551615)
          (insertBehind 18446744073709551615).outline before = .stalled := by
        simp [rebaseWalk, unchanged, Change.unchanged, insertBehind, Change.outline, revision,
          Span.pair, Span.shape, Span.map, Span.keep, Rest.ofSpan, Rest.forward, Change.rebaseRuns,
          Span.keptMark, Span.endMark, hfirst, hsecond, Walk.onward]
      rw [rebase_eq (m := 18446744073709551615) (k := 18446744073709551615) rfl rfl, if_pos rfl,
        if_neg (by decide), hwalk]
      rfl

end ChangeSet

end TextRevision
