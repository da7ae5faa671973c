import TextRevision.Proofs.ChangeSet.Obtainable

/-!
# The form of change sets

Runs and insertions are two lists. Within the limit of written changes they stay in step, whatever
operations lead to a change set: no run is without characters, neighbours are not of one kind, an
insertion stands in the place of the run that counts it, and all others are empty or left out.

Behind more characters than a signed word holds, an insertion is put to a run that counts none.

## Main definitions

- `ChangeSet.WellFormed`

## Main statements

- `ChangeSet.Obtainable.wellFormed`
- `ChangeSet.not_wellFormed`
-/

namespace TextRevision.ChangeSet

/-- Runs of different kinds, with the texts inserted told in the places of their runs. -/
structure WellFormed (s : ChangeSet) : Prop where
  /-- No run is without characters. -/
  not_void : ∀ r ∈ s.outline.spans, r.isVoid = false
  /-- No two neighbours are both kept runs, both deletions or both insertions. -/
  separate : Span.Separate s.outline.spans
  /-- No text is told without a run. -/
  length_le : s.inserted.length ≤ s.outline.spans.length
  /-- The text of a run that inserts something is told, and has the count of the run. -/
  told : ∀ (i : Nat) (r : Span Unit), s.outline.spans[i]? = some r → 0 < r.count →
    ∃ text : Rope, s.inserted[i]? = some text ∧ (text.length : Int) = r.count
  /-- What is told of any other run is empty. -/
  untold : ∀ (i : Nat) (r : Span Unit) (text : Rope), s.outline.spans[i]? = some r → r.count ≤ 0 →
    s.inserted[i]? = some text → text.length = 0
  /-- The last text is not empty. -/
  last : ∀ text : Rope, s.inserted.getLast? = some text → 0 < text.length

/-- Within the limit of written changes, the two lists of a change set that operations lead to are
in step. -/
theorem Obtainable.wellFormed {s : ChangeSet} (h : Obtainable (· ≤ lengthLimit) s) :
    s.WellFormed := by
  obtain ⟨c, hc, rfl⟩ := h.exists_revision
  have hnormal := hc.normalSpans
  -- Each run is the shape of a span, whose insertion is told in its place.
  have hspan : ∀ {i : Nat} {r : Span Unit}, c.outline.spans[i]? = some r →
      ∃ t, c.spans[i]? = some t ∧ Rope.reading.Sound t ∧ r = t.shape := by
    intro i r hr
    rw [Change.outline, List.getElem?_map] at hr
    obtain ⟨t, ht, rfl⟩ := Option.map_eq_some_iff.mp hr
    exact ⟨t, ht, hc.sound t (List.mem_of_getElem? ht), rfl⟩
  refine ⟨?_, Span.separate_shape.mpr hnormal.separate, ?_, ?_, ?_, ?_⟩
  · intro r hr
    obtain ⟨t, ht, rfl⟩ := List.mem_map.mp hr
    exact (hnormal.marked t ht).not_void
  · exact (Revision.length_insertedOf_le c.spans).trans (Nat.le_of_eq (List.length_map _).symm)
  · intro i r hr hpos
    obtain ⟨t, ht, hsound, rfl⟩ := hspan hr
    have hpos : 0 < t.count := hpos
    have hlength : t.text.length = t.count.toNat := hsound.proper.2
    refine ⟨t.text, Revision.getElem?_insertedOf_of_pos hsound ht hpos, ?_⟩
    show (t.text.length : Int) = t.count
    omega
  · intro i r text hr hnone htext
    obtain ⟨t, ht, hsound, rfl⟩ := hspan hr
    have hempty : t.text.isEmpty = true := (Rope.isEmpty_text_iff hsound.toFit).mpr hnone
    have htext : (Revision.insertedOf c.spans)[i]? = some text := htext
    rcases Revision.getElem?_insertedOf ht with htold | ⟨hmissing, -⟩
    · obtain rfl := Option.some.inj (htold.symm.trans htext)
      rw [Revision.insertionOf, if_pos hempty]
      rfl
    · cases hmissing.symm.trans htext
  · intro text htext
    have hsome := Revision.isEmpty_getLast?_insertedOf htext
    simpa [Rope.isEmpty, Nat.pos_iff_ne_zero] using hsome

/-- A character is removed behind two others, and one is inserted there: behind a kept run and a
deletion the insertion is told in the third place. -/
theorem Obtainable.wellFormed_two_characters :
    ∃ s : ChangeSet, (ofRevision (removeBehind 2)).andThen (ofRevision (insertBehind 2)) = .done s
      ∧ Obtainable (· ≤ lengthLimit) s ∧ s.inserted = [Rope.empty, Rope.empty, Rope.ofBlock ["x"]]
      ∧ s.WellFormed := by
  have hfits : ∀ m ≤ 2 + 1, m ≤ lengthLimit := fun _ hm => Nat.le_trans hm (by decide)
  have hheld : Change.leavesHeld 2 (⟨2, -1, Rope.empty, 0⟩ : Rest Rope) := by decide
  have hmake : (ofRevision (removeBehind 2)).andThen (ofRevision (insertBehind 2))
      = .done ⟨⟨[⟨2, -1, ()⟩, ⟨1, 0, ()⟩, ⟨0, 1, ()⟩]⟩,
          [Rope.empty, Rope.empty, Rope.ofBlock ["x"]]⟩ := by
    rw [andThen_eq (m := 2) (k := 2) rfl rfl, if_pos rfl, if_neg (by decide), if_neg (by decide),
      composeWalk, revision_removeBehind, revision_insertBehind]
    simp [removeBehind, insertBehind, Change.composeRuns, Rest.ofSpan, Rest.forwardNew,
      Rest.forward, Span.keptMark, Rest.newLength, Span.endMark, hheld]
    rfl
  have hs := (obtainable_removeBehind (by decide) (by decide) hfits).andThen
    (obtainable_insertBehind (by decide) (by decide) hfits) hmake ⟨by decide, by decide⟩
  exact ⟨_, hmake, hs, rfl, hs.wellFormed⟩

/-- Without the limit: behind 2⁶³ kept characters, a character is removed and another one is
inserted. The insertion is put to a run that counts none. -/
theorem not_wellFormed : ¬ ∀ s, Obtainable (fun _ => True) s → s.WellFormed := by
  intro h
  have hheld : Change.leavesHeld 9223372036854775808
      (⟨9223372036854775808, -1, Rope.empty, 0⟩ : Rest Rope) := by decide
  have hmake : (ofRevision (removeBehind 9223372036854775808)).andThen
        (ofRevision (insertBehind 9223372036854775808))
      = .done ⟨⟨[⟨9223372036854775809, 0, ()⟩]⟩, [Rope.ofBlock ["x"]]⟩ := by
    rw [andThen_eq (m := 9223372036854775808) (k := 9223372036854775808) rfl rfl, if_pos rfl,
      if_neg (by decide), if_neg (by decide), composeWalk, revision_removeBehind,
      revision_insertBehind]
    simp [removeBehind, insertBehind, Change.composeRuns, Rest.ofSpan, Rest.forwardNew,
      Rest.forward, Span.keptMark, Rest.newLength, Span.endMark, hheld]
    rfl
  have hs := h _ ((obtainable_removeBehind (by decide) (by decide) fun _ _ => trivial).andThen
    (obtainable_insertBehind (by decide) (by decide) fun _ _ => trivial) hmake ⟨trivial, trivial⟩)
  exact absurd (hs.untold 0 _ _ rfl (Int.le_refl 0) rfl) (by decide)

end TextRevision.ChangeSet
