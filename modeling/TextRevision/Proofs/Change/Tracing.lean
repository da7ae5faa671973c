import TextRevision.Proofs.Change.Convergence
import TextRevision.Proofs.Change.Surviving

/-!
# Characters traced through two changes

A change that is put behind another keeps a character if both keep it: the first one at some place
of the document in between, and the second one from there. Nothing else is kept, and nothing is
shifted. Where a kept run is too long for a signed word, what comes next is joined to it, and then
none of its characters is kept.

## Main statements

- `Reading.andThen_traces`: which characters one change behind another keeps, and where
- `Outline.Obtainable.andThen_keeps`
-/

namespace TextRevision

namespace Reading

variable {α β : Type} [Insertion α] {I : Reading α β} {a b c : Change α}

/-- Two changes that meet in one document can be put behind each other, and what results keeps the
characters that are kept by both. -/
theorem andThen_traces (ha : ∀ s ∈ a.spans, I.Sound s) (hb : ∀ s ∈ b.spans, I.Sound s)
    (hsmall : ∀ s ∈ a.spans, s.newLength < signBound) (hfits : a.newLength = b.length) :
    ∃ c, a.andThen b = .ok c ∧ c.length = a.length ∧ c.newLength = b.newLength
      ∧ ∀ p q, c.Keeps p q ↔ ∃ m, a.Keeps p m ∧ b.Keeps m q := by
  have haPlaces : ∀ s ∈ a.spans, I.nowhere.Sound s := fun s hs => (ha s hs).map _
  have hbPlaces : ∀ s ∈ b.spans, I.nowhere.Sound s := fun s hs => (hb s hs).map _
  obtain ⟨c, hc, hcPlaces, hlength, -, hrun⟩ :=
    andThen_spec haPlaces hbPlaces hsmall hfits
  have horigins : (origins a.length).length = a.length := length_origins a.length
  have hbetween : (I.nowhere.run a.spans (origins a.length)).length = b.length :=
    (length_run haPlaces horigins).trans hfits
  have hsound : ∀ s ∈ c.spans, I.Sound s := fun s hs => (hcPlaces s hs).of_map
  refine ⟨c, hc, hlength, ?_, fun p q => ?_⟩
  · exact newLength_andThen haPlaces hbPlaces hcPlaces hfits hlength horigins (hrun _ horigins)
  · rw [keeps_iff hsound, hlength, hrun _ horigins, getElem?_run_iff hb hbetween]
    exact exists_congr fun m => and_congr_left' (keeps_iff ha p m).symm

end Reading

/-- Two outlines that meet in one document can be put behind each other. What results leads from the
first document to the last, and keeps the characters that the first outline keeps in between and the
second keeps from there. All this is for lengths up to the limit of written changes. -/
theorem Outline.Obtainable.andThen_keeps {a b : Outline}
    (ha : Outline.Obtainable (· ≤ lengthLimit) a) (hb : Outline.Obtainable (· ≤ lengthLimit) b)
    (hfits : a.newLength = b.length) :
    ∃ c, a.andThen b = .ok c ∧ c.length = a.length ∧ c.newLength = b.newLength
      ∧ ∀ p q, c.Keeps p q ↔ ∃ m, a.Keeps p m ∧ b.Keeps m q :=
  Reading.andThen_traces ha.sound hb.sound ha.within.newLength_lt hfits

/-- The first of three characters, the last of which is replaced by two changes. -/
theorem Outline.Obtainable.andThen_keeps_three_characters :
    Outline.Obtainable (· ≤ lengthLimit) (removeBehind 2).outline
      ∧ Outline.Obtainable (· ≤ lengthLimit) (insertBehind 2).outline
      ∧ ∃ c, (removeBehind 2).outline.andThen (insertBehind 2).outline = .ok c
        ∧ c.length = 3 ∧ c.newLength = 3 ∧ c.Keeps 0 0 := by
  have hfits : ∀ m ≤ 2 + 1, m ≤ lengthLimit := fun _ hm => Nat.le_trans hm (by decide)
  have ha : Outline.Obtainable (· ≤ lengthLimit) (removeBehind 2).outline :=
    .outline (obtainable_removeBehind (by decide) hfits)
  have hb : Outline.Obtainable (· ≤ lengthLimit) (insertBehind 2).outline :=
    .outline (obtainable_insertBehind (by decide) hfits)
  obtain ⟨c, hc, hlength, hnew, hkeeps⟩ := Outline.Obtainable.andThen_keeps ha hb rfl
  refine ⟨ha, hb, c, hc, hlength, hnew, (hkeeps 0 0).mpr ⟨0, ?_, ?_⟩⟩
  · exact (Change.keeps_outline _ 0 0).mpr (keeps_removeBehind (by decide))
  · exact (Change.keeps_outline _ 0 0).mpr (keeps_insertBehind (by decide))

/-- Behind 2⁶³ kept characters, what comes next is joined to them. Both outlines keep the first
character, what results of them does not. -/
theorem Outline.Obtainable.not_andThen_keeps :
    ∃ a b c, Outline.Obtainable (fun _ => True) a ∧ Outline.Obtainable (fun _ => True) b
      ∧ a.newLength = b.length ∧ a.andThen b = .ok c ∧ c.newLength ≠ b.newLength
      ∧ a.Keeps 0 0 ∧ b.Keeps 0 0 ∧ ∀ q, ¬ c.Keeps 0 q := by
  have hjoined : (removeBehind 9223372036854775808).andThen (insertBehind 9223372036854775808)
      = .ok ⟨[⟨9223372036854775809, 0, Rope.ofBlock ["x"]⟩]⟩ :=
    removeBehind_andThen_insertBehind (by decide) (by decide)
  have hnew : (insertBehind 9223372036854775808).outline.newLength = 9223372036854775809 := by
    rw [Change.newLength_outline, newLength_insertBehind]
  refine ⟨(removeBehind 9223372036854775808).outline, (insertBehind 9223372036854775808).outline,
    ⟨[⟨9223372036854775809, 0, ()⟩]⟩,
    .outline (obtainable_removeBehind (by decide) fun _ _ => trivial),
    .outline (obtainable_insertBehind (by decide) fun _ _ => trivial), rfl, ?_, ?_, ?_, ?_, ?_⟩
  · rw [Change.andThen_outline, hjoined]
    rfl
  · rw [hnew]
    decide
  · exact (Change.keeps_outline _ 0 0).mpr (keeps_removeBehind (by decide))
  · exact (Change.keeps_outline _ 0 0).mpr (keeps_insertBehind (by decide))
  · rintro q ⟨g, hg, -⟩
    cases hg

end TextRevision
