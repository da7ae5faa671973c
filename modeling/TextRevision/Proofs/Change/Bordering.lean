import TextRevision.Proofs.Change.Tracked
import TextRevision.Proofs.Change.Following
import TextRevision.Proofs.Rope.Sameness

/-!
# Ranges that no replaced run meets

How a change lies to a range of the old document is told by the first replaced run that does not end
before the range. No later run could tell more: one that starts behind it does not reach past the
range on both sides. Where no run meets the range, not even at its edge, the spans divide into those
that end before the range and those that replace nothing up to its end. So the whole range is moved
by one distance, and holds the same text in the new document.

## Main definitions

- `Replacement.Spans`, `Replacement.Meets`: how a replaced run lies to a range
- `Contact.Holds`: what a contact tells of replaced runs

## Main statements

- `Change.holds_contactFrom`: a contact tells what holds of all the runs
- `Change.exists_split_of_apart`: the spans in front of a range that no run meets, and the others
- `Revision.contact?_exact`
-/

namespace TextRevision

variable {α β : Type}

/-- A replaced run reaches past a range on both sides. -/
def Replacement.Spans (r : Replacement α) (start stop : Nat) : Prop :=
  r.start < start ∧ stop < r.stop

/-- A replaced run meets a range, or borders on it. -/
def Replacement.Meets (r : Replacement α) (start stop : Nat) : Prop :=
  r.start ≤ stop ∧ start ≤ r.stop

theorem Replacement.Spans.meets {r : Replacement α} {start stop : Nat} (h : r.Spans start stop)
    (hle : start ≤ stop) : r.Meets start stop :=
  ⟨h.1.le.trans hle, hle.trans h.2.le⟩

/-- What a contact tells of the replaced runs of a change. -/
def Contact.Holds (rs : List (Replacement α)) (start stop : Nat) : Contact → Prop
  | .apart => ∀ r ∈ rs, ¬ r.Meets start stop
  | .touches => (∃ r ∈ rs, r.Meets start stop) ∧ ∀ r ∈ rs, ¬ r.Spans start stop
  | .covers => ∃ r ∈ rs, r.Spans start stop

namespace Contact

variable {rs : List (Replacement α)} {start stop : Nat} {r : Replacement α} {k l : Contact}

/-- The three contacts exclude each other. -/
theorem Holds.unique (hle : start ≤ stop) (hk : k.Holds rs start stop)
    (hl : l.Holds rs start stop) : k = l := by
  have hnone : (∀ r ∈ rs, ¬ r.Meets start stop) → ∀ r ∈ rs, ¬ r.Spans start stop :=
    fun hapart r hr hspans => hapart r hr (hspans.meets hle)
  have hsome : (∃ r ∈ rs, r.Spans start stop) → ¬ ∀ r ∈ rs, ¬ r.Spans start stop :=
    fun ⟨r, hr, hspans⟩ hall => hall r hr hspans
  have hmeet : (∃ r ∈ rs, r.Meets start stop) → ¬ ∀ r ∈ rs, ¬ r.Meets start stop :=
    fun ⟨r, hr, hmeets⟩ hall => hall r hr hmeets
  cases k <;> cases l <;> simp only [Holds] at hk hl <;> first | rfl | tauto

/-- A run that ends before a range has no part in the contact. -/
theorem Holds.cons (h : k.Holds rs start stop) (hle : start ≤ stop) (hbefore : r.stop < start) :
    k.Holds (r :: rs) start stop := by
  have hmeets : ¬ r.Meets start stop := fun h => absurd h.2 (Nat.not_le.mpr hbefore)
  have hspans : ¬ r.Spans start stop := fun h => hmeets (h.meets hle)
  cases k with
  | apart => exact List.forall_mem_cons.mpr ⟨hmeets, h⟩
  | touches =>
    obtain ⟨⟨t, ht, htMeets⟩, hall⟩ := h
    exact ⟨⟨t, List.mem_cons_of_mem r ht, htMeets⟩, List.forall_mem_cons.mpr ⟨hspans, hall⟩⟩
  | covers =>
    obtain ⟨t, ht, htSpans⟩ := h
    exact ⟨t, List.mem_cons_of_mem r ht, htSpans⟩

end Contact

namespace Change

section Scan

variable {start stop : Nat}

/-- The scan tells the contact of all the replaced runs. -/
theorem holds_contactFrom (hle : start ≤ stop) (pos newPos : Nat) (spans : List (Span α)) :
    (contactFrom start stop pos spans).Holds (replacementsFrom true pos newPos spans)
      start stop := by
  induction spans generalizing pos newPos with
  | nil =>
    intro r hr
    cases hr
  | cons s spans ih =>
    have hlater := ih (pos + s.length) (newPos + s.newLength)
    rw [contactFrom]
    by_cases hpast : stop < pos
    · rw [if_pos hpast]
      rintro r hr ⟨hstart, -⟩
      have := (bounds_of_mem_replacementsFrom hr).1
      omega
    · rw [if_neg hpast, replacementsFrom_each]
      by_cases hkept : s.isKept = true
      · rw [if_pos hkept, if_neg (by simp [hkept])]
        exact hlater
      · rw [if_neg hkept]
        by_cases hreach : start ≤ pos + s.length
        · rw [if_pos (by simp [hkept, hreach])]
          have hmeets : (ownReplacement pos newPos s).Meets start stop :=
            ⟨Nat.not_lt.mp hpast, hreach⟩
          by_cases hspans : pos < start ∧ stop < pos + s.length
          · rw [if_pos hspans]
            exact ⟨_, List.mem_cons_self, hspans⟩
          · rw [if_neg hspans]
            refine ⟨⟨_, List.mem_cons_self, hmeets⟩, List.forall_mem_cons.mpr ⟨hspans, ?_⟩⟩
            -- The runs behind this one start where the range has begun.
            rintro r hr ⟨hstart, -⟩
            have := (bounds_of_mem_replacementsFrom hr).1
            omega
        · rw [if_neg (by simp [hreach])]
          exact hlater.cons hle (Nat.not_le.mp hreach)

/-- A contact is told exactly where it holds. -/
theorem contact_eq_iff (c : Change α) (hle : start ≤ stop) {k : Contact} :
    c.contact start stop = k ↔ k.Holds (c.replacements true) start stop := by
  have hholds := holds_contactFrom hle 0 0 c.spans
  constructor
  · rintro rfl
    exact hholds
  · exact fun hk => Contact.Holds.unique hle hholds hk

end Scan

section Split

variable {front back spans : List (Span α)} {start stop pos newPos p : Nat}

/-- Where no run meets a range, the spans divide into those that end before it and those that
replace nothing up to its end. -/
theorem exists_split_of_apart (h : ∀ r ∈ replacementsFrom true pos newPos spans,
      ¬ r.Meets start stop) :
    ∃ front back, spans = front ++ back
      ∧ (front = [] ∨ pos + sumBy Span.length front < start)
      ∧ ∀ r ∈ replacementsFrom true (pos + sumBy Span.length front)
          (newPos + sumBy Span.newLength front) back, stop < r.start := by
  induction spans generalizing pos newPos with
  | nil => exact ⟨[], [], rfl, .inl rfl, fun r hr => by cases hr⟩
  | cons s spans ih =>
    by_cases hbehind : ∀ r ∈ replacementsFrom true pos newPos (s :: spans), stop < r.start
    · exact ⟨[], s :: spans, rfl, .inl rfl, hbehind⟩
    · -- Some run starts by the end of the range, so that it ends before the range. It ends no
      -- earlier than the first span.
      have hends : pos + s.length < start := by
        push Not at hbehind
        obtain ⟨r, hr, hstart⟩ := hbehind
        have hstop : r.stop < start := Nat.not_le.mp fun hle => h r hr ⟨hstart, hle⟩
        rw [replacementsFrom_each] at hr
        split at hr
        · have := bounds_of_mem_replacementsFrom hr
          omega
        · rcases List.mem_cons.mp hr with rfl | hr
          · exact hstop
          · have := bounds_of_mem_replacementsFrom hr
            omega
      have hrest : ∀ r ∈ replacementsFrom true (pos + s.length) (newPos + s.newLength) spans,
          ¬ r.Meets start stop := by
        intro r hr
        refine h r ?_
        rw [replacementsFrom_each]
        split
        · exact hr
        · exact List.mem_cons_of_mem _ hr
      obtain ⟨front, back, rfl, hfront, hback⟩ := ih hrest
      refine ⟨s :: front, back, rfl, .inr ?_, ?_⟩
      · rw [sumBy_cons]
        rcases hfront with rfl | hfront
        · exact hends
        · omega
      · rw [sumBy_cons, sumBy_cons, ← Nat.add_assoc, ← Nat.add_assoc]
        exact hback

/-- A place does not settle at spans that end before it. -/
theorem locateFrom_append (h : front = [] ∨ pos + sumBy Span.length front < p) (side : Side)
    (newPos : Nat) :
    locateFrom p side .nowhere pos newPos (front ++ back)
      = locateFrom p side .nowhere (pos + sumBy Span.length front)
          (newPos + sumBy Span.newLength front) back := by
  induction front generalizing pos newPos with
  | nil => rfl
  | cons s front ih =>
    rcases h with h | h
    · cases h
    · rw [sumBy_cons, ← Nat.add_assoc] at h
      have hsettles : ¬ s.Settles p side pos := by
        intro hsettles
        have := hsettles.le
        omega
      rw [List.cons_append, locateFrom_nowhere_cons, if_neg hsettles, ih (.inr h), sumBy_cons,
        sumBy_cons, Nat.add_assoc, Nat.add_assoc]

/-- A place keeps its distance from where spans start that replace nothing up to it. -/
theorem locateFrom_of_unreplaced (h : ∀ r ∈ replacementsFrom true pos newPos back, p < r.start)
    (hpos : pos ≤ p) (hle : p ≤ pos + sumBy Span.length back) (side : Side) :
    locateFrom p side .nowhere pos newPos back = .ok (some (newPos + (p - pos))) := by
  induction back generalizing pos newPos with
  | nil =>
    rw [sumBy_nil] at hle
    rw [locateFrom, if_neg (by omega), show p - pos = 0 by omega, Nat.add_zero]
  | cons s back ih =>
    rw [replacementsFrom_each] at h
    rw [sumBy_cons] at hle
    by_cases hkept : s.isKept = true
    · rw [if_pos hkept] at h
      rw [locateFrom_nowhere_cons]
      by_cases hhere : p < pos + s.length
      · rw [if_pos (.inl hhere), Span.settle, if_pos hkept]
      · have hsettles : ¬ s.Settles p side pos := by
          rintro (hlt | ⟨hput, -⟩)
          · exact hhere hlt
          · simp [hkept] at hput
        rw [if_neg hsettles, ih h (by omega) (by omega), Span.newLength_of_isKept hkept]
        congr 2
        omega
    · rw [if_neg hkept] at h
      have := h _ List.mem_cons_self
      simp only [ownReplacement] at this
      omega

end Split

end Change

/-- Spans that replace nothing up to a place keep what is in front of it. -/
theorem Reading.take_run_of_unreplaced [Insertion α] {I : Reading α β} {back : List (Span α)}
    {pos newPos p : Nat}
    (h : ∀ r ∈ Change.replacementsFrom true pos newPos back, p < r.start) (hpos : pos ≤ p)
    (hle : p ≤ pos + sumBy Span.length back) {doc : List β}
    (hdoc : sumBy Span.length back ≤ doc.length) :
    (I.run back doc).take (p - pos) = doc.take (p - pos) := by
  induction back generalizing pos newPos doc with
  | nil =>
    rw [sumBy_nil] at hle
    rw [show p - pos = 0 by omega, List.take_zero, List.take_zero]
  | cons s back ih =>
    rw [Change.replacementsFrom_each] at h
    rw [sumBy_cons] at hle hdoc
    by_cases hkept : s.isKept = true
    · rw [if_pos hkept] at h
      have hlength : (doc.take s.length).length = s.length := List.length_take_of_le (by omega)
      rw [run_cons, step_kept (by simpa [Span.isKept] using hkept)]
      by_cases hhere : p ≤ pos + s.length
      · rw [List.take_append_of_le_length (by omega), List.take_take,
          Nat.min_eq_left (by omega)]
      · have hbehind : sumBy Span.length back ≤ (doc.drop s.length).length := by
          rw [List.length_drop]
          omega
        have hrest := ih h (by omega) (by omega) hbehind
        rw [show p - pos = s.length + (p - (pos + s.length)) by omega, List.take_add (l := doc),
          ← hrest, ← List.take_length_add_append, hlength]
    · rw [if_neg hkept] at h
      have := h _ List.mem_cons_self
      simp only [Change.ownReplacement] at this
      omega

/-- A range that no run meets is moved by one distance, and what stands in it is found behind that
distance in what the spans make. -/
theorem Change.exists_moved [Insertion α] {c : Change α} {start stop : Nat} (hle : start ≤ stop)
    (hstop : stop ≤ c.length) (h : ∀ r ∈ c.replacements true, ¬ r.Meets start stop) :
    ∃ m, (∀ p, start ≤ p → p ≤ stop → ∀ side, c.newPlace p side = .ok (m + (p - start)))
      ∧ ∀ {β : Type} (I : Reading α β), (∀ s ∈ c.spans, I.Sound s) →
        ∀ doc : List β, doc.length = c.length →
          ((I.run c.spans doc).drop m).take (stop - start)
            = (doc.drop start).take (stop - start) := by
  obtain ⟨front, back, hspans, hfront, hback⟩ := exists_split_of_apart h
  have hlength : c.length = sumBy Span.length front + sumBy Span.length back := by
    rw [length, hspans, sumBy_append]
  have hreach : sumBy Span.length front ≤ start := by
    rcases hfront with rfl | hfront
    · exact Nat.zero_le start
    · omega
  rw [Nat.zero_add, Nat.zero_add] at hback
  refine ⟨sumBy Span.newLength front + (start - sumBy Span.length front), ?_, ?_⟩
  · intro p hp hpStop side
    have hfrontP : front = [] ∨ 0 + sumBy Span.length front < p :=
      hfront.imp_right fun h => h.trans_le hp
    have hplace := locateFrom_of_unreplaced (fun r hr => hpStop.trans_lt (hback r hr))
      (hreach.trans hp) (by omega) side
    refine newPlace_of_locate ?_
    rw [locate, hspans, locateFrom_append hfrontP, Nat.zero_add, Nat.zero_add, hplace]
    congr 2
    omega
  · intro β I hsound doc hdoc
    rw [hspans] at hsound
    have hroom : sumBy Span.length front ≤ doc.length := by omega
    have hrest : sumBy Span.length back ≤ (doc.drop (sumBy Span.length front)).length := by
      rw [List.length_drop]
      omega
    have hmade : (I.run front doc).length = sumBy Span.newLength front :=
      Reading.length_run_of_le (fun s hs => hsound s (List.mem_append_left back hs)) hroom
    have hkept := Reading.take_run_of_unreplaced (I := I) hback (hreach.trans hle) (by omega) hrest
    have hsum : start - sumBy Span.length front + (stop - start)
        = stop - sumBy Span.length front := by
      omega
    rw [hspans, Reading.run_append, ← List.drop_drop, List.drop_left' hmade, List.take_drop, hsum,
      hkept, ← hsum, ← List.take_drop, List.drop_drop, Nat.add_sub_cancel' hreach]

/-- Where words hold the length of the old document, no number of a search leaves its word. -/
theorem Change.contactFrom?_eq {start stop pos : Nat} {spans : List (Span α)}
    (h : pos + sumBy Span.length spans < wordCount) :
    contactFrom? start stop pos spans = some (contactFrom start stop pos spans) := by
  induction spans generalizing pos with
  | nil => rfl
  | cons s spans ih =>
    rw [sumBy_cons, ← Nat.add_assoc] at h
    have hbehind : word? (pos + s.length) = some (pos + s.length) := word?_of_lt (by omega)
    rw [contactFrom?, contactFrom, hbehind, Option.bind_eq_bind, Option.bind_some, ih h]
    split
    · rfl
    · split <;> rfl

/-- How a change lies to a range is told from all of its replaced runs: it covers the range if one
of them reaches past the range on both sides, it touches the range if none does but one meets the
range or borders on it, and otherwise it lies apart. Then all places of the range are moved by one
distance, on whichever side of insertions they keep, and the document that the change leads to holds
the text of the range behind that distance. A word has to hold the length of the old document, and
for the places that of the new one; the text is for lengths up to the limit of written changes. -/
theorem Revision.contact?_exact {fits : Nat → Prop} {c : Revision} {start stop : Nat}
    (hword : c.length < wordCount) (hle : start ≤ stop) (hstop : stop ≤ c.length) :
    (c.contact? start stop = some .covers
        ↔ ∃ r ∈ c.replacements true, r.start < start ∧ stop < r.stop)
      ∧ (c.contact? start stop = some .touches
        ↔ (¬ ∃ r ∈ c.replacements true, r.start < start ∧ stop < r.stop)
          ∧ ∃ r ∈ c.replacements true, r.start ≤ stop ∧ start ≤ r.stop)
      ∧ (c.contact? start stop = some .apart
        ↔ ¬ (∃ r ∈ c.replacements true, r.start < start ∧ stop < r.stop)
          ∧ ¬ ∃ r ∈ c.replacements true, r.start ≤ stop ∧ start ≤ r.stop)
      ∧ (c.contact? start stop = some .apart → c.newLength < wordCount → ∃ m,
        (∀ p, start ≤ p → p ≤ stop → ∀ side, c.newPlace? p side = .done (m + (p - start)))
          ∧ (Revision.Obtainable (· ≤ lengthLimit) c → ∀ doc, Rope.Reachable fits doc →
            doc.length = c.length → ∃ r, c.apply doc = .ok r
              ∧ (r.extract m (m + (stop - start)) == doc.extract start stop) = true)) := by
  have hchecked : c.contact? start stop = some (c.contact start stop) :=
    Change.contactFrom?_eq ((Nat.zero_add c.length).trans_lt hword)
  simp only [hchecked, Option.some.injEq]
  refine ⟨Change.contact_eq_iff c hle, ?_, ?_, fun hapart hnewWord => ?_⟩
  · rw [Change.contact_eq_iff c hle]
    constructor
    · rintro ⟨hmeets, hspans⟩
      exact ⟨fun ⟨r, hr, h⟩ => hspans r hr h, hmeets⟩
    · rintro ⟨hspans, hmeets⟩
      exact ⟨hmeets, fun r hr h => hspans ⟨r, hr, h⟩⟩
  · rw [Change.contact_eq_iff c hle]
    constructor
    · intro hnone
      have hmeets : ¬ ∃ r ∈ c.replacements true, r.Meets start stop :=
        fun ⟨r, hr, h⟩ => hnone r hr h
      exact ⟨fun ⟨r, hr, h⟩ => hmeets ⟨r, hr, Replacement.Spans.meets h hle⟩, hmeets⟩
    · rintro ⟨-, hmeets⟩ r hr h
      exact hmeets ⟨r, hr, h⟩
  · obtain ⟨m, hplaces, htext⟩ :=
      Change.exists_moved hle hstop ((Change.contact_eq_iff c hle).mp hapart)
    refine ⟨m, fun p hp hpStop side => ?_, fun hc doc hdoc hlength => ?_⟩
    · rw [Change.newPlace?_eq hword hnewWord, hplaces p hp hpStop side]
      rfl
    have hobeys := hdoc.obeys
    have hitems : doc.items.length = c.length := hobeys.length_items.trans hlength
    obtain ⟨r, hr, hrObeys, hrItems⟩ := Revision.apply_spec hc.sound hobeys hlength.symm
    have hrLength : r.length = c.newLength := by
      rw [← hrObeys.length_items, hrItems]
      exact Reading.length_run hc.sound hitems
    have hroom : m + (stop - start) ≤ r.length := by
      obtain ⟨q, -, hq, hbound⟩ := Change.exists_newPlace hstop .after
      obtain rfl := Except.ok.inj (hq.symm.trans (hplaces stop hle (Nat.le_refl stop) .after))
      exact hbound.trans_eq hrLength.symm
    refine ⟨r, hr, ?_⟩
    have hnew := Rope.items_extract hrObeys (Nat.le_add_right m _) hroom
    have hold := Rope.items_extract hobeys hle (hstop.trans_eq hlength.symm)
    have hextracted :
        (r.extract m (m + (stop - start))).items = (doc.extract start stop).items := by
      rw [hnew, hold, Nat.add_sub_cancel_left, hrItems]
      exact htext Rope.reading hc.sound doc.items hitems
    have hrange : ∀ {t : Rope}, t.Obeys Rope.shareRule →
        ∀ a b, (t.extract a b).Obeys Rope.shareRule :=
      fun ht a b => (Rope.extract_spec Rope.Rule.builds_shareRule ht a b).1
    exact (Rope.Obeys.beq_iff_items (hrange hrObeys _ _) (hrange hobeys _ _)).mpr hextracted

/-- The first of three characters, the last of which is removed. -/
theorem Revision.contact?_exact_three_characters :
    ((removeBehind 2).length < wordCount ∧ 0 ≤ 1 ∧ 1 ≤ (removeBehind 2).length
        ∧ (removeBehind 2).contact? 0 1 = some .apart ∧ (removeBehind 2).newLength < wordCount
        ∧ Rope.ofLines? ["abc"] = .ok (Rope.ofBlock ["abc"]))
      ∧ ∃ m r, (removeBehind 2).newPlace? 1 .after = .done (m + 1)
        ∧ (removeBehind 2).apply (Rope.ofBlock ["abc"]) = .ok r
        ∧ (r.extract m (m + 1) == (Rope.ofBlock ["abc"]).extract 0 1) = true := by
  have hfits : ∀ m ≤ 2 + 1, m ≤ lengthLimit := fun _ hm => Nat.le_trans hm (by decide)
  have hlines : Rope.ofLines? ["abc"] = .ok (Rope.ofBlock ["abc"]) := rfl
  have hdoc : Rope.Reachable (fun _ => True) (Rope.ofBlock ["abc"]) := .ofLines hlines
  have hword : (removeBehind 2).length < wordCount := by decide
  have hnewWord : (removeBehind 2).newLength < wordCount := by decide
  have hlength : (1 : Nat) ≤ (removeBehind 2).length := by decide
  have hapart : (removeBehind 2).contact? 0 1 = some .apart := by decide
  obtain ⟨m, hplaces, htext⟩ :=
    (Revision.contact?_exact hword (Nat.zero_le 1) hlength).2.2.2 hapart hnewWord
  obtain ⟨r, hr, hsame⟩ := htext (obtainable_removeBehind (by decide) hfits) _ hdoc rfl
  exact ⟨⟨hword, Nat.zero_le 1, hlength, hapart, hnewWord, hlines⟩, m, r,
    hplaces 1 (Nat.zero_le 1) (Nat.le_refl 1) .after, hr, hsame⟩

/-- A revision that tells of one character in the place of the first, inserts two, and keeps two. -/
def replaceFirstOfThree : Revision :=
  ⟨[⟨1, 1, Rope.ofBlock ["xy"]⟩, ⟨2, Span.keptMark, Rope.empty⟩]⟩

theorem obtainable_replaceFirstOfThree :
    Revision.Obtainable (fun _ => True) replaceFirstOfThree := by
  have hmake : (replaceShort 1).rebase (insertPairBehind 1).outline true
      = .ok replaceFirstOfThree := by cbv
  exact .rebase true obtainable_replaceShort
    (.outline (obtainable_insertPairBehind Nat.one_pos)) hmake ⟨trivial, trivial⟩

/-- A wrong count, which comes from 2⁶³ characters, leads from the last character of three to the
one in front of it, although no replaced run meets it. -/
theorem Revision.not_contact?_exact :
    Revision.Obtainable (fun _ => True) replaceFirstOfThree
      ∧ ∃ doc r, Rope.ofLines? ["pqr"] = .ok doc ∧ doc.length = replaceFirstOfThree.length
        ∧ replaceFirstOfThree.contact? 2 3 = some .apart
        ∧ (∀ side, replaceFirstOfThree.newPlace? 2 side = .done 2
          ∧ replaceFirstOfThree.newPlace? 3 side = .done 3)
        ∧ replaceFirstOfThree.apply doc = .ok r
        ∧ (r.extract 2 3).lines = ["q"] ∧ (doc.extract 2 3).lines = ["r"]
        ∧ (r.extract 2 3 == doc.extract 2 3) = false := by
  refine ⟨obtainable_replaceFirstOfThree, Rope.ofBlock ["pqr"], Rope.ofBlock ["xyqr"], rfl, rfl,
    by decide, fun side => ?_, by cbv, by cbv, by cbv, by cbv⟩
  cases side <;> exact ⟨rfl, rfl⟩

end TextRevision
