import TextRevision.Proofs.Change.Sequence

/-!
# Revisions undone

The inverse of a revision takes what was removed from the document that the revision was made to. A
replaced run is undone in the place to which it led, so that the spans of the inverse are laid over
what the spans of the revision make. Undoing gives the document back as long as lengths are held by
signed words. Without this bound a revision may insert more than its count tells, and then its
inverse does not fit what it leads to.

## Main statements

- `Revision.run_inverseFrom`: the spans of the inverse give back what the spans took
- `Revision.Obtainable.inverse_undoes`
-/

namespace TextRevision

namespace Revision

/-- An inverse is a revision of what the spans lead to. -/
theorem length_inverseFrom (doc : Rope) (pos : Nat) (spans : List (Span Rope)) :
    sumBy Span.length (inverseFrom doc pos spans) = sumBy Span.newLength spans := by
  induction spans generalizing pos with
  | nil => rfl
  | cons s spans ih =>
    have hfirst : (if s.isKept then (⟨s.length, s.count, Rope.empty⟩ : Span Rope)
        else ⟨s.count.toNat, signedWord s.length,
          if s.length = 0 then Rope.empty else doc.extract pos (pos + s.length)⟩).length
        = s.newLength := by
      rw [Span.newLength]
      split <;> rfl
    rw [inverseFrom, sumBy_cons, sumBy_cons, hfirst, ih]

/-- What was removed from a document is what is cut out of it, also where that is nothing. -/
theorem content_removed {doc : Rope} (hdoc : doc.Obeys Rope.shareRule) {pos len : Nat}
    (hle : pos + len ≤ doc.length) :
    Rope.reading.content (if len = 0 then Rope.empty else doc.extract pos (pos + len)) len
      = (doc.items.drop pos).take len := by
  by_cases hzero : len = 0
  · rw [if_pos hzero, hzero, List.take_zero]
    exact Reading.content_empty
  · have hextract := Rope.items_extract hdoc (Nat.le_add_right pos len) hle
    rw [Nat.add_sub_cancel_left] at hextract
    rw [if_neg hzero]
    exact hextract

/-- Behind place `pos`, the spans of an inverse make of what the spans lead to what these were made
to. -/
theorem run_inverseFrom {doc : Rope} (hdoc : doc.Obeys Rope.shareRule)
    (hlimit : doc.length ≤ lengthLimit) {spans : List (Span Rope)}
    (h : ∀ s ∈ spans, Rope.reading.Sound s) (pos : Nat)
    (hfits : pos + sumBy Span.length spans = doc.length) :
    Rope.reading.run (inverseFrom doc pos spans)
        (Rope.reading.run spans (doc.items.drop pos)) = doc.items.drop pos := by
  induction spans generalizing pos with
  | nil =>
    rw [sumBy_nil, Nat.add_zero, ← hdoc.length_items] at hfits
    rw [hfits, List.drop_length]
    rfl
  | cons s spans ih =>
    obtain ⟨hs, hspans⟩ := List.forall_mem_cons.mp h
    rw [sumBy_cons] at hfits
    have hrest := ih hspans (pos + s.length) (by omega)
    have hlength : (doc.items.drop pos).length = doc.length - pos := by
      rw [List.length_drop, hdoc.length_items]
    have hmade : (Rope.reading.step s (doc.items.drop pos)).length = s.newLength :=
      Reading.length_step hs (by omega)
    have hbehind : (doc.items.drop pos).drop s.length = doc.items.drop (pos + s.length) :=
      List.drop_drop
    have hwhole : (doc.items.drop pos).take s.length ++ doc.items.drop (pos + s.length)
        = doc.items.drop pos := by
      rw [← hbehind, List.take_append_drop]
    rw [inverseFrom, Reading.run_cons, Reading.run_cons, hbehind]
    by_cases hkept : s.count < 0
    · have hinverse : (⟨s.length, s.count, Rope.empty⟩ : Span Rope).count < 0 := hkept
      rw [Reading.step_kept hkept, Span.newLength_of_kept hkept] at hmade
      rw [if_pos (by simpa [Span.isKept] using hkept), Reading.step_kept hinverse,
        Reading.step_kept hkept, List.take_left' hmade, List.drop_left' hmade, hrest, hwhole]
    · have hput : 0 ≤ s.count := Int.not_lt.mp hkept
      have hsmall : s.length < signBound := lt_signBound (by omega)
      rw [Span.newLength_of_put hput] at hmade
      rw [if_neg (by simpa [Span.isKept] using hput), signedWord_of_lt hsmall,
        Reading.step_put (Int.natCast_nonneg s.length), List.drop_left' hmade, hrest,
        Int.toNat_natCast, content_removed hdoc (by omega), hwhole]

/-- The inverse of a revision that fits a document has spans which give its items back. -/
theorem inverse_spec {c : Revision} {doc : Rope} (hc : ∀ s ∈ c.spans, Rope.reading.Sound s)
    (hlimit : c.length ≤ lengthLimit) (hdoc : doc.Obeys Rope.shareRule)
    (hfits : c.length = doc.length) :
    ∃ d, c.inverse doc = .ok d ∧ (∀ s ∈ d.spans, Rope.reading.Sound s)
      ∧ d.length = (Rope.reading.run c.spans doc.items).length
      ∧ Rope.reading.run d.spans (Rope.reading.run c.spans doc.items) = doc.items := by
  have hinverse : c.inverse doc = .ok ⟨inverseFrom doc 0 c.spans⟩ := by
    rw [Revision.inverse_eq, if_pos hfits]
  refine ⟨_, hinverse, Revision.sound_inverse hc hdoc hlimit hinverse, ?_, ?_⟩
  · rw [Reading.length_run hc (hdoc.length_items.trans hfits.symm)]
    exact length_inverseFrom doc 0 c.spans
  · exact run_inverseFrom hdoc (hfits ▸ hlimit) hc 0 ((Nat.zero_add _).trans hfits)

end Revision

/-- A revision can be made to a document of its length, and undone again: the inverse is a revision
of what it leads to and gives back the lines of the document. A document of another length is
refused by both, with both lengths. All this is for lengths up to the limit of written changes. -/
theorem Revision.Obtainable.inverse_undoes {fits : Nat → Prop} {c : Revision} {doc : Rope}
    (hc : Revision.Obtainable (· ≤ lengthLimit) c) (hdoc : Rope.Reachable fits doc) :
    (doc.length = c.length → ∃ (inverse : Revision) (r s : Rope), c.apply doc = .ok r
        ∧ c.inverse doc = .ok inverse ∧ inverse.length = c.newLength
        ∧ inverse.apply r = .ok s ∧ s.lines = doc.lines)
      ∧ (doc.length ≠ c.length →
        c.apply doc = .error (.lengthMismatch c.length doc.length)
          ∧ c.inverse doc = .error (.lengthMismatch c.length doc.length)) := by
  have hobeys := hdoc.obeys
  refine ⟨fun hlength => ?_, fun hne => ?_⟩
  · have hlimit : doc.length ≤ lengthLimit := hlength ▸ hc.within.1
    have hitems : doc.items.length = c.length := hobeys.length_items.trans hlength
    obtain ⟨r, hr, hrObeys, hrItems⟩ := Revision.apply_spec hc.sound hobeys hlength.symm
    have hinverse : c.inverse doc = .ok ⟨inverseFrom doc 0 c.spans⟩ := by
      rw [Revision.inverse_eq, if_pos hlength.symm]
    have hsound := Revision.sound_inverse hc.sound hobeys hc.within.1 hinverse
    have hnew : (⟨inverseFrom doc 0 c.spans⟩ : Revision).length = c.newLength :=
      length_inverseFrom doc 0 c.spans
    have hrLength : c.newLength = r.length := by
      rw [← hrObeys.length_items, hrItems, Reading.length_run hc.sound hitems]
      rfl
    obtain ⟨s, hs, hsObeys, hsItems⟩ :=
      Revision.apply_spec hsound hrObeys (hnew.trans hrLength)
    have hundone := run_inverseFrom hobeys hlimit hc.sound 0
      ((Nat.zero_add _).trans hlength.symm)
    refine ⟨_, r, s, hr, hinverse, hnew, hs, Rope.lines_eq_of_items hsObeys hobeys ?_⟩
    rw [hsItems, hrItems]
    exact hundone
  · have hne' : c.length ≠ doc.length := Ne.symm hne
    exact ⟨by rw [Revision.apply_eq, if_neg hne'], by rw [Revision.inverse_eq, if_neg hne']⟩

/-- A character removed behind two others and put back. -/
theorem Revision.Obtainable.inverse_undoes_three_characters :
    Rope.ofLines? ["abc"] = .ok (Rope.ofBlock ["abc"])
      ∧ ∃ (inverse : Revision) (r s : Rope), (removeBehind 2).apply (Rope.ofBlock ["abc"]) = .ok r
        ∧ (removeBehind 2).inverse (Rope.ofBlock ["abc"]) = .ok inverse
        ∧ inverse.length = (removeBehind 2).newLength
        ∧ inverse.apply r = .ok s ∧ s.lines = (Rope.ofBlock ["abc"]).lines :=
  have hfits : ∀ m ≤ 2 + 1, m ≤ lengthLimit := fun _ hm => Nat.le_trans hm (by decide)
  have hlines : Rope.ofLines? ["abc"] = .ok (Rope.ofBlock ["abc"]) := rfl
  have hdoc : Rope.Reachable (fun _ => True) (Rope.ofBlock ["abc"]) := .ofLines hlines
  ⟨hlines, (Revision.Obtainable.inverse_undoes (obtainable_removeBehind (by decide) hfits)
    hdoc).1 rfl⟩

section Behind

/-- A revision that inserts two characters behind `n` others. -/
def insertPairBehind (n : Nat) : Revision :=
  ⟨[⟨n, Span.keptMark, Rope.empty⟩, ⟨0, 2, Rope.ofBlock ["xy"]⟩]⟩

/-- A revision that removes `n` characters in front of the last one. -/
def keepLast (n : Nat) : Revision :=
  ⟨[⟨n, 0, Rope.empty⟩, ⟨1, Span.keptMark, Rope.empty⟩]⟩

/-- A revision that tells of one character in the place of `n`, and inserts two. -/
def replaceShort (n : Nat) : Revision :=
  ⟨[⟨n, 1, Rope.ofBlock ["xy"]⟩]⟩

theorem obtainable_insertPairBehind {n : Nat} (hpos : 0 < n) :
    Revision.Obtainable (fun _ => True) (insertPairBehind n) := by
  have htext : Rope.ofString "xy" none = Rope.ofBlock ["xy"] := rfl
  have hword : signedWord (Rope.ofBlock ["xy"]).length = 2 := by decide
  have hmake : Revision.ofEdit (.replace n n (.string "xy")) n none
      = .ok (insertPairBehind n) := by
    have hsome : ¬ (n = n ∧ (Inserted.toRope none (.string "xy")).isEmpty = true) := by
      rintro ⟨-, hempty⟩
      cases hempty
    rw [Revision.ofEdit_replace (Nat.le_refl n) (Nat.le_refl _) hsome]
    simp only [Draft.putReplaced, Draft.batch, insertPairBehind, Span.push, Span.pushRun,
      Span.attach, Span.keep, Span.replace, Span.isVoid, Span.keptMark, Inserted.toRope, htext,
      hword]
    simp [Nat.ne_of_gt hpos]
    exact ⟨rfl, rfl⟩
  exact .ofEdit (.string n n trivial) hmake trivial trivial ⟨trivial, trivial⟩

theorem obtainable_keepLast {n : Nat} (hpos : 0 < n) :
    Revision.Obtainable (fun _ => True) (keepLast n) := by
  have hword : signedWord Rope.empty.length = 0 := by decide
  have hmake : Revision.ofEdit (.replace 0 n .nothing) (n + 1) none = .ok (keepLast n) := by
    rw [Revision.ofEdit_replace (Nat.zero_le n) (Nat.le_succ n)
      (fun h => Nat.ne_of_lt hpos h.1)]
    simp only [Draft.putReplaced, Draft.batch, keepLast, Span.push, Span.pushRun, Span.attach,
      Span.keep, Span.replace, Span.isVoid, Span.keptMark, Inserted.toRope, hword]
    simp [Nat.ne_of_gt hpos]
    exact ⟨rfl, rfl⟩
  exact .ofEdit (.nothing 0 n) hmake trivial trivial ⟨trivial, trivial⟩

/-- Behind 2⁶³ kept characters or more, an insertion is joined to them: its count is added to their
mark. -/
theorem removeBehind_andThen_insertPairBehind {n : Nat} (h : signBound ≤ n)
    (h' : n + 1 < wordCount) :
    (removeBehind n).andThen (insertPairBehind n) = .ok (replaceShort (n + 1)) := by
  have hpos : n ≠ 0 := by
    rintro rfl
    simp [signBound] at h
  have hword : signedWord n < -1 := by
    rw [signedWord_of_le h (Nat.lt_of_succ_lt h')]
    omega
  have hmeet : (removeBehind n).newLength = (insertPairBehind n).length := rfl
  have hfirst : ¬ (removeBehind n).isEmpty = true := Bool.false_ne_true
  have hsecond : ¬ (insertPairBehind n).isEmpty = true := Bool.false_ne_true
  rw [Change.andThen_eq, if_pos hmeet, if_neg hfirst, if_neg hsecond]
  simp [removeBehind, insertPairBehind, replaceShort, Change.composeSpans, Rest.ofSpan,
    Rest.forwardNew, Rest.forward, Span.push, Span.attach, Span.pushRun, Change.meet,
    Change.staysOpen, Span.isVoid, Span.keptMark, Span.endMark, Rest.newLength, Rest.remainder,
    hpos, hword]
  rfl

/-- Where all the characters but the last are removed, only the last is left to be replaced. -/
theorem replaced_rebase_keepLast {n : Nat} (hpos : 0 < n) (k : Nat) (text : Rope) :
    (⟨[⟨n + 1, k, text⟩]⟩ : Revision).rebase (keepLast n).outline false
      = .ok ⟨[⟨1, k, Insertion.join Rope.empty text⟩]⟩ := by
  have hsame : (keepLast n).length = (⟨[⟨n + 1, k, text⟩]⟩ : Revision).length := rfl
  have hsome : ¬ (keepLast n).isEmpty = true := Bool.false_ne_true
  have hput : ¬ (k : Int) < 0 := Int.not_lt.mpr (Int.natCast_nonneg k)
  have hmark : ¬ (k : Int) = Span.keptMark := fun h => hput (h ▸ by decide)
  have hend : ¬ (k : Int) = Span.endMark := fun h => hput (h ▸ by decide)
  have habsorb : Change.absorb [Rest.ofSpan ⟨n + 1, k, text⟩] false n []
      = some ([⟨1, k, text, n⟩], false, []) := by
    obtain ⟨m, rfl⟩ := Nat.exists_eq_succ_of_ne_zero (Nat.ne_of_gt hpos)
    have hlong : ¬ m + 1 + 1 ≤ m + 1 := Nat.not_succ_le_self _
    simp [Change.absorb, Rest.ofSpan, Rest.forward, hlong]
  have hwalk : Change.rebaseSpans false ([⟨n + 1, k, text⟩].map Rest.ofSpan) false
      ((keepLast n).spans.map Rest.ofSpan) []
      = .finished [⟨1, k, Insertion.join Rope.empty text⟩] := by
    simp only [keepLast, List.map_cons, List.map_nil]
    -- The removed run is the shorter one, so that the walk passes it first.
    rw [Change.rebaseSpans, if_neg (by simp [Rest.ofSpan, Span.endMark]),
      if_neg (by simp [Rest.ofSpan, Span.keptMark]),
      if_pos (by simp [Rest.ofSpan, Change.yieldsTo])]
    split
    · next as' told' later hrest =>
      obtain ⟨rfl, rfl, rfl⟩ : [⟨1, k, text, n⟩] = as' ∧ false = told' ∧ [] = later := by
        simpa using habsorb.symm.trans hrest
      simp [Change.rebaseSpans, Rest.ofSpan, Span.push, Span.attach, Span.pushRun, Span.isVoid,
        Change.yieldsTo, Change.passKept, hput, hmark, hend]
      rfl
    · next hrest => cases habsorb.symm.trans hrest
  rw [Change.rebase_outline, Change.rebase_eq, if_pos hsame, if_neg hsome, hwalk]

theorem replaceShort_rebase_keepLast {n : Nat} (hpos : 0 < n) :
    (replaceShort (n + 1)).rebase (keepLast n).outline false = .ok (replaceShort 1) :=
  replaced_rebase_keepLast hpos 1 (Rope.ofBlock ["xy"])

end Behind

/-- A revision with a wrong count, which comes from 2⁶³ characters, is made to a document of one
character. What undoes it is refused. -/
theorem Revision.Obtainable.not_inverse_undoes :
    ∃ c doc, Revision.Obtainable (fun _ => True) c ∧ Rope.Reachable (fun _ => True) doc
      ∧ doc.length = c.length
      ∧ ∃ inverse r, c.apply doc = .ok r ∧ c.inverse doc = .ok inverse
        ∧ inverse.apply r = .error (.lengthMismatch 1 2) := by
  have hlines : Rope.ofLines? ["q"] = .ok (Rope.ofBlock ["q"]) := rfl
  have hjoined : Revision.Obtainable (fun _ => True) (replaceShort 9223372036854775809) :=
    .andThen (obtainable_removeBehind (n := 9223372036854775808) (by decide) fun _ _ => trivial)
      (obtainable_insertPairBehind (by decide))
      (removeBehind_andThen_insertPairBehind (by decide) (by decide)) ⟨trivial, trivial⟩
  have hshort : Revision.Obtainable (fun _ => True) (replaceShort 1) :=
    .rebase false hjoined (.outline (obtainable_keepLast (n := 9223372036854775808) (by decide)))
      (replaceShort_rebase_keepLast (by decide)) ⟨trivial, trivial⟩
  exact ⟨replaceShort 1, Rope.ofBlock ["q"], hshort, .ofLines hlines, rfl, _, _, rfl, rfl, rfl⟩

end TextRevision
