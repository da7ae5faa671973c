import TextRevision.Proofs.Change.Soundness

/-!
# Revisions in sequence

A revision that is put behind another does to a document what both do one after the other, as long
as lengths are held by signed words. Without this bound it does not: behind 2⁶³ kept characters the
walk takes the number of characters for a negative one, and joins to them what comes next.

## Main statements

- `Revision.Obtainable.andThen_refines`
- `removeBehind_andThen_insertBehind`: what happens behind too many characters
-/

namespace TextRevision

/-- There are reachable documents of every length. -/
theorem Rope.exists_reachable (fits : Nat → Prop) (n : Nat) :
    ∃ doc, Rope.Reachable fits doc ∧ doc.length = n := by
  have hbreak : Rope.ofLines? ["", ""] = .ok (Rope.ofBlock ["", ""]) := rfl
  induction n with
  | zero => exact ⟨Rope.empty, .empty, rfl⟩
  | succ n ih =>
    obtain ⟨doc, hdoc, hlength⟩ := ih
    obtain ⟨hobeys, hitems⟩ := append_spec Rule.builds_shareRule Rule.swaps_shareRule hdoc.obeys
      (ReachableBy.ofLines hbreak : Reachable fits _).obeys
    refine ⟨_, .append hdoc (.ofLines hbreak), ?_⟩
    rw [← hobeys.length_items, hitems, List.length_append, hdoc.obeys.length_items, hlength]
    rfl

/-- One replaced range makes one batch. -/
theorem Revision.ofEdit_replace {start stop length : Nat} {text : Inserted} {sep : Option String}
    (hle : start ≤ stop) (hstop : stop ≤ length)
    (hsome : ¬ (start = stop ∧ (text.toRope sep).isEmpty = true)) :
    Revision.ofEdit (.replace start stop text) length sep
      = .ok ((⟨length, sep, [], 0, none⟩ : Draft).putReplaced start stop
          (text.toRope sep)).batch := by
  have hrange : ¬ (stop < start ∨ length < stop) := by omega
  have hadd : Draft.add ⟨length, sep, [], 0, none⟩ (.replace start stop text)
      = .ok ((⟨length, sep, [], 0, none⟩ : Draft).putReplaced start stop (text.toRope sep)) := by
    rw [Draft.add]
    dsimp only
    rw [if_neg hrange, Draft.replace, if_neg hsome]
    rfl
  rw [Revision.ofEdit, Edit.atoms, List.foldlM_cons, hadd]
  rfl

/-- A revision that removes a character behind `n` others. -/
def removeBehind (n : Nat) : Revision :=
  ⟨[⟨n, Span.keptMark, Rope.empty⟩, ⟨1, 0, Rope.empty⟩]⟩

/-- A revision that inserts a character behind `n` others. -/
def insertBehind (n : Nat) : Revision :=
  ⟨[⟨n, Span.keptMark, Rope.empty⟩, ⟨0, 1, Rope.ofBlock ["x"]⟩]⟩

@[simp] theorem newLength_insertBehind (n : Nat) : (insertBehind n).newLength = n + 1 := rfl

theorem obtainable_removeBehind {fits : Nat → Prop} {n : Nat} (hpos : 0 < n)
    (hfits : ∀ m ≤ n + 1, fits m) : Revision.Obtainable fits (removeBehind n) := by
  have hword : signedWord Rope.empty.length = 0 := by decide
  have hmake : Revision.ofEdit (.replace n (n + 1) .nothing) (n + 1) none
      = .ok (removeBehind n) := by
    rw [Revision.ofEdit_replace (Nat.le_succ n) (Nat.le_refl _) (by simp)]
    simp only [Draft.putReplaced, Draft.batch, removeBehind, Span.push, Span.pushRun, Span.attach,
      Span.keep, Span.replace, Span.isVoid, Span.keptMark, Inserted.toRope, hword]
    simp [Nat.ne_of_gt hpos]
    exact ⟨rfl, rfl⟩
  exact .ofEdit (.nothing n (n + 1)) hmake (hfits _ (Nat.le_refl _)) (hfits 0 (Nat.zero_le _))
    ⟨hfits _ (Nat.le_refl _), hfits _ (Nat.le_succ n)⟩

theorem obtainable_insertBehind {fits : Nat → Prop} {n : Nat} (hpos : 0 < n)
    (hfits : ∀ m ≤ n + 1, fits m) : Revision.Obtainable fits (insertBehind n) := by
  have htext : Rope.ofString "x" none = Rope.ofBlock ["x"] := rfl
  have hword : signedWord (Rope.ofBlock ["x"]).length = 1 := by decide
  have hvolume : Edit.volume none (.replace n n (.string "x")) = 1 := rfl
  have hmake : Revision.ofEdit (.replace n n (.string "x")) n none = .ok (insertBehind n) := by
    have hsome : ¬ (n = n ∧ (Inserted.toRope none (.string "x")).isEmpty = true) := by
      rintro ⟨-, hempty⟩
      cases hempty
    rw [Revision.ofEdit_replace (Nat.le_refl n) (Nat.le_refl _) hsome]
    simp only [Draft.putReplaced, Draft.batch, insertBehind, Span.push, Span.pushRun, Span.attach,
      Span.keep, Span.replace, Span.isVoid, Span.keptMark, Inserted.toRope, htext, hword]
    simp [Nat.ne_of_gt hpos]
    exact ⟨rfl, rfl⟩
  refine .ofEdit (.string n n trivial) hmake (hfits _ (Nat.le_succ _)) ?_
    ⟨hfits _ (Nat.le_succ n), hfits _ (Nat.le_refl _)⟩
  rw [hvolume]
  exact hfits 1 (Nat.succ_le_succ (Nat.zero_le n))

/-- A revision of six characters that removes three behind the first, and inserts two in a run of
their own. -/
def removeThenInsert : Revision :=
  ⟨[⟨1, Span.keptMark, Rope.empty⟩, ⟨3, 0, Rope.empty⟩, ⟨0, 2, Rope.ofBlock ["xy"]⟩,
    ⟨2, Span.keptMark, Rope.empty⟩]⟩

theorem obtainable_removeThenInsert :
    Revision.Obtainable (· ≤ lengthLimit) removeThenInsert := by
  have hmake : Revision.ofEdit (.many [.replace 1 4 .nothing, .replace 4 4 (.string "xy")]) 6 none
      = .ok removeThenInsert := by cbv
  refine .ofEdit (.many ?_) hmake (by decide) (by decide) ⟨by decide, by decide⟩
  refine List.forall_mem_cons.mpr ⟨.nothing 1 4, List.forall_mem_singleton.mpr ?_⟩
  exact .string 4 4 trivial

/-- Behind 2⁶³ kept characters or more, what comes next is joined to them: all the characters are
removed. -/
theorem removeBehind_andThen_insertBehind {n : Nat} (h : signBound ≤ n) (h' : n + 1 < wordCount) :
    (removeBehind n).andThen (insertBehind n) = .ok ⟨[⟨n + 1, 0, Rope.ofBlock ["x"]⟩]⟩ := by
  have hpos : n ≠ 0 := by
    rintro rfl
    simp [signBound] at h
  have hword : signedWord n < -1 := by
    rw [signedWord_of_le h (Nat.lt_of_succ_lt h')]
    omega
  have hmeet : (removeBehind n).newLength = (insertBehind n).length := rfl
  have hfirst : ¬ (removeBehind n).isEmpty = true := Bool.false_ne_true
  have hsecond : ¬ (insertBehind n).isEmpty = true := Bool.false_ne_true
  rw [Change.andThen_eq, if_pos hmeet, if_neg hfirst, if_neg hsecond]
  simp [removeBehind, insertBehind, Change.composeSpans, Rest.ofSpan, Rest.forwardNew, Rest.forward,
    Span.push, Span.attach, Span.pushRun, Change.meet, Change.staysOpen, Span.isVoid, Span.keptMark,
    Span.endMark, Rest.newLength, Rest.remainder, hpos, hword]
  rfl

/-- Where two revisions meet in one document, the one put behind the other can be made to any
document of its length, and leads to the lines that both lead to one after the other. Otherwise it
is refused with both lengths. All this is for lengths up to the limit of written changes. -/
theorem Revision.Obtainable.andThen_refines {fits : Nat → Prop} {a b : Revision} {doc : Rope}
    (ha : Revision.Obtainable (· ≤ lengthLimit) a) (hb : Revision.Obtainable (· ≤ lengthLimit) b)
    (hdoc : Rope.Reachable fits doc) (hlength : doc.length = a.length) :
    (a.newLength = b.length → ∃ (c : Revision) (mid r s : Rope), a.andThen b = .ok c
        ∧ c.length = a.length ∧ c.newLength = b.newLength ∧ a.apply doc = .ok mid
        ∧ b.apply mid = .ok r ∧ c.apply doc = .ok s ∧ s.lines = r.lines)
      ∧ (a.newLength ≠ b.length →
        a.andThen b = .error (.lengthMismatch a.newLength b.length)) := by
  have hobeys := hdoc.obeys
  have hitems : doc.items.length = a.length := hobeys.length_items.trans hlength
  refine ⟨fun hfits => ?_, fun hne => ?_⟩
  · obtain ⟨c, hc, hcsound, hclength, -, hrun⟩ :=
      Reading.andThen_spec ha.sound hb.sound ha.within.newLength_lt hfits
    obtain ⟨mid, hmid, hmidObeys, hmidItems⟩ := Revision.apply_spec ha.sound hobeys hlength.symm
    have hmidLength : b.length = mid.length := by
      rw [← hmidObeys.length_items, hmidItems, Reading.length_run ha.sound hitems, ← hfits]
      rfl
    obtain ⟨r, hr, hrObeys, hrItems⟩ := Revision.apply_spec hb.sound hmidObeys hmidLength
    obtain ⟨s, hs, hsObeys, hsItems⟩ :=
      Revision.apply_spec hcsound hobeys (hclength.trans hlength.symm)
    have hnew := Reading.newLength_andThen ha.sound hb.sound hcsound hfits hclength hitems
      (hrun doc.items hitems)
    refine ⟨c, mid, r, s, hc, hclength, hnew, hmid, hr, hs, ?_⟩
    refine Rope.lines_eq_of_items hsObeys hrObeys ?_
    rw [hsItems, hrun doc.items hitems, hrItems, hmidItems]
  · rw [Change.andThen_eq, if_neg hne]

/-- A character put in the place of the last of three. -/
theorem Revision.Obtainable.andThen_refines_three_characters :
    Rope.ofLines? ["abc"] = .ok (Rope.ofBlock ["abc"])
      ∧ ∃ (c : Revision) (mid r s : Rope), (removeBehind 2).andThen (insertBehind 2) = .ok c
        ∧ c.length = 3 ∧ c.newLength = 3 ∧ (removeBehind 2).apply (Rope.ofBlock ["abc"]) = .ok mid
        ∧ (insertBehind 2).apply mid = .ok r ∧ c.apply (Rope.ofBlock ["abc"]) = .ok s
        ∧ s.lines = r.lines :=
  have hfits : ∀ m ≤ 2 + 1, m ≤ lengthLimit := fun _ hm => Nat.le_trans hm (by decide)
  have hlines : Rope.ofLines? ["abc"] = .ok (Rope.ofBlock ["abc"]) := rfl
  have hdoc : Rope.Reachable (fun _ => True) (Rope.ofBlock ["abc"]) := .ofLines hlines
  ⟨hlines, (Revision.Obtainable.andThen_refines (obtainable_removeBehind (by decide) hfits)
    (obtainable_insertBehind (by decide) hfits) hdoc rfl).1 rfl⟩

/-- So the length that results is not that of the second change. -/
theorem Revision.Obtainable.not_andThen_refines :
    ∃ doc, Rope.Reachable (fun _ => True) doc
      ∧ doc.length = (removeBehind 9223372036854775808).length
      ∧ Revision.Obtainable (fun _ => True) (removeBehind 9223372036854775808)
      ∧ Revision.Obtainable (fun _ => True) (insertBehind 9223372036854775808)
      ∧ (removeBehind 9223372036854775808).newLength = (insertBehind 9223372036854775808).length
      ∧ ∃ c : Revision,
          (removeBehind 9223372036854775808).andThen (insertBehind 9223372036854775808) = .ok c
          ∧ c.newLength ≠ (insertBehind 9223372036854775808).newLength := by
  obtain ⟨doc, hdoc, hlength⟩ := Rope.exists_reachable (fun _ => True) 9223372036854775809
  refine ⟨doc, hdoc, hlength, obtainable_removeBehind (by decide) (fun _ _ => trivial),
    obtainable_insertBehind (by decide) (fun _ _ => trivial), rfl, _,
    removeBehind_andThen_insertBehind (by decide) (by decide), ?_⟩
  rw [newLength_insertBehind]
  decide

end TextRevision
