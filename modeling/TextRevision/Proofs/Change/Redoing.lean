import TextRevision.Proofs.Change.Rereading

/-!
# Revisions undone twice

What undoes a revision can itself be undone, in the document that the revision leads to. This turns
the two lengths of each span about and back again, and takes from the new document what the span
inserted there, so that the revision itself comes out: no run is made, lost or merged on the way,
and no insertion is told where none was.

## Main statements

- `Span.inverse_inverse`, `Outline.inverse_inverse`
- `Revision.items_inverseFrom_inverseFrom`: the insertions that are taken back
- `Revision.Obtainable.inverse_inverse_same`
-/

namespace TextRevision

/-- The two lengths of a span are turned about and back again. -/
theorem Span.inverse_inverse {s : Span Unit} (hlength : s.length < signBound)
    (hvolume : s.volume < signBound) : s.inverse.inverse = s := by
  by_cases hkept : s.isKept = true
  · have hsame : s.inverse = s := by rw [Span.inverse, if_pos hkept]
    rw [hsame, hsame]
  · have hput : 0 ≤ s.count := by simpa [isKept] using hkept
    have hinverse : s.inverse = ⟨s.count.toNat, s.length, ()⟩ := by
      rw [Span.inverse, if_neg hkept, signedWord_of_lt hlength]
    have hturned : ¬ s.inverse.isKept = true := by
      rw [hinverse]
      simp [isKept]
    rw [Span.inverse, if_neg hturned, hinverse]
    dsimp only
    rw [signedWord_of_lt (show s.count.toNat < signBound from hvolume), Int.toNat_of_nonneg hput,
      Int.toNat_natCast]

/-- Undoing what undoes a change does the same as the change. -/
theorem Outline.inverse_inverse {c : Outline} (hlength : c.length ≤ lengthLimit)
    (hnew : c.newLength ≤ lengthLimit) : c.inverse.inverse = c := by
  have hspans : c.spans.map (fun s => s.inverse.inverse) = c.spans.map id := by
    refine List.map_congr_left fun s hs => Span.inverse_inverse ?_ ?_
    · exact lt_signBound ((le_sumBy Span.length hs).trans hlength)
    · exact lt_signBound (s.volume_le_newLength.trans ((le_sumBy Span.newLength hs).trans hnew))
  rw [inverse, inverse, List.map_map]
  exact congrArg Change.mk (hspans.trans (List.map_id _))

namespace Revision

/-- The outline of what undoes a revision is what undoes its outline. -/
theorem outline_inverse {c d : Revision} {doc : Rope} (h : c.inverse doc = .ok d) :
    d.outline = c.outline.inverse := by
  rw [Revision.inverse_eq] at h
  split at h
  · obtain rfl := Except.ok.inj h
    rw [Change.outline, Change.outline, Outline.inverse, List.map_map]
    exact congrArg Change.mk (shape_inverseFrom doc 0 c.spans)
  · cases h

/-- Sound spans whose documents have the same items insert the same items. -/
theorem forall₂_insertionOf {spans others : List (Span Rope)}
    (hspans : ∀ s ∈ spans, Rope.reading.Sound s) (hothers : ∀ t ∈ others, Rope.reading.Sound t)
    (h : List.Forall₂ (fun s t => s.text.items = t.text.items) spans others) :
    List.Forall₂ (fun s t => (insertionOf s).Alike (insertionOf t)) spans others := by
  induction h with
  | nil => exact List.Forall₂.nil
  | cons hitems _ ih =>
    obtain ⟨hs, hspans⟩ := List.forall_mem_cons.mp hspans
    obtain ⟨ht, hothers⟩ := List.forall_mem_cons.mp hothers
    exact List.Forall₂.cons (alike_insertionOf ⟨hs.proper.1, ht.proper.1, hitems⟩)
      (ih hspans hothers)

section Twice

variable {doc made : Rope}

theorem inverseFrom_kept {s : Span Rope} (h : s.isKept = true) (doc : Rope) (pos : Nat)
    (rest : List (Span Rope)) :
    inverseFrom doc pos (s :: rest)
      = ⟨s.length, s.count, Rope.empty⟩ :: inverseFrom doc (pos + s.length) rest := by
  rw [inverseFrom, if_pos h]

theorem inverseFrom_put {s : Span Rope} (h : ¬ s.isKept = true) (hsmall : s.length < signBound)
    (doc : Rope) (pos : Nat) (rest : List (Span Rope)) :
    inverseFrom doc pos (s :: rest)
      = ⟨s.count.toNat, s.length,
          if s.length = 0 then Rope.empty else doc.extract pos (pos + s.length)⟩
        :: inverseFrom doc (pos + s.length) rest := by
  rw [inverseFrom, if_neg h, signedWord_of_lt hsmall]

/-- From place `newPos` on, each span takes its insertion back from what the spans make. -/
theorem items_inverseFrom_inverseFrom (hmade : made.Obeys Rope.shareRule)
    (hdocLimit : doc.items.length ≤ lengthLimit) (hmadeLimit : made.length ≤ lengthLimit)
    {spans : List (Span Rope)} (h : ∀ s ∈ spans, Rope.reading.Sound s) (pos newPos : Nat)
    (hfits : pos + sumBy Span.length spans ≤ doc.items.length)
    (hnew : newPos + sumBy Span.newLength spans = made.length)
    (hrun : made.items.drop newPos = Rope.reading.run spans (doc.items.drop pos)) :
    List.Forall₂ (fun t s => t.text.items = s.text.items)
      (inverseFrom made newPos (inverseFrom doc pos spans)) spans := by
  induction spans generalizing pos newPos with
  | nil => exact List.Forall₂.nil
  | cons s spans ih =>
    obtain ⟨hs, hspans⟩ := List.forall_mem_cons.mp h
    rw [sumBy_cons] at hfits hnew
    rw [Reading.run_cons, List.drop_drop] at hrun
    have hlength : (Rope.reading.step s (doc.items.drop pos)).length = s.newLength :=
      Reading.length_step hs (by rw [List.length_drop]; omega)
    have hbehind : made.items.drop (newPos + s.newLength)
        = Rope.reading.run spans (doc.items.drop (pos + s.length)) := by
      rw [← List.drop_drop, hrun, List.drop_left' hlength]
    have hrest := ih hspans (pos + s.length) (newPos + s.newLength) (by omega)
      (by omega) hbehind
    by_cases hkept : s.isKept = true
    · have hturned : Span.isKept (⟨s.length, s.count, Rope.empty⟩ : Span Rope) = true := hkept
      have hmark : s.count < 0 := by simpa [Span.isKept] using hkept
      have hnone : s.text.items = [] := by
        have hzero : s.count.toNat = 0 := by omega
        exact Reading.content_zero (I := Rope.reading) (hzero ▸ hs.proper)
      rw [Span.newLength_of_kept hmark] at hrest
      rw [inverseFrom_kept hkept, inverseFrom_kept hturned]
      exact List.Forall₂.cons hnone.symm hrest
    · have hput : 0 ≤ s.count := by simpa [Span.isKept] using hkept
      rw [Span.newLength_of_put hput] at hrest hlength hnew
      have hsmall : s.length < signBound := lt_signBound (by omega)
      have hcount : s.count.toNat < signBound := lt_signBound (by omega)
      -- What stands in the new document from there on is the insertion, and then the rest.
      have hroom : newPos + s.count.toNat ≤ made.length := by omega
      have htaken := content_removed hmade hroom
      rw [hrun, List.take_left' hlength, Reading.step_put hput] at htaken
      rw [inverseFrom_put hkept hsmall, inverseFrom_put (by simp [Span.isKept]) hcount]
      exact List.Forall₂.cons htaken hrest

end Twice

end Revision

/-- A revision is what undoes its inverse in the document that it leads to: with the same spans, and
with insertions of the same lines in the same places, as many of them being told. Of outlines, the
same holds without documents. All this is for lengths up to the limit of written changes. -/
theorem Revision.Obtainable.inverse_inverse_same {fits : Nat → Prop} {c : Revision} {doc : Rope}
    (hc : Revision.Obtainable (· ≤ lengthLimit) c) (hdoc : Rope.Reachable fits doc)
    (hlength : doc.length = c.length) :
    (∃ (made : Rope) (inverse again : Revision), c.apply doc = .ok made
        ∧ c.inverse doc = .ok inverse ∧ inverse.inverse made = .ok again
        ∧ again.same c = true ∧ again.outline = c.outline
        ∧ again.inserted.map Rope.lines = c.inserted.map Rope.lines)
      ∧ c.outline.inverse.inverse = c.outline := by
  obtain ⟨hlimit, hnewLimit⟩ := hc.within
  have hobeys := hdoc.obeys
  have hitems : doc.items.length = c.length := hobeys.length_items.trans hlength
  obtain ⟨made, hmade, hmadeObeys, hmadeItems⟩ :=
    Revision.apply_spec hc.sound hobeys hlength.symm
  have hmadeLength : made.length = c.newLength := by
    rw [← hmadeObeys.length_items, hmadeItems]
    exact Reading.length_run hc.sound hitems
  have hmadeLimit : made.length ≤ lengthLimit := hmadeLength.trans_le hnewLimit
  have hinverse : c.inverse doc = .ok ⟨inverseFrom doc 0 c.spans⟩ := by
    rw [Revision.inverse_eq, if_pos hlength.symm]
  have hturned : Change.length ⟨inverseFrom doc 0 c.spans⟩ = made.length :=
    (length_inverseFrom doc 0 c.spans).trans hmadeLength.symm
  have hagain : Revision.inverse ⟨inverseFrom doc 0 c.spans⟩ made
      = .ok ⟨inverseFrom made 0 (inverseFrom doc 0 c.spans)⟩ := by
    rw [Revision.inverse_eq, if_pos hturned]
  have htwice : c.outline.inverse.inverse = c.outline :=
    Outline.inverse_inverse (c.length_outline ▸ hlimit) (c.newLength_outline ▸ hnewLimit)
  have houtline : Change.outline ⟨inverseFrom made 0 (inverseFrom doc 0 c.spans)⟩ = c.outline := by
    rw [outline_inverse hagain, outline_inverse hinverse, htwice]
  have hinserted : List.Forall₂ Rope.Alike
      (insertedOf (inverseFrom made 0 (inverseFrom doc 0 c.spans))) c.inserted := by
    have hsound := Revision.sound_inverse hc.sound hobeys hlimit hinverse
    have hsoundAgain := Revision.sound_inverse hsound hmadeObeys
      (hturned.trans_le hmadeLimit) hagain
    have hback := items_inverseFrom_inverseFrom hmadeObeys (hitems.trans_le hlimit) hmadeLimit
      hc.sound 0 0 ((Nat.zero_add _).trans_le hitems.ge) ((Nat.zero_add _).trans hmadeLength.symm)
      hmadeItems
    exact forall₂_insertedOf (forall₂_insertionOf hsoundAgain hc.sound hback)
  refine ⟨⟨made, _, _, hmade, hinverse, hagain, ?_, houtline, Rope.Alike.map_lines_eq hinserted⟩,
    htwice⟩
  rw [same, houtline, inserted, Rope.Alike.beq_list hinserted]
  simp

/-- Three of six characters removed and two inserted behind them, undone, and done again. -/
theorem Revision.Obtainable.inverse_inverse_same_six_characters :
    Rope.ofLines? ["ab", "def"] = .ok (Rope.ofBlock ["ab", "def"])
      ∧ ∃ (made : Rope) (inverse again : Revision),
        removeThenInsert.apply (Rope.ofBlock ["ab", "def"]) = .ok made
          ∧ removeThenInsert.inverse (Rope.ofBlock ["ab", "def"]) = .ok inverse
          ∧ inverse.inverse made = .ok again ∧ again.same removeThenInsert = true
          ∧ again.outline = removeThenInsert.outline
          ∧ again.inserted.map Rope.lines = [[""], [""], ["xy"]] := by
  have hlines : Rope.ofLines? ["ab", "def"] = .ok (Rope.ofBlock ["ab", "def"]) := rfl
  have hdoc : Rope.Reachable (fun _ => True) (Rope.ofBlock ["ab", "def"]) := .ofLines hlines
  obtain ⟨⟨made, inverse, again, hmade, hinverse, hagain, hsame, houtline, hinserted⟩, -⟩ :=
    Revision.Obtainable.inverse_inverse_same obtainable_removeThenInsert hdoc rfl
  exact ⟨hlines, made, inverse, again, hmade, hinverse, hagain, hsame, houtline, hinserted⟩

/-- A deletion that inserts a character without telling of it is undone to one that inserts none. -/
theorem Revision.Obtainable.not_inverse_inverse_same :
    Revision.Obtainable (fun _ => True) removeFilled
      ∧ ∃ doc, Rope.ofLines? ["q"] = .ok doc ∧ doc.length = removeFilled.length
        ∧ ∃ (made : Rope) (inverse again : Revision), removeFilled.apply doc = .ok made
          ∧ removeFilled.inverse doc = .ok inverse ∧ inverse.inverse made = .ok again
          ∧ again.inserted = [] ∧ again.same removeFilled = false := by
  refine ⟨obtainable_removeFilled, Rope.ofBlock ["q"], rfl, rfl, Rope.empty, _, _, rfl, rfl, rfl,
    ?_, ?_⟩
  · cbv
  · cbv

end TextRevision
