import TextRevision.Change.Divide
import TextRevision.Proofs.Change.Applying
import TextRevision.Proofs.Change.Rebasing
import TextRevision.Proofs.Change.Shapes
import TextRevision.Proofs.Rope.Balance

/-!
# The operations make sound changes

Whatever way a change is made, its spans have counts that their insertions have and none of them is
void. Counts are put into signed words where text is read, where a removal is undone and where an
insertion is cut, so all this is held to lengths up to the limit of written changes.

## Main definitions

- `Outline.reading`: outlines as changes that insert fillers
- `Draft.Held`: what is known of a draft

## Main statements

- `Revision.sound_ofJson`, `Outline.sound_ofJson`
- `Revision.sound_inverse`, `Outline.sound_inverse`
- `Change.sound_divide`, `Revision.sound_ofEdit`
-/

namespace TextRevision

variable {α δ : Type} [Insertion α]

/-- An outline tells how many items are inserted, not which. -/
def Outline.reading : Reading Unit Item :=
  Reading.filled none

namespace Reading

variable {I : Reading α δ}

theorem sound_push {spans : List (Span α)} {s : Span α} (hspans : ∀ t ∈ spans, I.Sound t)
    (hs : I.Fit s) : ∀ t ∈ Span.push false spans s, I.Sound t :=
  (push_unjoined hspans hs).sound

theorem sound_unchanged (length : Nat) :
    ∀ s ∈ (Change.unchanged length : Change α).spans, I.Sound s := by
  rw [Change.unchanged]
  dsimp only
  split
  · next hpos =>
    refine List.forall_mem_singleton.mpr ⟨fit_keep length, ?_⟩
    simp [Span.isVoid, Span.keep, Nat.ne_of_gt hpos]
  · simp

theorem sound_collect {parts spans spans' : List (Span α)} {totals : Totals}
    (hparts : ∀ s ∈ parts, I.Fit s) (hspans : ∀ s ∈ spans, I.Sound s)
    (h : Change.collect? parts totals spans = some spans') : ∀ s ∈ spans', I.Sound s := by
  induction parts generalizing totals spans with
  | nil =>
    obtain rfl := Option.some.inj h
    exact hspans
  | cons s parts ih =>
    obtain ⟨hs, hparts⟩ := List.forall_mem_cons.mp hparts
    rw [Change.collect?] at h
    split at h
    · exact ih hparts (sound_push hspans hs) h
    · cases h

/-- The outline of a sound change is sound. -/
theorem sound_outline {c : Change α} (h : ∀ s ∈ c.spans, I.Sound s) :
    ∀ s ∈ c.outline.spans, Outline.reading.Sound s := by
  intro s hs
  obtain ⟨t, ht, rfl⟩ := List.mem_map.mp hs
  exact ⟨⟨(h t ht).mark, trivial⟩, (h t ht).not_void⟩

end Reading

/-- A span that inserts a document has a count of its length, if a word holds it. -/
theorem Rope.fit_replace {text : Rope} (h : text.Obeys Rope.shareRule)
    (hlength : text.length ≤ lengthLimit) (n : Nat) :
    Rope.reading.Fit (Span.replace n text) := by
  have hcount : (Span.replace n text).count = text.length := by
    rw [Span.replace, signedWord_of_lt (lt_signBound hlength)]
  refine ⟨?_, h, ?_⟩
  · rw [hcount]
    exact Span.keptMark_le (Int.natCast_nonneg _)
  · rw [hcount, Int.toNat_natCast]
    rfl

section Written

/-- A part that is read has the count of its insertion. -/
theorem Revision.fit_part? {item : Json} {s : Span Rope} (h : Revision.part? item = some s)
    (hlength : s.text.length ≤ lengthLimit) : Rope.reading.Fit s := by
  have htext := Rope.preserved_share.kept.text_part? h
  unfold Revision.part? at h
  split at h
  · obtain ⟨n, -, h⟩ := Option.bind_eq_some_iff.mp h
    obtain ⟨text, -, h⟩ := Option.bind_eq_some_iff.mp h
    obtain rfl := Option.some.inj h
    exact Rope.fit_replace htext hlength n
  · cases h
  · obtain ⟨n, -, rfl⟩ := Option.map_eq_some_iff.mp h
    exact Reading.fit_keep n

/-- What is read of a revision is put together from parts that have the counts of their
insertions. -/
theorem Revision.collect_of_ofJson {v : Json} {c : Revision} (h : Revision.ofJson v = .ok c)
    (hfits : ∀ items, v.items? = some items → ∀ item ∈ items, ∀ s, Revision.part? item = some s →
      s.text.length ≤ lengthLimit) :
    ∃ parts, (∀ s ∈ parts, Rope.reading.Fit s)
      ∧ Change.collect? parts ⟨0, 0⟩ [] = some c.spans.reverse := by
  obtain ⟨items, parts, hitems, hparts, hcollect⟩ := Revision.ofJson_eq_ok h
  refine ⟨parts, fun s hs => ?_, hcollect⟩
  obtain ⟨item, hitem, hpart⟩ := exists_of_mem_mapM hparts hs
  exact Revision.fit_part? hpart (hfits items hitems item hitem s hpart)

/-- A revision that is read is sound, if its insertions are within the limit. -/
theorem Revision.sound_ofJson {v : Json} {c : Revision} (h : Revision.ofJson v = .ok c)
    (hfits : ∀ items, v.items? = some items → ∀ item ∈ items, ∀ s, Revision.part? item = some s →
      s.text.length ≤ lengthLimit) : ∀ s ∈ c.spans, Rope.reading.Sound s := by
  obtain ⟨parts, hfit, hcollect⟩ := Revision.collect_of_ofJson h hfits
  intro s hs
  exact Reading.sound_collect hfit (by simp) hcollect s (List.mem_reverse.mpr hs)

/-- The only mark in what is read of an outline is that of a kept run. -/
theorem Outline.mark_of_mem_spans? {numbers : List Int} {parts : List (Span Unit)}
    (h : Outline.spans? numbers = some parts) : ∀ s ∈ parts, Span.keptMark ≤ s.count := by
  induction numbers using Outline.spans?.induct generalizing parts with
  | case1 =>
    obtain rfl := Option.some.inj h
    simp
  | case2 => cases h
  | case3 length count rest ih =>
    obtain ⟨s, hs, h⟩ := Option.bind_eq_some_iff.mp h
    obtain ⟨later, hlater, h⟩ := Option.bind_eq_some_iff.mp h
    obtain rfl := Option.some.inj h
    refine List.forall_mem_cons.mpr ⟨?_, ih hlater⟩
    rw [Outline.span?] at hs
    split at hs
    · cases hs
    · obtain rfl := Option.some.inj hs
      dsimp only
      omega

theorem Outline.sound_ofJson {v : Json} {d : Outline} (h : Outline.ofJson v = .ok d) :
    ∀ s ∈ d.spans, Outline.reading.Sound s := by
  obtain ⟨numbers, parts, hparts, hcollect⟩ := Outline.ofJson_eq_ok h
  intro s hs
  exact Reading.sound_collect (fun t ht => ⟨Outline.mark_of_mem_spans? hparts t ht, trivial⟩)
    (by simp) hcollect s (List.mem_reverse.mpr hs)

end Written

section Undoing

/-- A removal is undone by an insertion of as many characters, if a word holds their number. -/
theorem Outline.sound_inverse {d : Outline} (h : ∀ s ∈ d.spans, Outline.reading.Sound s)
    (hfits : d.length ≤ lengthLimit) : ∀ s ∈ d.inverse.spans, Outline.reading.Sound s := by
  intro s hs
  obtain ⟨t, ht, rfl⟩ := List.mem_map.mp hs
  have hsmall : t.length < signBound := lt_signBound (Nat.le_trans (le_sumBy Span.length ht) hfits)
  have hnot := (h t ht).not_void
  rw [Span.inverse]
  split
  · exact h t ht
  · next hput =>
    simp only [Span.isKept, decide_eq_true_eq, Int.not_lt] at hput
    rw [signedWord_of_lt hsmall]
    refine ⟨⟨Span.keptMark_le (Int.natCast_nonneg _), trivial⟩, ?_⟩
    · rw [Span.isVoid_eq_false_iff] at hnot ⊢
      dsimp only
      omega

/-- A removal is undone by an insertion of the removed characters. -/
theorem Revision.sound_inverseFrom {doc : Rope} (hdoc : doc.Obeys Rope.shareRule)
    {spans : List (Span Rope)} (h : ∀ s ∈ spans, Rope.reading.Sound s) (pos : Nat)
    (hfits : pos + sumBy Span.length spans ≤ doc.length) (hlimit : doc.length ≤ lengthLimit) :
    ∀ s ∈ Revision.inverseFrom doc pos spans, Rope.reading.Sound s := by
  induction spans generalizing pos with
  | nil => simp [Revision.inverseFrom]
  | cons s spans ih =>
    obtain ⟨hs, hspans⟩ := List.forall_mem_cons.mp h
    rw [sumBy_cons] at hfits
    have hsmall : s.length < signBound := lt_signBound (by omega)
    have hnot := hs.not_void
    refine List.forall_mem_cons.mpr ⟨?_, ih hspans (pos + s.length) (by omega)⟩
    split
    · next hkept =>
      have hkept : s.count < 0 := by simpa [Span.isKept] using hkept
      have hzero : s.count.toNat = 0 := by omega
      refine ⟨⟨hs.mark, ?_⟩, hnot⟩
      rw [hzero]
      exact Rope.reading.empty
    · next hput =>
      have hput : 0 ≤ s.count := by simpa [Span.isKept] using hput
      rw [signedWord_of_lt hsmall]
      refine ⟨⟨Span.keptMark_le (Int.natCast_nonneg _), ?_⟩, ?_⟩
      · rw [Int.toNat_natCast]
        by_cases hzero : s.length = 0
        · rw [if_pos hzero, hzero]
          exact Rope.reading.empty
        · rw [if_neg hzero]
          have hextract := (Rope.reading.extract doc doc.length pos (pos + s.length) ⟨hdoc, rfl⟩
            (Nat.le_add_right _ _) (by omega)).1
          rwa [Nat.add_sub_cancel_left] at hextract
      · rw [Span.isVoid_eq_false_iff] at hnot ⊢
        dsimp only
        omega

theorem Revision.sound_inverse {c d : Revision} {doc : Rope}
    (hc : ∀ s ∈ c.spans, Rope.reading.Sound s) (hdoc : doc.Obeys Rope.shareRule)
    (hfits : c.length ≤ lengthLimit) (h : c.inverse doc = .ok d) :
    ∀ s ∈ d.spans, Rope.reading.Sound s := by
  rw [Revision.inverse_eq] at h
  split at h
  · next hlength =>
    obtain rfl := Except.ok.inj h
    exact Revision.sound_inverseFrom hdoc hc 0
      (Nat.le_of_eq ((Nat.zero_add _).trans hlength)) (hlength ▸ hfits)
  · cases h

end Undoing

section Combining

variable {β : Type} [Insertion β] {I : Reading α δ} {J : Reading β δ}

/-- One sound change after another is sound, if the counts of the first are held by words. -/
theorem Reading.sound_andThen {c d e : Change α} (hc : ∀ s ∈ c.spans, I.Sound s)
    (hd : ∀ s ∈ d.spans, I.Sound s) (hsmall : ∀ s ∈ c.spans, s.newLength < signBound)
    (h : c.andThen d = .ok e) : ∀ s ∈ e.spans, I.Sound s := by
  have hfits : c.newLength = d.length := Change.fits_of_andThen h
  obtain ⟨e', he', hsound, -⟩ := Reading.andThen_spec hc hd hsmall hfits
  obtain rfl := Except.ok.inj (he'.symm.trans h)
  exact hsound

theorem Reading.sound_rebase [Inhabited δ] {c e : Change α} {d : Change β} {before : Bool}
    (hc : ∀ s ∈ c.spans, I.Sound s) (hd : ∀ s ∈ d.spans, J.Sound s)
    (h : c.rebase d before = .ok e) : ∀ s ∈ e.spans, I.Sound s := by
  have hfits : d.length = c.length := Change.fits_of_rebase h
  obtain ⟨e', he', hsound, -⟩ := Reading.rebase_spec hc hd hfits before
  obtain rfl := Except.ok.inj (he'.symm.trans h)
  exact hsound

end Combining

section Dividing

variable {I : Reading α δ}

/-- A change that is being divided: what is left of it and both parts are sound. -/
structure Divided (I : Reading α δ) (rs : List (Rest α)) (w : Change.Divider α) : Prop where
  rests : ∀ r ∈ rs, I.Second r
  outside : ∀ s ∈ w.outside, I.Sound s
  inside : ∀ s ∈ w.inside, Outline.reading.Sound s

theorem Divided.putOutside {r : Rest α} {rs rs' : List (Rest α)} {w : Change.Divider α}
    (h : Divided I (r :: rs) w) (hrs : ∀ t ∈ rs', I.Second t) (len : Nat) :
    Divided I rs' (w.putOutside len r) where
  rests := hrs
  outside := by
    have hr := h.rests r List.mem_cons_self
    exact Reading.sound_push h.outside ⟨(hr.fit len).mark, hr.text_remainder.1⟩
  inside := Reading.sound_push h.inside (Reading.fit_keep len)

theorem Divided.putInside {r : Rest α} {rs rs' : List (Rest α)} {w : Change.Divider α}
    (h : Divided I (r :: rs) w) (hrs : ∀ t ∈ rs', I.Second t) (len : Nat) :
    Divided I rs' (w.putInside len r) where
  rests := hrs
  outside := Reading.sound_push h.outside (Reading.fit_keep len)
  inside := by
    have hr := h.rests r List.mem_cons_self
    exact Reading.sound_push h.inside ⟨(hr.fit len).mark, trivial⟩

theorem Divided.leaveOutside (stop : Nat) {rs : List (Rest α)} {w : Change.Divider α}
    (h : Divided I rs w) :
    Divided I (Change.leaveOutside stop rs w).spans (Change.leaveOutside stop rs w) := by
  induction rs generalizing w with
  | nil => exact ⟨by simp [Change.leaveOutside], h.outside, h.inside⟩
  | cons r rs ih =>
    obtain ⟨hr, hrs⟩ := List.forall_mem_cons.mp h.rests
    rw [Change.leaveOutside]
    split
    · split
      · exact ⟨by simp, h.outside, h.inside⟩
      · dsimp only
        split
        · exact ih (h.putOutside hrs _)
        · have hle : min r.length (stop - w.pos) ≤ r.length := Nat.min_le_left _ _
          have hput := h.putOutside (hr.forward hrs hle) (min r.length (stop - w.pos))
          exact ⟨hput.rests, hput.outside, hput.inside⟩
    · exact ⟨h.rests, h.outside, h.inside⟩

theorem Divided.takeInside (stop : Nat) {rs : List (Rest α)} {w : Change.Divider α}
    (h : Divided I rs w) :
    Divided I (Change.takeInside stop rs w).spans (Change.takeInside stop rs w) := by
  induction rs generalizing w with
  | nil => exact ⟨by simp [Change.takeInside], h.outside, h.inside⟩
  | cons r rs ih =>
    obtain ⟨hr, hrs⟩ := List.forall_mem_cons.mp h.rests
    rw [Change.takeInside]
    split
    · split
      · exact ⟨by simp, h.outside, h.inside⟩
      · dsimp only
        split
        · exact ih (h.putInside hrs _)
        · have hle : min r.length (stop - w.pos) ≤ r.length := Nat.min_le_left _ _
          have hput := h.putInside (hr.forward hrs hle) (min r.length (stop - w.pos))
          exact ⟨hput.rests, hput.outside, hput.inside⟩
    · exact ⟨h.rests, h.outside, h.inside⟩

theorem Divided.passRanges (ranges : List (Nat × Nat)) {w : Change.Divider α}
    (h : Divided I w.spans w) :
    Divided I (ranges.foldl Change.Divider.passRange w).spans
      (ranges.foldl Change.Divider.passRange w) := by
  induction ranges generalizing w with
  | nil => exact h
  | cons range ranges ih => exact ih ((h.leaveOutside range.1).takeInside range.2)

theorem Divided.putAllOutside {rs : List (Rest α)} {w : Change.Divider α} (h : Divided I rs w) :
    Divided I [] (rs.foldl (fun w r => w.putOutside r.length r) w) := by
  induction rs generalizing w with
  | nil => exact h
  | cons r rs ih =>
    apply ih
    exact h.putOutside (fun t ht => h.rests t (List.mem_cons_of_mem _ ht)) r.length

theorem Divided.finish {w : Change.Divider α} (h : Divided I w.spans w) :
    Divided I [] w.finish := by
  apply Divided.putAllOutside
  refine ⟨?_, h.outside, h.inside⟩
  intro r hr
  exact h.rests r ((List.takeWhile_sublist _).subset hr)

/-- Both parts of a divided change are sound. -/
theorem Change.sound_divide {c : Change α} (h : ∀ s ∈ c.spans, I.Sound s)
    (ranges : List (Nat × Nat)) :
    (∀ s ∈ (c.divide ranges).outside.spans, I.Sound s)
      ∧ ∀ s ∈ (c.divide ranges).inside.spans, Outline.reading.Sound s := by
  have hstart : Divided I (⟨c.spans.map Rest.ofSpan, 0, [], []⟩ : Divider α).spans
      ⟨c.spans.map Rest.ofSpan, 0, [], []⟩ := by
    refine ⟨?_, by simp, by simp⟩
    intro r hr
    obtain ⟨s, hs, rfl⟩ := List.mem_map.mp hr
    exact (h s hs).second
  have hdone := (Divided.passRanges ranges hstart).finish
  exact ⟨fun s hs => hdone.outside s (List.mem_reverse.mp hs),
    fun s hs => hdone.inside s (List.mem_reverse.mp hs)⟩

end Dividing

omit [Insertion α] in
/-- The spans of a change that removes and inserts little are short. -/
theorem Change.newLength_lt {c : Change α} (hlength : c.length ≤ lengthLimit)
    (hvolume : c.volume ≤ lengthLimit) : ∀ s ∈ c.spans, s.newLength < signBound := by
  intro s hs
  by_cases hkept : s.count < 0
  · rw [Span.newLength_of_kept hkept]
    exact lt_signBound (Nat.le_trans (le_sumBy Span.length hs) hlength)
  · rw [Span.newLength_of_put (Int.not_lt.mp hkept)]
    exact lt_signBound (Nat.le_trans (le_sumBy Span.volume hs) hvolume)

namespace Draft

/-- A draft that inserts at most `spent` characters. Its open batch reaches up to a place of the
document, and the batches before it are a sound revision of the whole document. -/
structure Held (spent : Nat) (d : Draft) : Prop where
  spans : ∀ s ∈ d.spans, Rope.reading.Sound s
  pos : sumBy Span.length d.spans = d.pos
  pos_le : d.pos ≤ d.length
  sound : ∀ total, d.total = some total → ∀ s ∈ total.spans, Rope.reading.Sound s
  length : ∀ total, d.total = some total → total.length = d.length
  volume : sumBy Span.volume d.spans + d.total.elim 0 Change.volume ≤ spent

variable {d d' : Draft} {spent : Nat}

theorem Held.mono {more : Nat} (h : d.Held spent) (hle : spent ≤ more) : d.Held more :=
  ⟨h.spans, h.pos, h.pos_le, h.sound, h.length, Nat.le_trans h.volume hle⟩

/-- A sound revision of the document is merged into a draft. -/
theorem Held.merge {c : Revision} (h : d.Held spent) (hc : ∀ s ∈ c.spans, Rope.reading.Sound s)
    (hlength : c.length = d.length) (hlimit : d.length ≤ lengthLimit) (hspent : spent ≤ lengthLimit)
    (hmerge : d.merge c = .ok d') :
    d'.Held (spent + c.volume) ∧ ∃ next, d' = { d with total := some next } := by
  have hvolume := h.volume
  obtain ⟨hnone, rfl⟩ | ⟨total, rebased, next, htotal, hrebased, hnext, rfl⟩ := merge_eq_ok hmerge
  · refine ⟨⟨h.spans, h.pos, h.pos_le, ?_, ?_, ?_⟩, c, rfl⟩
    · intro total htotal
      exact Option.some.inj htotal ▸ hc
    · intro total htotal
      exact Option.some.inj htotal ▸ hlength
    · rw [hnone] at hvolume
      exact Nat.add_le_add_right hvolume c.volume
  -- The revision is rebased over what the draft does already, and then put behind it.
  · have hsound := h.sound total htotal
    have htotalLength := h.length total htotal
    rw [htotal] at hvolume
    obtain ⟨e, he, hesound, helength, hevolume, -⟩ := Reading.rebase_spec hc
      (Reading.sound_outline hsound)
      ((total.length_outline.trans htotalLength).trans hlength.symm) false
    obtain rfl := Except.ok.inj (he.symm.trans hrebased)
    rw [Change.newLength_outline] at helength
    have hsmall := total.newLength_lt (htotalLength ▸ hlimit)
      (Nat.le_trans (Nat.le_trans (Nat.le_add_left _ _) hvolume) hspent)
    obtain ⟨f, hf, hfsound, hflength, hfvolume, -⟩ :=
      Reading.andThen_spec hsound hesound hsmall helength.symm
    obtain rfl := Except.ok.inj (hf.symm.trans hnext)
    refine ⟨⟨h.spans, h.pos, h.pos_le, ?_, ?_, ?_⟩, f, rfl⟩
    · intro total' htotal'
      exact Option.some.inj htotal' ▸ hfsound
    · intro total' htotal'
      exact Option.some.inj htotal' ▸ hflength.trans htotalLength
    · simp only [Option.elim_some] at hvolume ⊢
      omega

/-- The open batch is a sound revision of the whole document. -/
theorem Held.batch (h : d.Held spent) :
    (∀ s ∈ d.batch.spans, Rope.reading.Sound s) ∧ d.batch.length = d.length
      ∧ d.batch.volume = sumBy Span.volume d.spans := by
  have hpushed := Reading.push_keep h.spans (d.length - d.pos)
  have hlength := hpushed.length
  have hvolume := hpushed.volume
  have hpos := h.pos
  have hle := h.pos_le
  refine ⟨fun s hs => hpushed.sound s (List.mem_reverse.mp hs), ?_, ?_⟩
  · rw [Draft.batch, Change.length, sumBy_reverse, hlength, hpos, Span.keep]
    exact Nat.add_sub_cancel' hle
  · rw [Draft.batch, Change.volume, sumBy_reverse, hvolume]
    rfl

/-- Closing the open batch only moves it to the others. -/
theorem Held.close (h : d.Held spent) (hlimit : d.length ≤ lengthLimit)
    (hspent : spent ≤ lengthLimit) (hclose : d.close = .ok d') :
    d'.Held spent ∧ d'.pos = 0 ∧ d'.length = d.length ∧ d'.sep = d.sep ∧ d'.total.isSome := by
  obtain ⟨hsound, hlength, hvolume⟩ := h.batch
  have hsum := h.volume
  have hemptied : Held (d.total.elim 0 Change.volume) { d with spans := [], pos := 0 } :=
    ⟨by simp, rfl, Nat.zero_le _, h.sound, h.length, Nat.le_of_eq (Nat.zero_add _)⟩
  obtain ⟨hheld, next, rfl⟩ := hemptied.merge hsound hlength hlimit (by omega) hclose
  exact ⟨hheld.mono (by omega), rfl, rfl, rfl, rfl⟩

theorem Held.settle (h : d.Held spent) (hlimit : d.length ≤ lengthLimit)
    (hspent : spent ≤ lengthLimit) (hsettle : d.settle = .ok d') :
    d'.Held spent ∧ d'.pos = 0 ∧ d'.length = d.length ∧ d'.sep = d.sep := by
  obtain ⟨hempty, rfl⟩ | hclose := settle_eq_ok hsettle
  · have hpos := h.pos
    rw [hempty] at hpos
    exact ⟨h, hpos.symm, rfl, rfl⟩
  · obtain ⟨hheld, hpos, hlength, hsep, -⟩ := h.close hlimit hspent hclose
    exact ⟨hheld, hpos, hlength, hsep⟩

/-- A replaced range is put behind the open batch. -/
theorem Held.putReplaced {start stop : Nat} {text : Rope} (h : d.Held spent)
    (hpos : d.pos ≤ start) (hle : start ≤ stop) (hstop : stop ≤ d.length)
    (htext : text.Obeys Rope.shareRule) (hlength : text.length ≤ lengthLimit) :
    (d.putReplaced start stop text).Held (spent + text.length) := by
  have hkept := Reading.push_keep h.spans (start - d.pos)
  have hpushed := Reading.push_unjoined hkept.sound (Rope.fit_replace htext hlength (stop - start))
  have hcount : (Span.replace (stop - start) text).volume = text.length := by
    rw [Span.volume, Span.replace, signedWord_of_lt (lt_signBound hlength), Int.toNat_natCast]
  have hsum := h.volume
  have hplace := h.pos
  refine ⟨hpushed.sound, ?_, hstop, h.sound, h.length, ?_⟩
  · rw [Draft.putReplaced]
    dsimp only
    rw [hpushed.length, hkept.length, hplace, Span.keep, Span.replace]
    dsimp only
    omega
  · rw [Draft.putReplaced]
    dsimp only
    rw [hpushed.volume, hkept.volume, hcount]
    have hzero : (Span.keep (start - d.pos) : Span Rope).volume = 0 := rfl
    omega

/-- One more edit inserts as many more characters. -/
theorem Held.add {atom : Edit} (h : d.Held spent)
    (htexts : Rope.Preserved.AtomTexts (Rope.Obeys Rope.shareRule) atom)
    (hsound : ∀ c, atom = .revision c → ∀ s ∈ c.spans, Rope.reading.Sound s)
    (hlimit : d.length ≤ lengthLimit) (hspent : spent + atom.atomVolume d.sep ≤ lengthLimit)
    (hadd : d.add atom = .ok d') :
    d'.Held (spent + atom.atomVolume d.sep) ∧ d'.length = d.length ∧ d'.sep = d.sep := by
  have hP := Rope.preserved_share
  cases atom with
  | replace start stop text =>
    rw [Draft.add] at hadd
    split at hadd
    · cases hadd
    · next hrange =>
      have hstart : start ≤ stop := by omega
      have hstop : stop ≤ d.length := by omega
      have htext := hP.toRope htexts d.sep
      rw [Edit.atomVolume] at hspent ⊢
      obtain rfl | ⟨hpos, rfl⟩ | ⟨-, settled, hsettled, rfl⟩ := replace_eq_ok hadd
      · exact ⟨h.mono (Nat.le_add_right _ _), rfl, rfl⟩
      · exact ⟨h.putReplaced hpos hstart hstop htext (by omega), rfl, rfl⟩
      -- The range goes back: the open batch is closed, and a new one starts.
      · obtain ⟨hheld, hpos, hlength, hsep⟩ := h.settle hlimit (by omega) hsettled
        exact ⟨hheld.putReplaced (hpos ▸ Nat.zero_le _) hstart (hlength ▸ hstop) htext (by omega),
          hlength, hsep⟩
  | revision c =>
    rw [Edit.atomVolume] at hspent ⊢
    obtain ⟨_, hfits, hadd⟩ := ok_of_bind hadd
    obtain ⟨settled, hsettled, hadd⟩ := ok_of_bind hadd
    obtain ⟨hheld, -, hlength, hsep⟩ := h.settle hlimit (by omega) hsettled
    have hsame : d.length = c.length := by
      rw [Change.fits] at hfits
      split at hfits
      · assumption
      · cases hfits
    obtain ⟨hmerged, next, rfl⟩ := hheld.merge (hsound c rfl) (hsame.symm.trans hlength.symm)
      (hlength ▸ hlimit) (by omega) hadd
    exact ⟨hmerged, hlength, hsep⟩
  | many edits =>
    obtain rfl := Except.ok.inj hadd
    exact ⟨h.mono (Nat.le_add_right _ _), rfl, rfl⟩

/-- A draft stays sound over any number of edits. -/
theorem Held.foldl_add {atoms : List Edit} (h : d.Held spent)
    (htexts : ∀ atom ∈ atoms, Rope.Preserved.AtomTexts (Rope.Obeys Rope.shareRule) atom)
    (hsound : ∀ c, .revision c ∈ atoms → ∀ s ∈ c.spans, Rope.reading.Sound s)
    (hlimit : d.length ≤ lengthLimit)
    (hspent : spent + sumBy (Edit.atomVolume d.sep) atoms ≤ lengthLimit)
    (hfold : atoms.foldlM Draft.add d = .ok d') :
    d'.Held (spent + sumBy (Edit.atomVolume d.sep) atoms) ∧ d'.length = d.length := by
  induction atoms generalizing d spent with
  | nil =>
    obtain rfl := Except.ok.inj hfold
    exact ⟨h, rfl⟩
  | cons atom atoms ih =>
    obtain ⟨hatom, htexts⟩ := List.forall_mem_cons.mp htexts
    rw [List.foldlM_cons] at hfold
    obtain ⟨next, hnext, hfold⟩ := ok_of_bind hfold
    rw [sumBy_cons, ← Nat.add_assoc] at hspent ⊢
    obtain ⟨hheld, hlength, hsep⟩ := h.add hatom
      (fun c hc => hsound c (hc ▸ List.mem_cons_self)) hlimit (by omega) hnext
    rw [← hsep] at hspent ⊢
    obtain ⟨hdone, hsame⟩ := ih (hsep ▸ hheld) htexts
      (fun c hc => hsound c (List.mem_cons_of_mem _ hc)) (hlength ▸ hlimit) hspent hfold
    exact ⟨hdone, hsame.trans hlength⟩

end Draft

/-- The revision that edits make is sound, if they insert no more than the limit. -/
theorem Revision.sound_ofEdit {edit : Edit} {length : Nat} {sep : Option String} {c : Revision}
    (htexts : ∀ atom ∈ edit.atoms, Rope.Preserved.AtomTexts (Rope.Obeys Rope.shareRule) atom)
    (hsound : ∀ c, .revision c ∈ edit.atoms → ∀ s ∈ c.spans, Rope.reading.Sound s)
    (hlimit : length ≤ lengthLimit) (hvolume : edit.volume sep ≤ lengthLimit)
    (h : Revision.ofEdit edit length sep = .ok c) : ∀ s ∈ c.spans, Rope.reading.Sound s := by
  obtain ⟨d, hd, h⟩ := ok_of_bind h
  have hstart : Draft.Held 0 ⟨length, sep, [], 0, none⟩ :=
    ⟨by simp, rfl, Nat.zero_le _, by simp, by simp, Nat.le_refl _⟩
  obtain ⟨hheld, hlength⟩ := hstart.foldl_add htexts hsound hlimit
    ((Nat.zero_add _).symm ▸ hvolume) hd
  rw [Nat.zero_add] at hheld
  have hlimit : d.length ≤ lengthLimit := Nat.le_trans (Nat.le_of_eq hlength) hlimit
  obtain ⟨finished, hfinished, rfl⟩ := Draft.finish_eq_ok h
  have hdone : finished.Held (edit.volume sep) := by
    split at hfinished
    · exact (hheld.close hlimit hvolume hfinished).1
    · exact (hheld.settle hlimit hvolume hfinished).1
  cases htotal : finished.total with
  | none => exact Reading.sound_unchanged finished.length
  | some total => exact hdone.sound total htotal

section Obtainable

/-- Both lengths of a revision that operations lead to are fit. -/
theorem Revision.ObtainableBy.within {admits : Admission} {fits : Nat → Prop} {c : Revision}
    (h : Revision.ObtainableBy fits admits c) : c.Within fits := by
  cases h <;> assumption

theorem Outline.Obtainable.within {fits : Nat → Prop} {d : Outline}
    (h : Outline.Obtainable fits d) : d.Within fits := by
  cases h with
  | outline hc =>
    rw [Change.Within, Change.length_outline, Change.newLength_outline]
    exact hc.within
  | ofJson _ hwithin => exact hwithin
  | inverse _ hwithin => exact hwithin
  | andThen _ _ _ hwithin => exact hwithin
  | rebase _ _ _ _ hwithin => exact hwithin
  | divide _ _ hwithin => exact hwithin

omit [Insertion α] in
/-- The spans of a change that leads to a document within the limit are short. -/
theorem Change.Within.newLength_lt {c : Change α} (h : c.Within (· ≤ lengthLimit)) :
    ∀ s ∈ c.spans, s.newLength < signBound :=
  fun _ hs => lt_signBound (Nat.le_trans (le_sumBy Span.newLength hs) h.2)

mutual

/-- Every revision in an edit that operations lead to is sound. -/
theorem Edit.ObtainableBy.sound {admits : Admission} {sep : Option String} {e : Edit} :
    Edit.ObtainableBy (· ≤ lengthLimit) admits sep e →
    ∀ c, .revision c ∈ e.atoms → ∀ s ∈ c.spans, Rope.reading.Sound s
  | .nothing start stop => by simp [Edit.atoms]
  | .string start stop _ => by simp [Edit.atoms]
  | .rope start stop hr => by simp [Edit.atoms]
  | .revision hc => by
    have hsound := hc.sound
    intro c hmem
    rw [Edit.atoms, List.mem_singleton, Edit.revision.injEq] at hmem
    exact hmem ▸ hsound
  | .many hedits => by
    intro c hmem
    obtain ⟨e, he, hmem⟩ := Edit.mem_atomsOf hmem
    exact (hedits e he).sound c hmem

/-- Every revision that operations lead to is sound, where all lengths are within the limit. -/
theorem Revision.ObtainableBy.sound {admits : Admission} {c : Revision} :
    Revision.ObtainableBy (· ≤ lengthLimit) admits c → ∀ s ∈ c.spans, Rope.reading.Sound s
  | .unchanged length _ => Reading.sound_unchanged length
  | .ofEdit hedit h hlength hvolume _ =>
    Revision.sound_ofEdit (hedit.texts Rope.preserved_share) hedit.sound hlength hvolume h
  | .ofJson h _ hfits => Revision.sound_ofJson h hfits
  | .inverse hc hdoc h _ => Revision.sound_inverse hc.sound hdoc.obeys hc.within.1 h
  | .andThen hc hd h _ => Reading.sound_andThen hc.sound hd.sound hc.within.newLength_lt h
  | .rebase _ hc hd h _ => Reading.sound_rebase hc.sound hd.sound h
  | .divide ranges hc _ => (Change.sound_divide hc.sound ranges).1

/-- So is every outline. -/
theorem Outline.Obtainable.sound {d : Outline} : Outline.Obtainable (· ≤ lengthLimit) d →
    ∀ s ∈ d.spans, Outline.reading.Sound s
  | .outline hc => Reading.sound_outline hc.sound
  | .ofJson h _ => Outline.sound_ofJson h
  | .inverse hd _ => Outline.sound_inverse hd.sound hd.within.1
  | .andThen hc hd h _ => Reading.sound_andThen hc.sound hd.sound hc.within.newLength_lt h
  | .rebase _ hc hd h _ => Reading.sound_rebase hc.sound hd.sound h
  | .divide ranges hc _ => (Change.sound_divide hc.sound ranges).2

end

end Obtainable

end TextRevision
