import TextRevision.Proofs.Change.Additions
import TextRevision.Proofs.Change.Numbers

/-!
# How long changes get

An outline that is read has two lengths within the limit. Undoing swaps them, and a change put
behind another leads from the first length of the one to the second length of the other. Rebasing is
the one operation that makes documents longer: what results keeps the characters that both changes
keep, and both insertions are in the document that it leads to. So all lengths stay within the limit
as long as each rebasing has room for these three.

## Main definitions

- `Change.sharedLength`: how many characters two changes of one document both keep
- `Outline.Roomy`: two outlines that together lead to a document within the limit
- `Outline.Derived`: an outline that operations lead to from ones that are read

## Main statements

- `Act.length_merge`: how many items two changes make together
- `Change.newLength_rebase`
- `Outline.Derived.inRange`, `Outline.Derived.ofJson_toJson`
-/

namespace TextRevision

variable {α β δ : Type}

section Merged

variable {before : Bool} {as bs : List (Act δ)} {doc : List δ}

namespace Act

/-- For each item that is passed, whether it is kept. -/
def passes (as : List (Act δ)) : List Bool :=
  as.filterMap fun
    | put _ _ => none
    | pass p => some p

@[simp] theorem passes_nil : passes ([] : List (Act δ)) = [] := rfl

@[simp] theorem passes_cons_put (k : Nat) (xs : List δ) : passes (put k xs :: as) = passes as := rfl

@[simp] theorem passes_cons_pass (p : Bool) : passes (pass p :: as) = p :: passes as := rfl

@[simp] theorem passes_append (as bs : List (Act δ)) : passes (as ++ bs) = passes as ++ passes bs :=
  List.filterMap_append

@[simp] theorem passes_replicate (n : Nat) (p : Bool) :
    passes (List.replicate n (pass p : Act δ)) = List.replicate n p := by
  induction n with
  | zero => rfl
  | succ n ih => rw [List.replicate_succ, passes_cons_pass, ih, List.replicate_succ]

theorem volume_cons_pass (p : Bool) : volume (pass p :: as) = volume as :=
  Nat.zero_add _

/-- Two changes together make what each of them inserts, and the items that both keep. -/
theorem length_merge (ha : extent as = doc.length) (hb : extent bs = doc.length) :
    (merge before as bs doc).length
      = (List.zipWith and (passes as) (passes bs)).count true + volume as + volume bs := by
  fun_induction merge before as bs doc with
  | case1 k xs as l ys bs doc hyields ih =>
    have hrest := ih ha (by simpa using hb)
    rw [List.length_append, volume_cons_put l, hrest, passes_cons_put l]
    omega
  | case2 k xs as l ys bs doc hyields ih =>
    have hrest := ih (by simpa using ha) hb
    rw [List.length_append, volume_cons_put k, hrest, passes_cons_put k]
    omega
  | case3 k xs as bs doc hnone ih =>
    have hrest := ih (by simpa using ha) hb
    rw [List.length_append, volume_cons_put k, hrest, passes_cons_put k]
    omega
  | case4 as l ys bs doc hnone ih =>
    have hrest := ih ha (by simpa using hb)
    rw [List.length_append, volume_cons_put l, hrest, passes_cons_put l]
    omega
  | case5 p as q bs x doc ih =>
    have hrest := ih (by simpa using ha) (by simpa using hb)
    have hitem :
        (if (p && q) = true then [x] else []).length = if (p && q) = true then 1 else 0 := by
      split <;> rfl
    rw [List.length_append, hitem, hrest, volume_cons_pass, volume_cons_pass, passes_cons_pass,
      passes_cons_pass, List.zipWith_cons_cons, List.count_cons]
    simp only [beq_iff_eq]
    omega
  | case6 as bs doc h1 h2 h3 h4 =>
    obtain ⟨rfl, rfl, rfl⟩ := eq_nil_of_stuck h2 h3
      (fun p rest q rest' x rest'' hp hq => h4 p rest q rest' x rest'' hp hq) ha hb
    rfl

end Act

end Merged

/-- A change passes the characters as it decides on them. -/
theorem Reading.passes_acts [Insertion α] {I : Reading α δ} (ss : List (Span α)) :
    Act.passes (I.acts false (ss.map Rest.ofSpan)) = Span.fatesOf ss := by
  induction ss with
  | nil => rfl
  | cons s ss ih =>
    rw [List.map_cons, acts_cons, Act.passes_append, ih, Span.fatesOf_cons]
    congr 1
    by_cases hkept : s.count < 0
    · have hisKept : s.isKept = true := by simpa [Span.isKept] using hkept
      rw [actsOf_kept hkept, Act.passes_replicate, hisKept]
      rfl
    · have hisPut : s.isKept = false := by simpa [Span.isKept] using hkept
      rw [actsOf_put (Int.not_lt.mp hkept), Act.passes_cons_put, Act.passes_replicate, hisPut]
      rfl

/-- How many characters of a document two changes of it both keep. -/
def Change.sharedLength (c : Change α) (d : Change β) : Nat :=
  (List.zipWith and c.fates d.fates).count true

/-- A rebased change leads to a document of the characters that both changes keep and of what both
insert. -/
theorem Change.newLength_rebase [Insertion α] [Insertion β] {c e : Change α} {d : Change β}
    {before : Bool} (hc : ∀ s ∈ c.spans, s.Marked) (hd : ∀ s ∈ d.spans, s.Marked)
    (h : c.rebase d before = .ok e) : e.newLength = c.sharedLength d + c.volume + d.volume := by
  have hcounted : ∀ s ∈ c.spans, Reading.counted.Sound s := fun s hs => (hc s hs).counted
  have hdcounted : ∀ s ∈ d.spans, Reading.counted.Sound s := fun s hs => (hd s hs).counted
  have hfits : d.length = c.length := Change.fits_of_rebase h
  obtain ⟨e', he', hsound, hlength, -, hrun⟩ :=
    Reading.rebase_spec hcounted hdcounted hfits before
  obtain rfl : e' = e := Except.ok.inj (he'.symm.trans h)
  -- What is in the document does not matter for its length.
  have hdoc : (List.replicate d.length ()).length = d.length := List.length_replicate
  have hmade := Reading.length_run hdcounted hdoc
  have hnew := Reading.length_run hsound (hmade.trans hlength.symm)
  have hleft : Act.extent (Reading.counted.actions c) = (List.replicate d.length ()).length :=
    (Reading.extent_acts c.spans).trans (hfits.symm.trans hdoc.symm)
  have hright : Act.extent (Reading.counted.actions d) = (List.replicate d.length ()).length :=
    (Reading.extent_acts d.spans).trans hdoc.symm
  rw [hrun _ hdoc, Act.length_merge hleft hright, Reading.actions, Reading.actions,
    Reading.passes_acts, Reading.passes_acts, Reading.volume_acts hcounted,
    Reading.volume_acts hdcounted] at hnew
  exact hnew.symm

namespace Outline

/-- Two outlines of one document that together lead to a document within the limit. -/
def Roomy (c d : Outline) : Prop :=
  c.sharedLength d + c.volume + d.volume ≤ lengthLimit

instance (c d : Outline) : Decidable (Roomy c d) :=
  inferInstanceAs (Decidable (_ ≤ _))

/-- An outline that operations lead to from ones that are read; `room` is asked of two outlines of
which one is rebased over the other. -/
inductive Derived (room : Outline → Outline → Prop) : Outline → Prop
  | ofJson {v : Json} {d : Outline} : ofJson v = .ok d → Derived room d
  | inverse {d : Outline} : Derived room d → Derived room d.inverse
  | andThen {c d e : Outline} :
    Derived room c → Derived room d → c.andThen d = .ok e → Derived room e
  | rebase {c d e : Outline} (before : Bool) :
    Derived room c → Derived room d → room c d → c.rebase d before = .ok e → Derived room e

/-- An outline with marked spans and with lengths within the limit. -/
structure InRange (d : Outline) : Prop where
  sound : ∀ s ∈ d.spans, Outline.reading.Sound s
  length : d.length ≤ lengthLimit
  newLength : d.newLength ≤ lengthLimit

namespace InRange

variable {c d e : Outline}

theorem marked (hd : d.InRange) : ∀ s ∈ d.spans, s.Marked :=
  fun s hs => (hd.sound s hs).marked

theorem length_lt (hd : d.InRange) : ∀ s ∈ d.spans, s.length < signBound :=
  fun _ hs => lt_signBound ((le_sumBy Span.length hs).trans hd.length)

theorem newLength_lt (hd : d.InRange) : ∀ s ∈ d.spans, s.newLength < signBound :=
  fun _ hs => lt_signBound ((le_sumBy Span.newLength hs).trans hd.newLength)

theorem of_ofJson {v : Json} (h : ofJson v = .ok d) : d.InRange := by
  have hsound := sound_ofJson h
  obtain ⟨pairs, hpairs, rfl⟩ := ofJson_eq_ok_iff.mp h
  obtain ⟨hlength, hnew, -⟩ := merge_spec hpairs.mark
  exact ⟨hsound, hlength.trans_le hpairs.length, hnew.trans_le hpairs.newLength⟩

/-- Undoing swaps the lengths. -/
theorem lengths_inverse (hd : d.InRange) :
    d.inverse.length = d.newLength ∧ d.inverse.newLength = d.length := by
  have hturns := fun s hs => Span.inverse_turns (hd.length_lt s hs)
  constructor
  · rw [Change.length, inverse, sumBy_map]
    exact sumBy_congr _ fun s hs => (hturns s hs).2.1
  · rw [Change.newLength, inverse, sumBy_map]
    exact sumBy_congr _ fun s hs => (hturns s hs).2.2

theorem inverse (hd : d.InRange) : d.inverse.InRange := by
  obtain ⟨hlength, hnew⟩ := hd.lengths_inverse
  exact ⟨sound_inverse hd.sound hd.length, hlength.trans_le hd.newLength, hnew.trans_le hd.length⟩

/-- A change put behind another has the first length of the one and the second of the other. -/
theorem lengths_andThen (hc : c.InRange) (hd : d.InRange) (h : c.andThen d = .ok e) :
    (∀ s ∈ e.spans, Outline.reading.Sound s) ∧ e.length = c.length
      ∧ e.newLength = d.newLength := by
  have hfits : c.newLength = d.length := Change.fits_of_andThen h
  obtain ⟨e', he', hsound, hlength, -, hrun⟩ :=
    Reading.andThen_spec hc.sound hd.sound hc.newLength_lt hfits
  obtain rfl : e' = e := Except.ok.inj (he'.symm.trans h)
  have hdoc : (List.replicate c.length (none : Item)).length = c.length := List.length_replicate
  exact ⟨hsound, hlength, Reading.newLength_andThen hc.sound hd.sound hsound hfits hlength hdoc
    (hrun _ hdoc)⟩

theorem andThen (hc : c.InRange) (hd : d.InRange) (h : c.andThen d = .ok e) : e.InRange := by
  obtain ⟨hsound, hlength, hnew⟩ := hc.lengths_andThen hd h
  exact ⟨hsound, hlength.trans_le hc.length, hnew.trans_le hd.newLength⟩

/-- A rebased change is within the limit if and only if there is room for both. -/
theorem rebase {before : Bool} (hc : c.InRange) (hd : d.InRange) (hroom : Roomy c d)
    (h : c.rebase d before = .ok e) : e.InRange := by
  have hfits : d.length = c.length := Change.fits_of_rebase h
  obtain ⟨e', he', hsound, hlength, -⟩ := Reading.rebase_spec hc.sound hd.sound hfits before
  obtain rfl : e' = e := Except.ok.inj (he'.symm.trans h)
  exact ⟨hsound, hlength.trans_le hd.newLength,
    (Change.newLength_rebase hc.marked hd.marked h).trans_le hroom⟩

end InRange

/-- Whatever operations lead to is within the limit, if there was room wherever one outline was
rebased over another. -/
theorem Derived.inRange {d : Outline} (h : Derived Roomy d) : d.InRange := by
  induction h with
  | ofJson hread => exact InRange.of_ofJson hread
  | inverse _ ih => exact ih.inverse
  | andThen _ _ hmade ihc ihd => exact ihc.andThen ihd hmade
  | rebase before _ _ hroom hmade ihc ihd => exact ihc.rebase ihd hroom hmade

theorem Derived.obtainable {d : Outline} (h : Derived Roomy d) :
    Outline.Obtainable (· ≤ lengthLimit) d := by
  induction h with
  | ofJson hread =>
    have hrange := InRange.of_ofJson hread
    exact .ofJson hread ⟨hrange.length, hrange.newLength⟩
  | inverse hd ih =>
    have hrange := hd.inverse.inRange
    exact .inverse ih ⟨hrange.length, hrange.newLength⟩
  | andThen hc hd hmade ihc ihd =>
    have hrange := (hc.andThen hd hmade).inRange
    exact .andThen ihc ihd hmade ⟨hrange.length, hrange.newLength⟩
  | rebase before hc hd hroom hmade ihc ihd =>
    have hrange := (hc.rebase before hd hroom hmade).inRange
    exact .rebase before ihc ihd hmade ⟨hrange.length, hrange.newLength⟩

/-- So it is read as it is written. -/
theorem Derived.ofJson_toJson {d : Outline} (h : Derived Roomy d) :
    Outline.ofJson d.toJson = .ok d :=
  Outline.ofJson_toJson h.obtainable.normalSpans h.inRange.length h.inRange.newLength

end Outline

end TextRevision
