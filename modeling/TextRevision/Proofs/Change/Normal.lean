import TextRevision.Proofs.Change.Sequence

/-!
# The form of revisions

Whatever operations lead to a revision or an outline, none of its spans is without characters, and
no two neighbours are both kept runs, both deletions or both insertions at one place.

In composition a span may be joined to the newest one in any case. This keeps the form as long as
both are replaced runs, which rests on lengths that are held by signed words.

## Main definitions

- `Draft.Tidy`: a draft in normal form

## Main statements

- `Revision.normal_inverse`, `Revision.normal_ofEdit`
- `Revision.ObtainableBy.normalSpans`, `Outline.Obtainable.normalSpans`
- `Revision.insertedOf_eq`: what is told of insertions
-/

namespace TextRevision

open TextRevision.Span (Normal Separate)

variable {α : Type} [Insertion α]

theorem Change.normal_unchanged (length : Nat) :
    Normal (Change.unchanged length : Change α).spans := by
  rw [Change.unchanged]
  dsimp only
  split
  · next hpos =>
    refine ⟨List.forall_mem_singleton.mpr ⟨Int.le_refl _, ?_⟩, List.isChain_singleton _⟩
    rw [Span.isVoid_eq_false_iff]
    exact Or.inl hpos
  · exact Span.normal_nil

theorem Revision.normal_ofJson {v : Json} {c : Revision} (h : Revision.ofJson v = .ok c)
    (hfits : ∀ items, v.items? = some items → ∀ item ∈ items, ∀ s, Revision.part? item = some s →
      s.text.length ≤ lengthLimit) : Normal c.spans := by
  obtain ⟨parts, hfit, hcollect⟩ := Revision.collect_of_ofJson h hfits
  have hnormal := Change.collect_stable Span.stable_normal (fun s hs => (hfit s hs).mark)
    Span.normal_nil hcollect
  rw [← List.reverse_reverse c.spans]
  exact hnormal.reverse

theorem Outline.normal_ofJson {v : Json} {d : Outline} (h : Outline.ofJson v = .ok d) :
    Normal d.spans := by
  obtain ⟨numbers, parts, hparts, hcollect⟩ := Outline.ofJson_eq_ok h
  have hnormal := Change.collect_stable Span.stable_normal (Outline.mark_of_mem_spans? hparts)
    Span.normal_nil hcollect
  rw [← List.reverse_reverse d.spans]
  exact hnormal.reverse

/-- A revision in normal form stays so when it is rebased, whatever over. -/
theorem Change.normal_rebase {β : Type} [Insertion β] {c e : Change α} {d : Change β}
    {before : Bool} (hc : Normal c.spans) (h : c.rebase d before = .ok e) : Normal e.spans := by
  have hnormal := rebase_stable Span.stable_normal Span.normal_nil hc.reverse h
  rw [← List.reverse_reverse e.spans]
  exact hnormal.reverse

theorem Change.normal_divide {c : Change α} (hc : Normal c.spans) (ranges : List (Nat × Nat)) :
    Normal (c.divide ranges).outside.spans ∧ Normal (c.divide ranges).inside.spans := by
  obtain ⟨houtside, hinside⟩ := divide_stable Span.stable_normal Span.stable_normal Span.normal_nil
    Span.normal_nil (fun s hs => (hc.marked s hs).mark) ranges
  rw [← List.reverse_reverse (c.divide ranges).outside.spans,
    ← List.reverse_reverse (c.divide ranges).inside.spans]
  exact ⟨houtside.reverse, hinside.reverse⟩

section Undoing

/-- Undoing turns kept runs into kept runs, and deletions into insertions and back. -/
theorem Span.Apart.inverse {s t : Span Unit} (h : s.Apart t) (hs : s.Marked) (ht : t.Marked)
    (hslength : s.length < signBound) (htlength : t.length < signBound) :
    s.inverse.Apart t.inverse := by
  have hkept := h.kept
  have hdeleted := h.deleted
  have hinserted := h.inserted
  have hsvoid := hs.not_void
  have htvoid := ht.not_void
  rw [Span.isVoid_eq_false_iff] at hsvoid htvoid
  rw [Span.inverse, Span.inverse, signedWord_of_lt hslength, signedWord_of_lt htlength]
  by_cases hsKept : s.count < 0 <;> by_cases htKept : t.count < 0
  · exact absurd ⟨hsKept, htKept⟩ hkept
  · rw [if_pos (by simpa [Span.isKept] using hsKept), if_neg (by simpa [Span.isKept] using htKept)]
    constructor <;> dsimp only <;> omega
  · rw [if_neg (by simpa [Span.isKept] using hsKept), if_pos (by simpa [Span.isKept] using htKept)]
    constructor <;> dsimp only <;> omega
  · rw [if_neg (by simpa [Span.isKept] using hsKept), if_neg (by simpa [Span.isKept] using htKept)]
    constructor <;> dsimp only <;> omega

/-- The outline of what undoes a revision is what undoes its outline. -/
theorem Revision.shape_inverseFrom (doc : Rope) (pos : Nat) (spans : List (Span Rope)) :
    (inverseFrom doc pos spans).map Span.shape
      = spans.map fun s => s.shape.inverse := by
  induction spans generalizing pos with
  | nil => rfl
  | cons s spans ih =>
    rw [inverseFrom, List.map_cons, List.map_cons, ih, Span.inverse]
    congr 1
    by_cases hkept : s.isKept = true
    · rw [if_pos hkept, if_pos (show s.shape.isKept = true from hkept)]
      rfl
    · rw [if_neg hkept, if_neg (show ¬ s.shape.isKept = true from hkept)]
      simp only [Span.shape, Span.map]

omit [Insertion α] in
/-- Whether spans are apart can be told of their shapes. -/
theorem Span.separate_shape {spans : List (Span α)} :
    Separate (spans.map Span.shape) ↔ Separate spans := by
  rw [Separate, List.isChain_map]
  exact ⟨List.IsChain.imp fun s t h => ⟨h.kept, h.deleted, h.inserted⟩,
    List.IsChain.imp fun s t h => ⟨h.kept, h.deleted, h.inserted⟩⟩

omit [Insertion α] in
/-- The outline of a change in normal form is in normal form. -/
theorem Change.normal_outline {c : Change α} (hc : Normal c.spans) : Normal c.outline.spans := by
  refine ⟨fun s hs => ?_, Span.separate_shape.mpr hc.separate⟩
  obtain ⟨t, ht, rfl⟩ := List.mem_map.mp hs
  exact (hc.marked t ht).of_eq rfl rfl

/-- The inverse of an outline in normal form is in normal form. -/
theorem Outline.normal_inverse {d : Outline} (hd : ∀ s ∈ d.spans, Outline.reading.Sound s)
    (hnormal : Normal d.spans) (hfits : d.length ≤ lengthLimit) : Normal d.inverse.spans := by
  have hsmall : ∀ s ∈ d.spans, s.length < signBound := fun s hs =>
    lt_signBound (Nat.le_trans (le_sumBy Span.length hs) hfits)
  refine ⟨fun s hs => (Outline.sound_inverse hd hfits s hs).marked, ?_⟩
  rw [Outline.inverse, Separate, List.isChain_map]
  refine List.IsChain.imp_of_mem_imp (fun s t hs ht hapart => ?_) hnormal.separate
  exact hapart.inverse (hnormal.marked s hs) (hnormal.marked t ht) (hsmall s hs) (hsmall t ht)

/-- The inverse of a revision in normal form is in normal form. -/
theorem Revision.normal_inverse {c d : Revision} {doc : Rope}
    (hc : ∀ s ∈ c.spans, Rope.reading.Sound s) (hnormal : Normal c.spans)
    (hdoc : doc.Obeys Rope.shareRule) (hfits : c.length ≤ lengthLimit)
    (h : c.inverse doc = .ok d) : Normal d.spans := by
  have hsound := Revision.sound_inverse hc hdoc hfits h
  have hsmall : ∀ s ∈ c.spans, s.length < signBound := fun s hs =>
    lt_signBound (Nat.le_trans (le_sumBy Span.length hs) hfits)
  refine ⟨fun s hs => (hsound s hs).marked, ?_⟩
  rw [Revision.inverse_eq] at h
  split at h
  · obtain rfl := Except.ok.inj h
    rw [← Span.separate_shape, Revision.shape_inverseFrom, Separate, List.isChain_map]
    refine List.IsChain.imp_of_mem_imp (fun s t hs ht hapart => ?_) hnormal.separate
    have hshapes : s.shape.Apart t.shape := ⟨hapart.kept, hapart.deleted, hapart.inserted⟩
    exact hshapes.inverse ((hnormal.marked s hs).of_eq rfl rfl)
      ((hnormal.marked t ht).of_eq rfl rfl) (hsmall s hs) (hsmall t ht)
  · cases h

end Undoing

namespace Draft

/-- A draft in normal form. -/
structure Tidy (d : Draft) : Prop where
  spans : Normal d.spans
  total : ∀ total, d.total = some total → Normal total.spans

variable {d d' : Draft} {spent : Nat}

/-- The spans of the batches before are short. -/
theorem Held.newLength_lt (h : d.Held spent) (hlimit : d.length ≤ lengthLimit)
    (hspent : spent ≤ lengthLimit) {total : Revision} (htotal : d.total = some total) :
    ∀ s ∈ total.spans, s.newLength < signBound := by
  have hvolume := h.volume
  rw [htotal, Option.elim_some] at hvolume
  exact total.newLength_lt (h.length total htotal ▸ hlimit) (by omega)

/-- A revision in normal form is merged into a tidy draft. -/
theorem Tidy.merge {c : Revision} (htidy : d.Tidy) (h : d.Held spent)
    (hc : ∀ s ∈ c.spans, Rope.reading.Sound s) (hnormal : Normal c.spans)
    (hlimit : d.length ≤ lengthLimit) (hspent : spent ≤ lengthLimit)
    (hmerge : d.merge c = .ok d') : d'.Tidy := by
  obtain ⟨hnone, rfl⟩ | ⟨total, rebased, next, htotal, hrebased, hnext, rfl⟩ := merge_eq_ok hmerge
  · exact ⟨htidy.spans, fun total htotal => Option.some.inj htotal ▸ hnormal⟩
  · have hsound := h.sound total htotal
    have hrebasedSound := Reading.sound_rebase hc (Reading.sound_outline hsound) hrebased
    have hnextNormal := Reading.normal_andThen hsound hrebasedSound
      (h.newLength_lt hlimit hspent htotal) (htidy.total total htotal)
      (Change.normal_rebase hnormal hrebased) hnext
    exact ⟨htidy.spans, fun total htotal => Option.some.inj htotal ▸ hnextNormal⟩

theorem Tidy.batch (htidy : d.Tidy) : Normal d.batch.spans :=
  (Span.stable_normal.keep htidy.spans _).reverse

theorem Tidy.close (htidy : d.Tidy) (h : d.Held spent) (hlimit : d.length ≤ lengthLimit)
    (hspent : spent ≤ lengthLimit) (hclose : d.close = .ok d') : d'.Tidy := by
  have hemptied : Held spent { d with spans := [], pos := 0 } :=
    ⟨by simp, rfl, Nat.zero_le _, h.sound, h.length,
      Nat.le_trans (Nat.add_le_add_right (Nat.zero_le _) _) h.volume⟩
  have hemptiedTidy : Tidy { d with spans := [], pos := 0 } := ⟨Span.normal_nil, htidy.total⟩
  exact hemptiedTidy.merge hemptied h.batch.1 htidy.batch hlimit hspent hclose

theorem Tidy.settle (htidy : d.Tidy) (h : d.Held spent) (hlimit : d.length ≤ lengthLimit)
    (hspent : spent ≤ lengthLimit) (hsettle : d.settle = .ok d') : d'.Tidy := by
  obtain ⟨-, rfl⟩ | hclose := settle_eq_ok hsettle
  · exact htidy
  · exact htidy.close h hlimit hspent hclose

theorem Tidy.putReplaced {start stop : Nat} {text : Rope} (htidy : d.Tidy)
    (hlength : text.length ≤ lengthLimit) : (d.putReplaced start stop text).Tidy := by
  have hmark : Span.keptMark ≤ (Span.replace (stop - start) text).count := by
    rw [Span.replace, signedWord_of_lt (lt_signBound hlength)]
    exact Span.keptMark_le (Int.natCast_nonneg _)
  exact ⟨Span.stable_normal hmark (Span.stable_normal.keep htidy.spans _), htidy.total⟩

/-- One more edit leaves a draft tidy. -/
theorem Tidy.add {atom : Edit} (htidy : d.Tidy) (h : d.Held spent)
    (hsound : ∀ c, atom = .revision c → ∀ s ∈ c.spans, Rope.reading.Sound s)
    (hnormal : ∀ c, atom = .revision c → Normal c.spans) (hlimit : d.length ≤ lengthLimit)
    (hspent : spent + atom.atomVolume d.sep ≤ lengthLimit) (hadd : d.add atom = .ok d') :
    d'.Tidy := by
  cases atom with
  | replace start stop text =>
    rw [Draft.add] at hadd
    split at hadd
    · cases hadd
    · rw [Edit.atomVolume] at hspent
      obtain rfl | ⟨-, rfl⟩ | ⟨-, settled, hsettled, rfl⟩ := replace_eq_ok hadd
      · exact htidy
      · exact htidy.putReplaced (by omega)
      · exact (htidy.settle h hlimit (by omega) hsettled).putReplaced (by omega)
  | revision c =>
    rw [Edit.atomVolume] at hspent
    obtain ⟨_, -, hadd⟩ := ok_of_bind hadd
    obtain ⟨settled, hsettled, hadd⟩ := ok_of_bind hadd
    obtain ⟨hheld, -, hlength, -⟩ := h.settle hlimit (by omega) hsettled
    exact (htidy.settle h hlimit (by omega) hsettled).merge hheld (hsound c rfl) (hnormal c rfl)
      (hlength ▸ hlimit) (by omega) hadd
  | many edits =>
    obtain rfl := Except.ok.inj hadd
    exact htidy

/-- A draft stays tidy over any number of edits. -/
theorem Tidy.foldl_add {atoms : List Edit} (htidy : d.Tidy) (h : d.Held spent)
    (htexts : ∀ atom ∈ atoms, Rope.Preserved.AtomTexts (Rope.Obeys Rope.shareRule) atom)
    (hsound : ∀ c, .revision c ∈ atoms → ∀ s ∈ c.spans, Rope.reading.Sound s)
    (hnormal : ∀ c, .revision c ∈ atoms → Normal c.spans) (hlimit : d.length ≤ lengthLimit)
    (hspent : spent + sumBy (Edit.atomVolume d.sep) atoms ≤ lengthLimit)
    (hfold : atoms.foldlM Draft.add d = .ok d') : d'.Tidy := by
  induction atoms generalizing d spent with
  | nil =>
    obtain rfl := Except.ok.inj hfold
    exact htidy
  | cons atom atoms ih =>
    obtain ⟨hatom, htexts⟩ := List.forall_mem_cons.mp htexts
    rw [List.foldlM_cons] at hfold
    obtain ⟨next, hnext, hfold⟩ := ok_of_bind hfold
    rw [sumBy_cons, ← Nat.add_assoc] at hspent
    have hfirst := fun c (hc : atom = .revision c) => hsound c (hc ▸ List.mem_cons_self)
    have hatomSpent : spent + atom.atomVolume d.sep ≤ lengthLimit := by omega
    obtain ⟨hheld, hlength, hsep⟩ := h.add hatom hfirst hlimit hatomSpent hnext
    rw [← hsep] at hspent
    exact ih (htidy.add h hfirst (fun c hc => hnormal c (hc ▸ List.mem_cons_self)) hlimit
      hatomSpent hnext) (hsep ▸ hheld) htexts (fun c hc => hsound c (List.mem_cons_of_mem _ hc))
      (fun c hc => hnormal c (List.mem_cons_of_mem _ hc)) (hlength ▸ hlimit) hspent hfold

end Draft

/-- The revision that edits make is in normal form, if they insert no more than the limit. -/
theorem Revision.normal_ofEdit {edit : Edit} {length : Nat} {sep : Option String} {c : Revision}
    (htexts : ∀ atom ∈ edit.atoms, Rope.Preserved.AtomTexts (Rope.Obeys Rope.shareRule) atom)
    (hsound : ∀ c, .revision c ∈ edit.atoms → ∀ s ∈ c.spans, Rope.reading.Sound s)
    (hnormal : ∀ c, .revision c ∈ edit.atoms → Normal c.spans)
    (hlimit : length ≤ lengthLimit) (hvolume : edit.volume sep ≤ lengthLimit)
    (h : Revision.ofEdit edit length sep = .ok c) : Normal c.spans := by
  obtain ⟨d, hd, h⟩ := ok_of_bind h
  have hstart : Draft.Held 0 ⟨length, sep, [], 0, none⟩ :=
    ⟨by simp, rfl, Nat.zero_le _, by simp, by simp, Nat.le_refl _⟩
  have hstartTidy : Draft.Tidy ⟨length, sep, [], 0, none⟩ := ⟨Span.normal_nil, by simp⟩
  have hspent : 0 + sumBy (Edit.atomVolume sep) edit.atoms ≤ lengthLimit :=
    (Nat.zero_add _).symm ▸ hvolume
  obtain ⟨hheld, hlength⟩ := hstart.foldl_add htexts hsound hlimit hspent hd
  have htidy := hstartTidy.foldl_add hstart htexts hsound hnormal hlimit hspent hd
  rw [Nat.zero_add] at hheld
  have hlimit : d.length ≤ lengthLimit := Nat.le_trans (Nat.le_of_eq hlength) hlimit
  obtain ⟨finished, hfinished, rfl⟩ := Draft.finish_eq_ok h
  have hdone : finished.Tidy := by
    split at hfinished
    · exact htidy.close hheld hlimit hvolume hfinished
    · exact htidy.settle hheld hlimit hvolume hfinished
  cases htotal : finished.total with
  | none => exact Change.normal_unchanged finished.length
  | some total => exact hdone.total total htotal

section Inserted

namespace Revision

/-- The insertion of a run, which is the empty document for every run that inserts nothing. -/
def insertionOf (s : Span Rope) : Rope :=
  if s.text.isEmpty then Rope.empty else s.text

theorem isEmpty_insertionOf (s : Span Rope) : (insertionOf s).isEmpty = s.text.isEmpty := by
  rw [insertionOf]
  split
  · next hempty => exact hempty.symm
  · rfl

/-- The insertions are told up to the last that is not empty. -/
theorem insertedOf_eq (spans : List (Span Rope)) :
    insertedOf spans = (spans.map insertionOf).rdropWhile Rope.isEmpty := by
  induction spans with
  | nil => rfl
  | cons s spans ih =>
    have hcons : ((s :: spans).map insertionOf).rdropWhile Rope.isEmpty
        = if ((spans.map insertionOf).rdropWhile Rope.isEmpty).isEmpty then
            [insertionOf s].rdropWhile Rope.isEmpty
          else insertionOf s :: (spans.map insertionOf).rdropWhile Rope.isEmpty := by
      simp only [List.rdropWhile, List.map_cons, List.reverse_cons, List.dropWhile_append,
        List.isEmpty_reverse, List.reverse_nil, List.nil_append]
      split
      · rfl
      · rw [List.reverse_append, List.reverse_singleton, List.singleton_append]
    rw [hcons, ← ih, List.rdropWhile_singleton, insertedOf]
    cases insertedOf spans <;> rfl

theorem length_insertedOf_le (spans : List (Span Rope)) :
    (insertedOf spans).length ≤ spans.length := by
  have hle := (List.rdropWhile_prefix Rope.isEmpty (spans.map insertionOf)).length_le
  rwa [← insertedOf_eq, List.length_map] at hle

/-- The insertion of a run is told in its place; one that is empty may be left out. -/
theorem getElem?_insertedOf {spans : List (Span Rope)} {i : Nat} {s : Span Rope}
    (h : spans[i]? = some s) :
    (insertedOf spans)[i]? = some (insertionOf s)
      ∨ ((insertedOf spans)[i]? = none ∧ s.text.isEmpty = true) := by
  have hall : (spans.map insertionOf)[i]? = some (insertionOf s) := by
    rw [List.getElem?_map, h]
    rfl
  have hsplit : insertedOf spans ++ (spans.map insertionOf).rtakeWhile Rope.isEmpty
      = spans.map insertionOf := by
    rw [insertedOf_eq, List.rdropWhile_append_rtakeWhile]
  rw [← hsplit] at hall
  by_cases hlt : i < (insertedOf spans).length
  · rw [List.getElem?_append_left hlt] at hall
    exact Or.inl hall
  · rw [List.getElem?_append_right (Nat.not_lt.mp hlt)] at hall
    have hempty := List.mem_rtakeWhile_imp (List.mem_of_getElem? hall)
    rw [isEmpty_insertionOf] at hempty
    exact Or.inr ⟨List.getElem?_eq_none (Nat.not_lt.mp hlt), hempty⟩

/-- The last insertion that is told is not empty. -/
theorem isEmpty_getLast?_insertedOf {spans : List (Span Rope)} {text : Rope}
    (h : (insertedOf spans).getLast? = some text) : text.isEmpty = false := by
  have hne : (spans.map insertionOf).rdropWhile Rope.isEmpty ≠ [] := by
    rw [← insertedOf_eq]
    rintro hnil
    rw [hnil] at h
    cases h
  have hlast := List.rdropWhile_last_not Rope.isEmpty _ hne
  rw [insertedOf_eq, List.getLast?_eq_some_getLast hne, Option.some.injEq] at h
  rw [h] at hlast
  simpa using hlast

/-- What is told of the insertion of a new run behind others. -/
theorem insertedOf_concat (spans : List (Span Rope)) (s : Span Rope) :
    insertedOf (spans ++ [s])
      = if s.text.isEmpty then insertedOf spans else spans.map insertionOf ++ [s.text] := by
  rw [insertedOf_eq, List.map_append, List.map_singleton, List.rdropWhile_concat,
    isEmpty_insertionOf, ← insertedOf_eq]
  split
  · rfl
  · next hsome => rw [insertionOf, if_neg hsome]

/-- The insertions that are not told are empty documents. -/
theorem map_insertionOf (spans : List (Span Rope)) :
    spans.map insertionOf = insertedOf spans
      ++ List.replicate (spans.length - (insertedOf spans).length) Rope.empty := by
  have hsplit : insertedOf spans ++ (spans.map insertionOf).rtakeWhile Rope.isEmpty
      = spans.map insertionOf := by
    rw [insertedOf_eq, List.rdropWhile_append_rtakeWhile]
  have hlength := congrArg List.length hsplit
  rw [List.length_append, List.length_map] at hlength
  rw [← hsplit]
  congr 1
  refine List.eq_replicate_iff.mpr ⟨by omega, fun text htext => ?_⟩
  obtain ⟨s, -, rfl⟩ := List.mem_map.mp ((List.rtakeWhile_suffix _ _).subset htext)
  have hempty := List.mem_rtakeWhile_imp htext
  rw [isEmpty_insertionOf] at hempty
  rw [insertionOf, if_pos hempty]

end Revision

end Inserted

mutual

theorem Edit.ObtainableBy.normalSpans {admits : Admission} {sep : Option String} {e : Edit} :
    Edit.ObtainableBy (· ≤ lengthLimit) admits sep e →
    ∀ c, .revision c ∈ e.atoms → Normal c.spans
  | .nothing start stop => by simp [Edit.atoms]
  | .string start stop _ => by simp [Edit.atoms]
  | .rope start stop hr => by simp [Edit.atoms]
  | .revision hc => by
    have hnormal := hc.normalSpans
    intro c hmem
    rw [Edit.atoms, List.mem_singleton, Edit.revision.injEq] at hmem
    exact hmem ▸ hnormal
  | .many hedits => by
    intro c hmem
    obtain ⟨e, he, hmem⟩ := Edit.mem_atomsOf hmem
    exact (hedits e he).normalSpans c hmem

/-- Every revision that operations lead to is in normal form, where all lengths are within the
limit. -/
theorem Revision.ObtainableBy.normalSpans {admits : Admission} {c : Revision} :
    Revision.ObtainableBy (· ≤ lengthLimit) admits c → Normal c.spans
  | .unchanged length _ => Change.normal_unchanged length
  | .ofEdit hedit h hlength hvolume _ =>
    Revision.normal_ofEdit (hedit.texts Rope.preserved_share) hedit.sound hedit.normalSpans hlength
      hvolume h
  | .ofJson h _ hfits => Revision.normal_ofJson h hfits
  | .inverse hc hdoc h _ =>
    Revision.normal_inverse hc.sound hc.normalSpans hdoc.obeys hc.within.1 h
  | .andThen hc hd h _ => Reading.normal_andThen hc.sound hd.sound hc.within.newLength_lt
      hc.normalSpans hd.normalSpans h
  | .rebase _ hc _ h _ => Change.normal_rebase hc.normalSpans h
  | .divide ranges hc _ => (Change.normal_divide hc.normalSpans ranges).1

/-- So is every outline. -/
theorem Outline.Obtainable.normalSpans {d : Outline} :
    Outline.Obtainable (· ≤ lengthLimit) d → Normal d.spans
  | .outline hc => Change.normal_outline hc.normalSpans
  | .ofJson h _ => Outline.normal_ofJson h
  | .inverse hd _ => Outline.normal_inverse hd.sound hd.normalSpans hd.within.1
  | .andThen hc hd h _ => Reading.normal_andThen hc.sound hd.sound hc.within.newLength_lt
      hc.normalSpans hd.normalSpans h
  | .rebase _ hc _ h _ => Change.normal_rebase hc.normalSpans h
  | .divide ranges hc _ => (Change.normal_divide hc.normalSpans ranges).2

end

/-- The insertion of a run is empty if the run counts none. -/
theorem Rope.isEmpty_text_iff {s : Span Rope} (hs : Rope.reading.Fit s) :
    s.text.isEmpty = true ↔ s.count ≤ 0 := by
  have hlength : s.text.length = s.count.toNat := hs.proper.2
  simp only [Rope.isEmpty, decide_eq_true_eq]
  omega

/-- An insertion that is counted is told in the place of its run. -/
theorem Revision.getElem?_insertedOf_of_pos {spans : List (Span Rope)} {i : Nat} {s : Span Rope}
    (hs : Rope.reading.Sound s) (h : spans[i]? = some s) (hpos : 0 < s.count) :
    (insertedOf spans)[i]? = some s.text := by
  have hsome : ¬ s.text.isEmpty = true :=
    (Rope.isEmpty_text_iff hs.toFit).not.mpr (Int.not_le.mpr hpos)
  rcases Revision.getElem?_insertedOf h with htold | ⟨-, hempty⟩
  · rwa [insertionOf, if_neg hsome] at htold
  · exact absurd hempty hsome

end TextRevision
