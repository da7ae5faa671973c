import TextRevision.ChangeSet.Divide
import TextRevision.Proofs.ChangeSet.Walks

/-!
# Operations on change sets and on revisions

Within the limit of written changes, an operation on change sets does what the operation on
revisions does: it is refused with the same fault, or it has the result of the other, told in two
lists.

## Main statements

- `ChangeSet.andThen_ofRevision`, `ChangeSet.rebase_ofRevision`
- `ChangeSet.inverse_ofRevision`, `ChangeSet.ofJson_eq`
- `Outline.andThen?_eq`, `Outline.rebase?_eq`
-/

namespace TextRevision

variable {α β : Type}

theorem Change.Within.length?_eq {c : Change α} (h : c.Within (· ≤ lengthLimit)) :
    c.length? = some c.length :=
  (sumBy?_eq _ _).trans (word?_of_lt (h.1.trans_lt (by decide)))

theorem Change.Within.newLength?_eq {c : Change α} (h : c.Within (· ≤ lengthLimit)) :
    c.newLength? = some c.newLength :=
  (sumBy?_eq _ _).trans (word?_of_lt (h.2.trans_lt (by decide)))

/-- Signed words hold the counts of a change within the limit. -/
theorem Change.Within.count_lt {c : Change α} (h : c.Within (· ≤ lengthLimit)) :
    ∀ s ∈ c.spans, s.count < signBound :=
  Change.count_lt (c.volume_le_newLength.trans h.2)

theorem Change.within_outline {fits : Nat → Prop} {c : Change α} (h : c.Within fits) :
    c.outline.Within fits := by
  rwa [Change.Within, Change.length_outline, Change.newLength_outline]

section Choices

variable {m k : Nat}

theorem Checked.fits_eq (expected actual : Nat) :
    (liftM (Change.fits expected actual) : Checked Unit)
      = if expected = actual then .done () else .refused (.lengthMismatch expected actual) := by
  rw [Change.fits]
  split <;> rfl

/-- Two change sets that do not meet in one document are refused. Otherwise one that keeps
everything is left out, and else the walk decides. -/
theorem ChangeSet.andThen_eq {c d : ChangeSet} (hc : c.outline.newLength? = some m)
    (hd : d.outline.length? = some k) :
    c.andThen d =
      if m = k then
        if c.outline.isEmpty then .done d
        else if d.outline.isEmpty then .done c
        else ofLedger <$> Change.checkedWalk m k (composeWalk c d)
      else .refused (.lengthMismatch m k) := by
  rw [andThen, hc, hd]
  simp only [Checked.lift_some, Checked.done_bind, Checked.fits_eq]
  split
  · cases c.outline.isEmpty <;> cases d.outline.isEmpty <;> rfl
  · rfl

/-- Two change sets of documents of different lengths are refused. Otherwise one is rebased over the
other by the walk, unless the other keeps everything. -/
theorem ChangeSet.rebase_eq {c : ChangeSet} {d : Outline} (hd : d.length? = some m)
    (hc : c.outline.length? = some k) (before : Bool) :
    c.rebase d before =
      if m = k then
        if d.isEmpty then .done c
        else ofLedger <$> Change.checkedWalk m k (rebaseWalk c d before)
      else .refused (.lengthMismatch m k) := by
  rw [rebase, hd, hc]
  simp only [Checked.lift_some, Checked.done_bind, Checked.fits_eq]
  split
  · cases d.isEmpty <;> rfl
  · rfl

theorem Outline.andThen?_choice {c d : Outline} (hc : c.newLength? = some m)
    (hd : d.length? = some k) :
    c.andThen? d =
      if m = k then
        if c.isEmpty then .done d
        else if d.isEmpty then .done c
        else
          ofLedger <$> Change.checkedWalk m k (Change.composeRuns
            (c.spans.map Rest.ofSpan) (d.spans.map Rest.ofSpan) false .blank)
      else .refused (.lengthMismatch m k) := by
  rw [andThen?, hc, hd]
  simp only [Checked.lift_some, Checked.done_bind, Checked.fits_eq]
  split
  · cases c.isEmpty <;> cases d.isEmpty <;> rfl
  · rfl

theorem Outline.rebase?_choice {c d : Outline} (hd : d.length? = some m)
    (hc : c.length? = some k) (before : Bool) :
    c.rebase? d before =
      if m = k then
        if d.isEmpty then .done c
        else
          ofLedger <$> Change.checkedWalk m k (Change.rebaseRuns before
            (c.spans.map Rest.ofSpan) false (d.spans.map Rest.ofSpan) .blank)
      else .refused (.lengthMismatch m k) := by
  rw [rebase?, hd, hc]
  simp only [Checked.lift_some, Checked.done_bind, Checked.fits_eq]
  split
  · cases d.isEmpty <;> rfl
  · rfl

end Choices

namespace Outline

variable {c d : Outline}

/-- Runs without insertions are the spans of an outline. -/
theorem ofLedger_eq {l : Ledger Unit} {out : List (Span Unit)}
    (h : l.runs = out.reverse.map Span.shape) : ofLedger l = ⟨out⟩ := by
  rw [ofLedger, h, show out.reverse.map Span.shape = out.reverse from List.map_id _,
    List.reverse_reverse]

/-- Within the limit of written changes, an outline is put behind another without a number that
leaves its word. -/
theorem andThen?_eq (hc : ∀ s ∈ c.spans, s.Marked) (hd : ∀ s ∈ d.spans, s.Marked)
    (hcwithin : c.Within (· ≤ lengthLimit)) (hdwithin : d.Within (· ≤ lengthLimit)) :
    c.andThen? d = .ofExcept (c.andThen d) := by
  rw [andThen?_choice hcwithin.newLength?_eq hdwithin.length?_eq, Change.andThen_eq]
  split
  · next hfits =>
    split
    · rfl
    · split
      · rfl
      · have hwalk := Change.composeRuns_start Ledger.stands_runs rfl hc hd hcwithin hdwithin
          (fun _ _ => trivial) (fun _ _ => trivial)
        obtain ⟨out, -, hout, -⟩ := Change.composeSpans_of_fits hc hd hcwithin.count_lt hfits
        rw [hout] at hwalk ⊢
        obtain ⟨l, hl, hruns⟩ := hwalk.exists_finished
        rw [hl]
        exact congrArg Checked.done (ofLedger_eq hruns)
  · rfl

/-- So is an outline rebased over another. -/
theorem rebase?_eq (hc : ∀ s ∈ c.spans, s.Marked) (hd : ∀ s ∈ d.spans, s.Marked)
    (hcwithin : c.Within (· ≤ lengthLimit)) (hdwithin : d.Within (· ≤ lengthLimit))
    (before : Bool) : c.rebase? d before = .ofExcept (c.rebase d before) := by
  rw [rebase?_choice hdwithin.length?_eq hcwithin.length?_eq, Change.rebase_eq]
  split
  · next hfits =>
    split
    · rfl
    · have hwalk := Change.rebaseRuns_start Ledger.stands_runs rfl hc hd hcwithin hdwithin
        (fun _ _ => trivial) before
      obtain ⟨out, -, hout, -⟩ := Change.rebaseSpans_of_fits hc hd hfits before
      rw [hout] at hwalk ⊢
      obtain ⟨l, hl, hruns⟩ := hwalk.exists_finished
      rw [hl]
      exact congrArg Checked.done (ofLedger_eq hruns)
  · rfl

end Outline

namespace ChangeSet

section Sound

variable {c d : Revision}

theorem obeys_of_sound (hc : ∀ s ∈ c.spans, Rope.reading.Sound s) :
    ∀ s ∈ c.spans, s.text.Obeys Rope.shareRule :=
  fun s hs => (hc s hs).proper.1

theorem tells_blank : Ledger.Tells .blank [] :=
  ⟨rfl, fun _ hs => absurd hs List.not_mem_nil⟩

/-- Two lists that tell of what a walk finds are a revision in two lists. -/
theorem ofLedger_eq {l : Ledger Rope} {out : List (Span Rope)} (h : l.Tells out.reverse) :
    ofLedger l = ofRevision ⟨out⟩ := by
  rw [h.1, ofLedger_ofSpans, List.reverse_reverse]

/-- Within the limit of written changes, a change set is put behind another as its revision is. -/
theorem andThen_ofRevision (hc : ∀ s ∈ c.spans, Rope.reading.Sound s)
    (hd : ∀ s ∈ d.spans, Rope.reading.Sound s) (hcwithin : c.Within (· ≤ lengthLimit))
    (hdwithin : d.Within (· ≤ lengthLimit)) :
    (ofRevision c).andThen (ofRevision d) = .ofExcept ((c.andThen d).map ofRevision) := by
  have hcmarked : ∀ s ∈ c.spans, s.Marked := fun s hs => (hc s hs).marked
  have hdmarked : ∀ s ∈ d.spans, s.Marked := fun s hs => (hd s hs).marked
  rw [andThen_eq (Change.within_outline hcwithin).newLength?_eq
    (Change.within_outline hdwithin).length?_eq, Change.andThen_eq, composeWalk,
    revision_ofRevision (obeys_of_sound hc), revision_ofRevision (obeys_of_sound hd)]
  simp only [ofRevision, Change.newLength_outline, Change.length_outline, Change.isEmpty_outline]
  split
  · next hfits =>
    split
    · rfl
    · split
      · rfl
      · have hwalk := Change.composeRuns_start Ledger.stands_ofSpans tells_blank hcmarked hdmarked
          hcwithin hdwithin (fun s hs => Ledger.fine_of_fit (hc s hs).toFit)
          (fun s hs => Ledger.fine_of_fit (hd s hs).toFit)
        obtain ⟨out, -, hout, -⟩ :=
          Change.composeSpans_of_fits hcmarked hdmarked hcwithin.count_lt hfits
        rw [hout] at hwalk ⊢
        obtain ⟨l, hl, htells⟩ := hwalk.exists_finished
        rw [hl]
        exact congrArg Checked.done (ofLedger_eq htells)
  · rfl

/-- So is a change set rebased over an outline. -/
theorem rebase_ofRevision {d : Outline} (hc : ∀ s ∈ c.spans, Rope.reading.Sound s)
    (hd : ∀ s ∈ d.spans, s.Marked) (hcwithin : c.Within (· ≤ lengthLimit))
    (hdwithin : d.Within (· ≤ lengthLimit)) (before : Bool) :
    (ofRevision c).rebase d before = .ofExcept ((c.rebase d before).map ofRevision) := by
  have hcmarked : ∀ s ∈ c.spans, s.Marked := fun s hs => (hc s hs).marked
  rw [rebase_eq hdwithin.length?_eq (Change.within_outline hcwithin).length?_eq, Change.rebase_eq,
    rebaseWalk, revision_ofRevision (obeys_of_sound hc), Change.length_outline]
  split
  · next hfits =>
    split
    · rfl
    · have hwalk := Change.rebaseRuns_start Ledger.stands_ofSpans tells_blank hcmarked hd
        hcwithin hdwithin (fun s hs => Ledger.fine_of_fit (hc s hs).toFit) before
      obtain ⟨out, -, hout, -⟩ := Change.rebaseSpans_of_fits hcmarked hd hfits before
      rw [hout] at hwalk ⊢
      obtain ⟨l, hl, htells⟩ := hwalk.exists_finished
      rw [hl]
      exact congrArg Checked.done (ofLedger_eq htells)
  · rfl

end Sound

section Making

theorem unchanged_eq (length : Nat) : unchanged length = ofRevision (Change.unchanged length) := by
  have hkept : (Span.keep length : Span Rope).text.isEmpty = true := rfl
  rw [unchanged, ofRevision, Change.outline, Revision.inserted, Change.unchanged, Change.unchanged]
  split
  · rw [Revision.insertedOf, if_pos hkept]
    rfl
  · rfl

/-- What undoes runs is told run by run. -/
theorem inverseFrom_ofSpans (doc : Rope) (pos : Nat) (spans told : List (Span Rope)) :
    inverseFrom doc pos (spans.map Span.shape) (.ofSpans told)
      = .ofSpans ((Revision.inverseFrom doc pos spans).reverse ++ told) := by
  induction spans generalizing pos told with
  | nil => rfl
  | cons s spans ih =>
    rw [List.map_cons, inverseFrom, Revision.inverseFrom, List.reverse_cons, List.append_assoc,
      List.singleton_append, ← ih, ← Ledger.tell_ofSpans]
    by_cases hkept : s.isKept = true
    · have hshape : s.shape.isKept = true := hkept
      rw [if_pos hkept, if_pos (Or.inl hshape), Span.inverse, if_pos hshape]
      rfl
    · have hshape : ¬ s.shape.isKept = true := hkept
      have hlength : (s.shape.isKept = true ∨ s.shape.length = 0) ↔ s.length = 0 :=
        or_iff_right hshape
      simp only [hlength]
      rw [if_neg hkept, Span.inverse, if_neg hshape]
      simp only [Span.shape, Span.map, Ledger.ofSpans]

/-- A change set is undone as its revision is. -/
theorem inverse_ofRevision {c : Revision} (hc : c.Within (· ≤ lengthLimit)) (doc : Rope) :
    (ofRevision c).inverse doc = .ofExcept ((c.inverse doc).map ofRevision) := by
  rw [inverse, show (ofRevision c).outline = c.outline from rfl,
    (Change.within_outline hc).length?_eq, Change.length_outline, Revision.inverse_eq]
  simp only [Checked.lift_some, Checked.done_bind, Checked.fits_eq]
  split
  · have htold := inverseFrom_ofSpans doc 0 c.spans []
    rw [List.append_nil] at htold
    refine congrArg Checked.done ?_
    rw [Change.outline, show Ledger.blank = Ledger.ofSpans [] from rfl, htold, ofLedger_ofSpans,
      List.reverse_reverse]
  · rfl

/-- Spans that are read are told in two lists as they are put behind each other. -/
theorem collect_eq {parts spans : List (Span Rope)} (totals : Totals) {l : Ledger Rope}
    (hparts : ∀ s ∈ parts, Rope.reading.Fit s)
    (hl : l.Stocked Ledger.Tells totals.length totals.newLength spans)
    (hlength : totals.length ≤ lengthLimit) (hnew : totals.newLength ≤ lengthLimit) :
    collect parts totals l = match Change.collect? parts totals spans with
      | some spans => .done (.ofSpans spans)
      | none => .refused (.malformedJson .revision) := by
  induction parts generalizing spans totals l with
  | nil =>
    rw [collect, Change.collect?, hl.stands.1]
  | cons s parts ih =>
    obtain ⟨hs, hparts⟩ := List.forall_mem_cons.mp hparts
    rw [collect, Change.collect?, Totals.add?]
    by_cases hheld : totals.length + s.length ≤ lengthLimit
        ∧ totals.newLength + s.newLength ≤ lengthLimit
    · have hvolume := s.volume_le_newLength
      obtain ⟨l', hl', hstocked⟩ := hl.push? Ledger.stands_ofSpans false s (Ledger.fine_of_fit hs)
        hs.mark hheld.1 (by omega)
      rw [if_pos hheld, hl']
      exact ih _ hparts ⟨hstocked.stands, hstocked.marked, hstocked.removed,
        hstocked.inserted.trans (by dsimp only; omega)⟩ hheld.1 hheld.2
    · rw [if_neg hheld]

/-- A change set is read as its revision is, if signed words hold the length of every insertion that
is written. -/
theorem ofJson_eq {v : Json}
    (hfits : ∀ items, v.items? = some items → ∀ item ∈ items, ∀ s, Revision.part? item = some s →
      s.text.length ≤ lengthLimit) :
    ofJson v = .ofExcept ((Revision.ofJson v).map ofRevision) := by
  rw [ofJson, Revision.ofJson, Revision.ofJson?]
  cases hitems : v.items? with
  | none => rfl
  | some items =>
    cases hmap : items.mapM Revision.part? with
    | none =>
      simp only [Option.bind_some, hmap, Option.bind_eq_bind, Option.bind_none]
      rfl
    | some parts =>
      have hfit : ∀ s ∈ parts, Rope.reading.Fit s := by
        intro s hs
        obtain ⟨item, hitem, hpart⟩ := exists_of_mem_mapM hmap hs
        exact Revision.fit_part? hpart (hfits items hitems item hitem s hpart)
      have hcollect := collect_eq ⟨0, 0⟩ hfit (Ledger.stocked_blank tells_blank)
        (Nat.zero_le _) (Nat.zero_le _)
      simp only [Option.bind_some, hmap, Option.bind_eq_bind, Change.ofWritten?]
      rw [hcollect]
      cases Change.collect? parts ⟨0, 0⟩ [] with
      | none => rfl
      | some spans => exact congrArg Checked.done (ofLedger_ofSpans spans)

end Making

end ChangeSet

end TextRevision
