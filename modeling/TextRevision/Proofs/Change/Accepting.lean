import TextRevision.Proofs.Change.Normal

/-!
# Which edits are accepted

An edit is made to a document of a given length if every range in it lies in such a document and
every revision in it is one of such a document. Otherwise the first fault in it is reported. Nothing
else can go wrong: the open batch and the batches before it are changes of one document, so that
they can be rebased and put behind each other however often an edit goes back.

Spans are put together without regard to words here. So all this asks for marks of kept runs, and
only the number of inserted characters has to be held by a signed word.

## Main definitions

- `Edit.Valid`, `Edit.fault?`
- `Draft.Ready`: what is known of a draft without its texts

## Main statements

- `Change.rebase_marked`: a marked change can be rebased over any other
- `Draft.Ready.process`: what the edits in an edit come to, one case for each kind of edit
- `Revision.exists_ofEdit`, `Revision.ofEdit_of_fault`
-/

namespace TextRevision

namespace Edit

variable {κ : Type} (measure : κ → Nat)

/-- Every range in an edit lies in a document of `length` characters, and every change set in it is
one of such a document; `measure` tells of which. -/
inductive Valid (length : Nat) : Edit κ → Prop
  | replace {start stop : Nat} (text : Inserted) :
    start ≤ stop → stop ≤ length → Valid length (.replace start stop text)
  | revision {c : κ} : measure c = length → Valid length (.revision c)
  | many {edits : List (Edit κ)} : (∀ e ∈ edits, Valid length e) → Valid length (.many edits)

mutual

/-- The first fault in an edit of a document of `length` characters, from left to right. -/
def fault? (length : Nat) : Edit κ → Option Fault
  | replace start stop _ =>
    if start ≤ stop ∧ stop ≤ length then none else some (.changeRange start stop length)
  | revision c => if measure c = length then none else some (.lengthMismatch length (measure c))
  | many edits => faultOf? length edits

/-- The first fault in several edits. -/
def faultOf? (length : Nat) : List (Edit κ) → Option Fault
  | [] => none
  | e :: es => (e.fault? length).or (faultOf? length es)

end

mutual

/-- The valid edits are those without a fault. -/
theorem fault?_eq_none_iff (length : Nat) :
    (e : Edit κ) → (e.fault? measure length = none ↔ e.Valid measure length)
  | replace start stop text => by
    rw [fault?]
    split
    · next h => exact iff_of_true rfl (.replace text h.1 h.2)
    · next h =>
      refine iff_of_false (by simp) fun hvalid => ?_
      cases hvalid with
      | replace _ hle hstop => exact h ⟨hle, hstop⟩
  | revision c => by
    rw [fault?]
    split
    · next h => exact iff_of_true rfl (.revision h)
    · next h =>
      refine iff_of_false (by simp) fun hvalid => ?_
      cases hvalid with
      | revision hlength => exact h hlength
  | many edits => by
    rw [fault?, faultOf?_eq_none_iff length edits]
    refine ⟨.many, fun hvalid => ?_⟩
    cases hvalid with
    | many hedits => exact hedits

theorem faultOf?_eq_none_iff (length : Nat) : (edits : List (Edit κ)) →
    (faultOf? measure length edits = none ↔ ∀ e ∈ edits, e.Valid measure length)
  | [] => by simp [faultOf?]
  | e :: es => by
    rw [faultOf?, Option.or_eq_none_iff, fault?_eq_none_iff length e,
      faultOf?_eq_none_iff length es, List.forall_mem_cons]

end

end Edit

section Bounded

variable {α : Type}

theorem Change.volume_le_newLength (c : Change α) : c.volume ≤ c.newLength := by
  rw [Change.volume, Change.newLength]
  induction c.spans with
  | nil => exact Nat.le_refl _
  | cons s spans ih => exact Nat.add_le_add s.volume_le_newLength ih

end Bounded

section Marks

variable {α β : Type} [Insertion α] [Insertion β]

/-- Whatever is inserted, only the number of characters is read. -/
def Reading.counted : Reading α Unit where
  Proper _ _ := True
  content _ n := List.replicate n ()
  length_content _ _ _ := List.length_replicate
  empty := trivial
  join _ _ m n _ _ := ⟨trivial, List.replicate_add m n ()⟩
  extract _ n start stop _ hle hstop := by
    refine ⟨trivial, ?_⟩
    rw [List.drop_replicate, List.take_replicate,
      Nat.min_eq_left (Nat.sub_le_sub_right hstop start)]

omit [Insertion β] in
theorem Span.Marked.counted {s : Span α} (h : s.Marked) : Reading.counted.Sound s :=
  ⟨⟨h.mark, trivial⟩, h.not_void⟩

/-- A marked change can be rebased over any marked change of the same document. What results is a
marked change of what the other leads to, and inserts no more. -/
theorem Change.rebase_marked {c : Change α} {d : Change β} (hc : ∀ s ∈ c.spans, s.Marked)
    (hd : ∀ s ∈ d.spans, s.Marked) (hfits : d.length = c.length) (before : Bool) :
    ∃ e, c.rebase d before = .ok e ∧ (∀ s ∈ e.spans, s.Marked) ∧ e.length = d.newLength
      ∧ e.volume ≤ c.volume := by
  obtain ⟨e, he, hsound, hlength, hvolume, -⟩ := Reading.rebase_spec
    (fun s hs => (hc s hs).counted) (fun s hs => (hd s hs).counted) hfits before
  exact ⟨e, he, fun s hs => (hsound s hs).marked, hlength, hvolume⟩

omit [Insertion α] [Insertion β] in
theorem Change.marked_outline {c : Change α} (hc : ∀ s ∈ c.spans, s.Marked) :
    ∀ s ∈ c.outline.spans, s.Marked := by
  intro s hs
  obtain ⟨t, ht, rfl⟩ := List.mem_map.mp hs
  exact (hc t ht).of_eq rfl rfl

omit [Insertion α] [Insertion β] in
/-- The counts of a change that inserts little are held by signed words. -/
theorem Change.count_lt {c : Change α} (h : c.volume ≤ lengthLimit) :
    ∀ s ∈ c.spans, s.count < signBound := by
  intro s hs
  have hle : s.volume ≤ c.volume := le_sumBy Span.volume hs
  have hlt := lt_signBound (Nat.le_trans hle h)
  rw [Span.volume] at hlt
  omega

end Marks

theorem ok_bind {γ δ : Type} (x : γ) (f : γ → Except Fault δ) : (Except.ok x >>= f) = f x :=
  rfl

namespace Draft

/-- A draft that inserts at most `spent` characters. Its open batch reaches up to a place of the
document, and the batches before it are a revision of the whole document. -/
structure Ready (spent : Nat) (d : Draft) : Prop where
  marked : ∀ s ∈ d.spans, s.Marked
  reached : sumBy Span.length d.spans = d.pos
  pos_le : d.pos ≤ d.length
  total : ∀ total, d.total = some total →
    (∀ s ∈ total.spans, s.Marked) ∧ total.length = d.length
  volume : sumBy Span.volume d.spans + d.total.elim 0 Change.volume ≤ spent

variable {d d' : Draft} {spent : Nat}

theorem Ready.mono {more : Nat} (h : d.Ready spent) (hle : spent ≤ more) : d.Ready more :=
  ⟨h.marked, h.reached, h.pos_le, h.total, Nat.le_trans h.volume hle⟩

/-- A marked revision of the document can be merged into a draft. -/
theorem Ready.merge {c : Revision} (h : d.Ready spent) (hc : ∀ s ∈ c.spans, s.Marked)
    (hlength : c.length = d.length) (hspent : spent ≤ lengthLimit) :
    ∃ next, d.merge c = .ok { d with total := some next }
      ∧ Ready (spent + c.volume) { d with total := some next } := by
  have hvolume := h.volume
  cases htotal : d.total with
  | none =>
    rw [htotal] at hvolume
    refine ⟨c, ?_, h.marked, h.reached, h.pos_le, ?_, Nat.add_le_add_right hvolume _⟩
    · rw [Draft.merge, htotal]
      rfl
    intro total hsome
    obtain rfl := Option.some.inj hsome
    exact ⟨hc, hlength⟩
  | some total =>
    rw [htotal, Option.elim_some] at hvolume
    obtain ⟨hmarked, htotalLength⟩ := h.total total htotal
    obtain ⟨rebased, hrebased, hrebasedMarked, hrebasedLength, hrebasedVolume⟩ :=
      Change.rebase_marked hc (Change.marked_outline hmarked)
        ((total.length_outline.trans htotalLength).trans hlength.symm) false
    rw [Change.newLength_outline] at hrebasedLength
    obtain ⟨next, hnext, hnextMarked, hnextLength, hnextVolume⟩ :=
      Change.andThen_marked hmarked hrebasedMarked (Change.count_lt (by omega))
        hrebasedLength.symm
    refine ⟨next, ?_, h.marked, h.reached, h.pos_le, ?_, ?_⟩
    · rw [Draft.merge, htotal]
      dsimp only
      rw [hrebased, ok_bind, hnext]
      rfl
    · intro total' hsome
      obtain rfl := Option.some.inj hsome
      exact ⟨hnextMarked, hnextLength.trans htotalLength⟩
    · rw [Option.elim_some]
      dsimp only
      omega

/-- The open batch is a marked revision of the whole document. -/
theorem Ready.batch (h : d.Ready spent) :
    (∀ s ∈ d.batch.spans, s.Marked) ∧ d.batch.length = d.length
      ∧ d.batch.volume ≤ sumBy Span.volume d.spans := by
  have hpushing := Span.pushing false d.spans (.keep (d.length - d.pos))
  have hlength := hpushing.length_eq
  have hvolume := hpushing.volume_le
  have hreached := h.reached
  have hle := h.pos_le
  refine ⟨fun s hs => ?_, ?_, ?_⟩
  · exact hpushing.marked h.marked (Int.le_refl _) s (List.mem_reverse.mp hs)
  · rw [Draft.batch, Change.length, sumBy_reverse, hlength, hreached]
    exact Nat.add_sub_cancel' hle
  · rw [Draft.batch, Change.volume, sumBy_reverse]
    exact hvolume

/-- The open batch can be closed. -/
theorem Ready.close (h : d.Ready spent) (hspent : spent ≤ lengthLimit) :
    ∃ next, d.close = .ok { d with spans := [], pos := 0, total := some next }
      ∧ Ready spent { d with spans := [], pos := 0, total := some next } := by
  obtain ⟨hmarked, hlength, hvolume⟩ := h.batch
  have hsum := h.volume
  have hemptied : Ready (d.total.elim 0 Change.volume) { d with spans := [], pos := 0 } :=
    ⟨by simp, rfl, Nat.zero_le _, h.total, Nat.le_of_eq (Nat.zero_add _)⟩
  obtain ⟨next, hnext, hready⟩ := hemptied.merge hmarked hlength (by omega)
  exact ⟨next, hnext, hready.mono (by omega)⟩

/-- The open batch can be closed if there is anything in it. -/
theorem Ready.settle (h : d.Ready spent) (hspent : spent ≤ lengthLimit) :
    ∃ settled, d.settle = .ok settled ∧ settled.Ready spent ∧ settled.pos = 0
      ∧ settled.length = d.length ∧ settled.sep = d.sep
      ∧ (d.total.isSome → settled.total.isSome) := by
  by_cases hempty : d.spans.isEmpty = true
  · have hreached := h.reached
    rw [List.isEmpty_iff.mp hempty] at hreached
    exact ⟨d, by rw [Draft.settle, if_pos hempty], h, hreached.symm, rfl, rfl, id⟩
  · obtain ⟨next, hnext, hready⟩ := h.close hspent
    exact ⟨_, by rw [Draft.settle, if_neg hempty, hnext], hready, rfl, rfl, rfl, fun _ => rfl⟩

/-- A replaced range is put behind the open batch. -/
theorem Ready.putReplaced {start stop : Nat} {text : Rope} (h : d.Ready spent)
    (hpos : d.pos ≤ start) (hle : start ≤ stop) (hstop : stop ≤ d.length)
    (hlength : text.length ≤ lengthLimit) :
    (d.putReplaced start stop text).Ready (spent + text.length) := by
  have hcount : (Span.replace (stop - start) text).count = text.length := by
    rw [Span.replace, signedWord_of_lt (lt_signBound hlength)]
  have hmark : Span.keptMark ≤ (Span.replace (stop - start) text).count := by
    rw [hcount]
    exact Span.keptMark_le (Int.natCast_nonneg _)
  have htold : (Span.replace (stop - start) text).volume = text.length := by
    rw [Span.volume, hcount, Int.toNat_natCast]
  have hkept := Span.pushing false d.spans (.keep (start - d.pos))
  have hpushed := Span.pushing false (Span.push false d.spans (.keep (start - d.pos)))
    (Span.replace (stop - start) text)
  have hsum := h.volume
  have hreached := h.reached
  refine ⟨hpushed.marked (hkept.marked h.marked (Int.le_refl _)) hmark, ?_, hstop, h.total, ?_⟩
  · rw [Draft.putReplaced]
    dsimp only
    rw [hpushed.length_eq, hkept.length_eq, hreached, Span.keep, Span.replace]
    dsimp only
    omega
  · have hkeptVolume := hkept.volume_le
    have hpushedVolume := hpushed.volume_le
    have hzero : (Span.keep (start - d.pos) : Span Rope).volume = 0 := rfl
    rw [Draft.putReplaced]
    dsimp only
    omega

/-- What comes of edits made to a draft: the first fault in them, or a draft that inserts as much
more as they do. -/
def Processed (spent : Nat) (d : Draft) (result : Except Fault Draft) : Option Fault → Prop
  | some fault => result = .error fault
  | none => ∃ d', result = .ok d' ∧ d'.Ready spent ∧ d'.length = d.length ∧ d'.sep = d.sep

/-- A replaced range is refused if it does not lie in the document, and told otherwise. -/
theorem Ready.replace (h : d.Ready spent) (start stop : Nat) (text : Inserted)
    (hspent : spent + (text.toRope d.sep).length ≤ lengthLimit) :
    Processed (spent + (text.toRope d.sep).length) d (d.add (.replace start stop text))
      ((Edit.replace start stop text : Edit).fault? Change.length d.length) := by
  rw [Edit.fault?, Draft.add]
  by_cases hrange : start ≤ stop ∧ stop ≤ d.length
  · have hvalid : ¬ (stop < start ∨ d.length < stop) := by omega
    rw [if_pos hrange, if_neg hvalid, Draft.replace]
    obtain ⟨hle, hstop⟩ := hrange
    by_cases hnothing : start = stop ∧ (text.toRope d.sep).isEmpty = true
    · rw [if_pos hnothing]
      exact ⟨d, rfl, h.mono (Nat.le_add_right _ _), rfl, rfl⟩
    · rw [if_neg hnothing]
      by_cases hback : start < d.pos
      -- The range goes back: the open batch is closed, and a new one starts.
      · obtain ⟨settled, hsettled, hready, hpos, hlength, hsep, -⟩ := h.settle (by omega)
        refine ⟨settled.putReplaced start stop (text.toRope d.sep), ?_, ?_, hlength, hsep⟩
        · rw [if_pos hback, hsettled]
          rfl
        · exact hready.putReplaced (hpos ▸ Nat.zero_le _) hle (hlength ▸ hstop) (by omega)
      · refine ⟨d.putReplaced start stop (text.toRope d.sep), ?_, ?_, rfl, rfl⟩
        · rw [if_neg hback]
          rfl
        · exact h.putReplaced (Nat.not_lt.mp hback) hle hstop (by omega)
  · have hinvalid : stop < start ∨ d.length < stop := by omega
    rw [if_neg hrange, if_pos hinvalid]
    rfl

/-- A revision is refused if it is one of another document, and merged otherwise. -/
theorem Ready.revision {c : Revision} (h : d.Ready spent) (hc : ∀ s ∈ c.spans, s.Marked)
    (hspent : spent + c.volume ≤ lengthLimit) :
    Processed (spent + c.volume) d (d.add (.revision c))
      ((Edit.revision c).fault? Change.length d.length) := by
  rw [Edit.fault?, Draft.add]
  by_cases hlength : c.length = d.length
  · obtain ⟨settled, hsettled, hready, -, hsettledLength, hsep, -⟩ := h.settle (by omega)
    obtain ⟨next, hnext, hmerged⟩ :=
      hready.merge hc (hlength.trans hsettledLength.symm) (by omega)
    rw [if_pos hlength, Change.fits, if_pos hlength.symm, hsettled]
    exact ⟨_, hnext, hmerged, hsettledLength, hsep⟩
  · rw [if_neg hlength, Change.fits, if_neg (Ne.symm hlength)]
    rfl

mutual

/-- The edits that an edit consists of are made up to the first fault. -/
theorem Ready.process {d : Draft} {spent : Nat} (h : d.Ready spent) : (e : Edit) →
    (∀ c, .revision c ∈ e.atoms → ∀ s ∈ c.spans, s.Marked) →
    spent + e.volume d.sep ≤ lengthLimit →
    Processed (spent + e.volume d.sep) d (e.atoms.foldlM Draft.add d)
      (e.fault? Change.length d.length)
  | .replace start stop text, _, hspent => by
    have hvolume : (Edit.replace start stop text).volume d.sep = (text.toRope d.sep).length :=
      Nat.add_zero _
    rw [hvolume] at hspent ⊢
    rw [Edit.atoms, List.foldlM_cons]
    simp only [List.foldlM_nil, bind_pure]
    exact h.replace start stop text hspent
  | .revision c, hmarked, hspent => by
    have hvolume : (Edit.revision c).volume d.sep = c.volume := Nat.add_zero _
    rw [hvolume] at hspent ⊢
    rw [Edit.atoms, List.foldlM_cons]
    simp only [List.foldlM_nil, bind_pure]
    exact h.revision (hmarked c (List.mem_singleton.mpr rfl)) hspent
  | .many edits, hmarked, hspent => h.processAll edits hmarked hspent

theorem Ready.processAll {d : Draft} {spent : Nat} (h : d.Ready spent) : (edits : List Edit) →
    (∀ c, .revision c ∈ Edit.atomsOf edits → ∀ s ∈ c.spans, s.Marked) →
    spent + sumBy (Edit.atomVolume d.sep) (Edit.atomsOf edits) ≤ lengthLimit →
    Processed (spent + sumBy (Edit.atomVolume d.sep) (Edit.atomsOf edits)) d
      ((Edit.atomsOf edits).foldlM Draft.add d) (Edit.faultOf? Change.length d.length edits)
  | [], _, _ => ⟨d, rfl, h, rfl, rfl⟩
  | e :: es, hmarked, hspent => by
    rw [Edit.atomsOf] at hmarked hspent ⊢
    rw [sumBy_append] at hspent ⊢
    have hfirst := h.process e (fun c hc => hmarked c (List.mem_append_left _ hc))
      (by rw [Edit.volume]; omega)
    rw [List.foldlM_append, Edit.faultOf?]
    cases hfault : e.fault? Change.length d.length with
    | some fault =>
      rw [hfault] at hfirst
      rw [show e.atoms.foldlM Draft.add d = .error fault from hfirst]
      rfl
    | none =>
      rw [hfault] at hfirst
      obtain ⟨next, hnext, hready, hlength, hsep⟩ := hfirst
      have hrest := hready.processAll es (fun c hc => hmarked c (List.mem_append_right _ hc))
        (by rw [hsep, Edit.volume]; omega)
      rw [hnext, Option.none_or]
      rw [hlength, hsep, Edit.volume, Nat.add_assoc] at hrest
      cases hlater : Edit.faultOf? Change.length d.length es with
      | some fault =>
        rw [hlater] at hrest
        exact hrest
      | none =>
        rw [hlater] at hrest
        obtain ⟨d', hd', hready', hlength', hsep'⟩ := hrest
        exact ⟨d', hd', hready', hlength'.trans hlength, hsep'.trans hsep⟩

end

/-- Every draft can be finished. -/
theorem Ready.finish (h : d.Ready spent) (hspent : spent ≤ lengthLimit) :
    ∃ c, d.finish = .ok c ∧ c.length = d.length ∧ (∀ s ∈ c.spans, s.Marked)
      ∧ c.volume ≤ spent := by
  have hclosed : ∃ closed, (if d.total.isNone then d.close else d.settle) = .ok closed
      ∧ closed.Ready spent ∧ closed.length = d.length ∧ closed.total.isSome := by
    by_cases hnone : d.total.isNone = true
    · obtain ⟨next, hnext, hready⟩ := h.close hspent
      exact ⟨_, by rw [if_pos hnone, hnext], hready, rfl, rfl⟩
    · obtain ⟨settled, hsettled, hready, -, hlength, -, htotal⟩ := h.settle hspent
      exact ⟨settled, by rw [if_neg hnone, hsettled], hready, hlength,
        htotal (by simpa [Option.isSome_iff_ne_none] using hnone)⟩
  obtain ⟨closed, hfinished, hready, hlength, htotal⟩ := hclosed
  obtain ⟨total, htotal⟩ := Option.isSome_iff_exists.mp htotal
  obtain ⟨hmarked, htotalLength⟩ := hready.total total htotal
  have hvolume := hready.volume
  rw [htotal, Option.elim_some] at hvolume
  refine ⟨total, ?_, htotalLength.trans hlength, hmarked, by omega⟩
  rw [Draft.finish]
  dsimp only
  split at hfinished
  · next hnone =>
    rw [if_pos hnone, hfinished, ok_bind, htotal]
    rfl
  · next hsome =>
    rw [if_neg hsome, hfinished, ok_bind, htotal]
    rfl

end Draft

namespace Revision

section Edits

variable {edit : Edit} {length : Nat} {sep : Option String}

/-- The draft that is made from an edit starts with nothing in it. -/
theorem processed_start (length : Nat)
    (hmarked : ∀ c, .revision c ∈ edit.atoms → ∀ s ∈ c.spans, s.Marked)
    (hvolume : edit.volume sep ≤ lengthLimit) :
    Draft.Processed (edit.volume sep) ⟨length, sep, [], 0, none⟩
      (edit.atoms.foldlM Draft.add ⟨length, sep, [], 0, none⟩)
      (edit.fault? Change.length length) := by
  have hstart : Draft.Ready 0 ⟨length, sep, [], 0, none⟩ :=
    ⟨by simp, rfl, Nat.zero_le _, by simp, Nat.le_refl _⟩
  have hprocessed := hstart.process edit hmarked (by rw [Nat.zero_add]; exact hvolume)
  rwa [Nat.zero_add] at hprocessed

/-- An edit without a fault makes a revision. -/
theorem exists_ofEdit (hmarked : ∀ c, .revision c ∈ edit.atoms → ∀ s ∈ c.spans, s.Marked)
    (hvolume : edit.volume sep ≤ lengthLimit) (hfault : edit.fault? Change.length length = none) :
    ∃ c, ofEdit edit length sep = .ok c ∧ c.length = length ∧ (∀ s ∈ c.spans, s.Marked)
      ∧ c.volume ≤ edit.volume sep := by
  have hprocessed := processed_start length hmarked hvolume
  rw [hfault] at hprocessed
  obtain ⟨d, hd, hready, hlength, -⟩ := hprocessed
  obtain ⟨c, hc, hclength, hcmarked, hcvolume⟩ := hready.finish hvolume
  refine ⟨c, ?_, hclength.trans hlength, hcmarked, hcvolume⟩
  rw [ofEdit, hd]
  exact hc

/-- The first fault in an edit is reported. -/
theorem ofEdit_of_fault {fault : Fault}
    (hmarked : ∀ c, .revision c ∈ edit.atoms → ∀ s ∈ c.spans, s.Marked)
    (hvolume : edit.volume sep ≤ lengthLimit)
    (hfault : edit.fault? Change.length length = some fault) :
    ofEdit edit length sep = .error fault := by
  have hprocessed := processed_start length hmarked hvolume
  rw [hfault] at hprocessed
  rw [ofEdit, show edit.atoms.foldlM Draft.add _ = .error fault from hprocessed]
  rfl

/-- What an edit makes is a revision of the document, and inserts no more than the edit. -/
theorem length_of_ofEdit {c : Revision}
    (hmarked : ∀ c, .revision c ∈ edit.atoms → ∀ s ∈ c.spans, s.Marked)
    (hvolume : edit.volume sep ≤ lengthLimit) (h : ofEdit edit length sep = .ok c) :
    c.length = length ∧ c.volume ≤ edit.volume sep := by
  cases hfault : edit.fault? Change.length length with
  | none =>
    obtain ⟨c', hc', hlength, -, hle⟩ := exists_ofEdit hmarked hvolume hfault
    obtain rfl := Except.ok.inj (hc'.symm.trans h)
    exact ⟨hlength, hle⟩
  | some fault => cases (ofEdit_of_fault hmarked hvolume hfault).symm.trans h

end Edits

end Revision

end TextRevision
