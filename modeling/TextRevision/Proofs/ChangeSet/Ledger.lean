import TextRevision.ChangeSet.Basic
import TextRevision.Proofs.Change.ComposingStates
import TextRevision.Proofs.Change.Normal

/-!
# Two lists in step with spans

What is told in two lists is what spans tell, and it stays so when a span is put to both: whatever
becomes of its run, its insertion is told in the place of that run. All that this asks for is that
words hold what the newest run comes to, and that an insertion is empty where none is counted.

As far as runs alone go, they stay in step whatever is inserted. Both are instances of one notion, a
relation that every span put to both sides keeps.

## Main definitions

- `Ledger.ofSpans`: the two lists that tell of spans
- `Ledger.Stands`: a relation between lists and spans that is kept

## Main statements

- `Ledger.push?_ofSpans`: a span put to both
- `Ledger.stands_ofSpans`, `Ledger.stands_runs`
- `ChangeSet.revision_ofRevision`: two lists tell of the spans that they were made from
-/

namespace TextRevision

section Held

variable {α : Type} [Insertion α]

omit [Insertion α] in
/-- Words hold the numbers of a span that are within a small bound. -/
theorem Span.Within.held {n : Nat} {s : Span α} (h : s.Within n) (hn : n < signBound) : s.Held := by
  have hmark := h.mark
  have hlength := h.length
  have hcount := h.count
  simp only [Span.keptMark] at hmark
  simp only [signBound] at hn
  refine ⟨?_, ?_, ?_⟩
  · simp only [wordCount]
    omega
  · simp only [signBound]
    omega
  · simp only [signBound]
    omega

/-- The runs of spans, one more being put behind them. -/
theorem Span.map_shape_push_eq (join : Bool) (spans : List (Span α)) (s : Span α) :
    (Span.push join spans s).map Span.shape
      = Span.pushRun join (spans.map Span.shape) s.shape := by
  rw [Span.map_shape_push, Span.push]
  cases Span.pushRun join (spans.map Span.shape) s.shape <;> rfl

/-- A run is put behind others if words hold all that comes of it. -/
theorem Span.pushRun?_eq {join : Bool} {spans : List (Span α)} {s : Span α}
    (h : ∀ t ∈ Span.push join spans s, t.Held) :
    Span.pushRun? join (spans.map Span.shape) s.shape
      = some ((Span.push join spans s).map Span.shape) := by
  rw [Span.map_shape_push_eq, Span.pushRun?, ← Span.map_shape_push_eq]
  cases hpush : Span.push join spans s with
  | nil => rfl
  | cons last rest =>
    have hlast : last.shape.Held := h last (hpush ▸ List.mem_cons_self)
    exact if_pos hlast

end Held

theorem Rope.isEmpty_append {r text : Rope} (hr : r.Obeys Rope.shareRule)
    (htext : text.Obeys Rope.shareRule) (hsome : text.isEmpty = false) :
    ¬ (r.append text).isEmpty = true := by
  obtain ⟨hobeys, hitems⟩ := append_spec Rule.builds_shareRule Rule.swaps_shareRule hr htext
  have hlength := hobeys.length_items
  rw [hitems, List.length_append, htext.length_items] at hlength
  simp only [Rope.isEmpty, decide_eq_false_iff_not, decide_eq_true_eq] at hsome ⊢
  omega

namespace Ledger

/-- The two lists that tell of spans, which come newest first. -/
def ofSpans (spans : List (Span Rope)) : Ledger Rope :=
  ⟨spans.map Span.shape, Revision.insertedOf spans.reverse⟩

/-- An insertion of a run of which nothing was told before. -/
theorem tell_untold {runs : List (Span Unit)} {spans : List (Span Rope)} {text : Rope}
    (hruns : runs.length = spans.length + 1) (htext : text.isEmpty = false) :
    (tell ⟨runs, Revision.insertedOf spans⟩ text).texts
      = spans.map Revision.insertionOf ++ [text] := by
  have hle := Revision.length_insertedOf_le spans
  have hbehind : ¬ runs.length - 1 < (Revision.insertedOf spans).length := by omega
  have hsome : ¬ Insertion.isEmpty text = true := Bool.eq_false_iff.mp htext
  rw [tell, if_neg hsome, if_neg hbehind, Revision.map_insertionOf, hruns,
    Nat.add_sub_cancel]
  rfl

/-- Two lists with one more run and what it inserts tell of one more span. -/
theorem tell_ofSpans (s : Span Rope) (spans : List (Span Rope)) :
    tell ⟨s.shape :: spans.map Span.shape, Revision.insertedOf spans.reverse⟩ s.text
      = ofSpans (s :: spans) := by
  refine Ledger.ext (runs_tell _ _) ?_
  have htold : (ofSpans (s :: spans)).texts = Revision.insertedOf (spans.reverse ++ [s]) := by
    rw [ofSpans, List.reverse_cons]
  rw [htold, Revision.insertedOf_concat]
  by_cases hempty : s.text.isEmpty = true
  · rw [if_pos hempty, tell_of_isEmpty hempty]
  · rw [if_neg hempty, tell_untold (by simp) (by simpa using hempty)]

/-- The insertion of the newest run goes on. -/
theorem texts_merged {last s : Span Rope} {rest : List (Span Rope)} {runs : List (Span Unit)}
    {length : Nat} {count : Int} (hruns : runs.length = rest.length + 1)
    (hlast : last.text.Obeys Rope.shareRule) (hs : s.text.Obeys Rope.shareRule) :
    Revision.insertedOf (⟨length, count, Insertion.join last.text s.text⟩ :: rest).reverse
      = (tell ⟨runs, Revision.insertedOf (last :: rest).reverse⟩ s.text).texts := by
  have hruns' : runs.length = rest.reverse.length + 1 := by rw [hruns, List.length_reverse]
  rw [List.reverse_cons, List.reverse_cons, Revision.insertedOf_concat,
    Revision.insertedOf_concat, Insertion.join]
  by_cases hsEmpty : s.text.isEmpty = true
  · rw [if_pos (show Insertion.isEmpty s.text = true from hsEmpty), tell_of_isEmpty hsEmpty]
  · have hsSome : s.text.isEmpty = false := by simpa using hsEmpty
    rw [if_neg (show ¬ Insertion.isEmpty s.text = true from hsEmpty)]
    by_cases hlastEmpty : last.text.isEmpty = true
    · rw [if_pos (show Insertion.isEmpty last.text = true from hlastEmpty), if_pos hlastEmpty,
        if_neg hsEmpty, tell_untold hruns' hsSome]
    · have htold : runs.length - 1
          < (rest.reverse.map Revision.insertionOf ++ [last.text]).length := by
        rw [List.length_append, List.length_map, List.length_reverse, List.length_singleton]
        omega
      have hjoined : ¬ (last.text.append s.text).isEmpty = true :=
        Rope.isEmpty_append hlast hs hsSome
      rw [if_neg (show ¬ Insertion.isEmpty last.text = true from hlastEmpty), if_neg hlastEmpty,
        if_neg (show ¬ Rope.isEmpty (Insertion.append last.text s.text) = true from hjoined), tell,
        if_neg (show ¬ Insertion.isEmpty s.text = true from hsEmpty), if_pos htold,
        List.dropLast_concat, List.getLast?_concat]
      rfl

/-- Whatever becomes of a run that is put behind others, the two lists stay in step. -/
theorem push?_ofSpans {join : Bool} {spans : List (Span Rope)} {s : Span Rope}
    (hspans : ∀ t ∈ spans, t.text.Obeys Rope.shareRule) (hs : s.text.Obeys Rope.shareRule)
    (hvoid : s.isVoid = true → s.text.isEmpty = true)
    (hheld : ∀ t ∈ Span.push join spans s, t.Held) :
    (ofSpans spans).push? join s = some (ofSpans (Span.push join spans s)) := by
  have hpushing := Span.pushing join spans s
  have htexts : Revision.insertedOf (Span.push join spans s).reverse
      = (tell ⟨(Span.push join spans s).map Span.shape,
          Revision.insertedOf spans.reverse⟩ s.text).texts := by
    revert hpushing
    generalize Span.push join spans s = spans'
    intro hpushing
    cases hpushing with
    | none hempty => rw [tell_of_isEmpty (hvoid hempty)]
    | void => exact texts_merged (by simp) (hspans _ List.mem_cons_self) hs
    | same => exact texts_merged (by simp) (hspans _ List.mem_cons_self) hs
    | merged => exact texts_merged (by simp) (hspans _ List.mem_cons_self) hs
    | alone =>
      have hjoined : Insertion.join Insertion.empty s.text
          = if s.text.isEmpty then Rope.empty else s.text := rfl
      rw [List.reverse_cons, Revision.insertedOf_concat]
      by_cases hempty : s.text.isEmpty = true
      · have hnone : (Insertion.join Insertion.empty s.text).isEmpty = true := by
          rw [hjoined, if_pos hempty]
          rfl
        rw [if_pos hnone, tell_of_isEmpty hempty]
      · have hsome : s.text.isEmpty = false := by simpa using hempty
        rw [hjoined, if_neg hempty]
        dsimp only
        rw [if_neg hempty, tell_untold (by simp) hsome]
  have hlists : tell ⟨(Span.push join spans s).map Span.shape,
      Revision.insertedOf spans.reverse⟩ s.text = ofSpans (Span.push join spans s) :=
    Ledger.ext (runs_tell _ _) htexts.symm
  rw [push?, show (ofSpans spans).runs = spans.map Span.shape from rfl, Span.pushRun?_eq hheld]
  exact congrArg some hlists

section Stands

variable {α : Type} [Insertion α]

/-- A relation between lists and spans that is kept where a span is put to both, as long as its
insertion is fine for its count. -/
structure Stands (R : Ledger α → List (Span α) → Prop) (fine : Int → α → Prop) : Prop where
  push : ∀ (join : Bool) {l : Ledger α} {spans : List (Span α)} {s : Span α}, R l spans →
    fine s.count s.text → (∀ t ∈ Span.push join spans s, t.Held) →
    ∃ l', l.push? join s = some l' ∧ R l' (Span.push join spans s)
  length : ∀ {l : Ledger α} {spans : List (Span α)}, R l spans → l.runs.length = spans.length
  empty : ∀ count : Int, fine count Insertion.empty
  part : ∀ {count count' : Int} {text : α}, fine count text → 0 < count → 0 < count' →
    fine count' text
  extract : ∀ {count count' : Int} {text : α} (start stop : Nat), fine count text → 0 < count →
    0 < count' → fine count' (Insertion.extract text start stop)

/-- As far as runs go, whatever is inserted is fine. -/
theorem stands_runs :
    Stands (fun (l : Ledger α) spans => l.runs = spans.map Span.shape) fun _ _ => True where
  push := by
    intro join l spans s hl _ hheld
    rw [push?, hl, Span.pushRun?_eq hheld]
    exact ⟨_, rfl, runs_tell _ _⟩
  length hl := by rw [hl, List.length_map]
  empty _ := trivial
  part _ _ _ := trivial
  extract _ _ _ _ _ := trivial

/-- An insertion that is shaped as ropes are, and empty where none is counted. -/
structure Fine (count : Int) (text : Rope) : Prop where
  obeys : text.Obeys Rope.shareRule
  empty : count ≤ 0 → text.isEmpty = true

theorem Fine.of_pos {count : Int} {text : Rope} (h : text.Obeys Rope.shareRule)
    (hpos : 0 < count) : Fine count text :=
  ⟨h, fun hle => absurd hpos (Int.not_lt.mpr hle)⟩

theorem fine_empty (count : Int) : Fine count Rope.empty :=
  ⟨Rope.obeys_empty, fun _ => rfl⟩

/-- An insertion that has the count of its span is fine. -/
theorem fine_of_fit {s : Span Rope} (h : Rope.reading.Fit s) : Fine s.count s.text :=
  ⟨h.proper.1, (Rope.isEmpty_text_iff h).mpr⟩

/-- Two lists that tell of spans with insertions that are shaped as ropes are. -/
def Tells (l : Ledger Rope) (spans : List (Span Rope)) : Prop :=
  l = ofSpans spans ∧ ∀ s ∈ spans, s.text.Obeys Rope.shareRule

theorem Tells.push? (join : Bool) {l : Ledger Rope} {spans : List (Span Rope)} {s : Span Rope}
    (h : l.Tells spans) (hs : Fine s.count s.text)
    (hheld : ∀ t ∈ Span.push join spans s, t.Held) :
    ∃ l', l.push? join s = some l' ∧ l'.Tells (Span.push join spans s) := by
  obtain ⟨rfl, hspans⟩ := h
  have hvoid : s.isVoid = true → s.text.isEmpty = true := fun hvoid =>
    hs.empty (Span.isVoid_iff.mp hvoid).2
  exact ⟨_, push?_ofSpans hspans hs.obeys hvoid hheld, rfl,
    Span.AllTexts.push Rope.preserved_share.kept.closed hspans join hs.obeys⟩

/-- Spans of ropes are told as they are. -/
theorem stands_ofSpans : Stands Tells Fine where
  push join _ _ _ h := h.push? join
  length hl := by rw [hl.1, ofSpans, List.length_map]
  empty := fine_empty
  part hfine _ hpos := .of_pos hfine.obeys hpos
  extract start stop hfine _ hpos :=
    .of_pos (Rope.preserved_share.extract _ start stop hfine.obeys) hpos

end Stands

section Alone

variable {α : Type} [Insertion α]

/-- A run that is of no kind with the newest one stands alone. -/
theorem push?_alone {l : Ledger α} {s : Span α} (hvoid : s.isVoid = false)
    (hheld : s.shape.Held) (halone : ∀ last ∈ l.runs.head?,
      ¬ (s.count ≤ 0 ∧ s.count = last.count) ∧ ¬ (s.length = 0 ∧ last.length = 0)) :
    l.push? false s = some ({ l with runs := s.shape :: l.runs }.tell s.text) := by
  have hrun : Span.pushRun false l.runs s.shape = s.shape :: l.runs := by
    have hsome : ¬ s.shape.isVoid = true := Bool.eq_false_iff.mp hvoid
    unfold Span.pushRun
    rw [if_neg hsome]
    cases hruns : l.runs with
    | nil => rfl
    | cons last rest =>
      have hlast : ¬ (s.shape.count ≤ 0 ∧ s.shape.count = last.count)
          ∧ ¬ (s.shape.length = 0 ∧ last.length = 0) := halone last (by rw [hruns]; rfl)
      dsimp only
      rw [if_neg hlast.1, if_neg (by simpa using hlast.2)]
  rw [push?, Span.pushRun?, hrun]
  dsimp only
  rw [if_pos hheld]
  rfl

end Alone

section Stocked

variable {α : Type} [Insertion α]

/-- Lists that stand for marked spans of `removed` characters, which insert at most `inserted`. -/
structure Stocked (R : Ledger α → List (Span α) → Prop) (removed inserted : Nat) (l : Ledger α)
    (spans : List (Span α)) : Prop where
  stands : R l spans
  marked : ∀ s ∈ spans, s.Marked
  removed : sumBy Span.length spans = removed
  inserted : sumBy Span.volume spans ≤ inserted

omit [Insertion α] in
theorem stocked_blank {R : Ledger α → List (Span α) → Prop} (h : R .blank []) :
    Stocked R 0 0 .blank [] :=
  ⟨h, fun _ hs => absurd hs List.not_mem_nil, rfl, Nat.le_refl _⟩

omit [Insertion α] in
theorem Stocked.mono {R : Ledger α → List (Span α) → Prop} {removed inserted more : Nat}
    {l : Ledger α} {spans : List (Span α)} (h : Stocked R removed inserted l spans)
    (hle : inserted ≤ more) : Stocked R removed more l spans :=
  ⟨h.stands, h.marked, h.removed, h.inserted.trans hle⟩

/-- Within the limit of written changes, a span can be put to lists whatever they hold. -/
theorem Stocked.push? {R : Ledger α → List (Span α) → Prop} {fine : Int → α → Prop}
    {removed inserted : Nat} {l : Ledger α} {spans : List (Span α)}
    (h : Stocked R removed inserted l spans) (hR : Stands R fine) (join : Bool) (s : Span α)
    (hs : fine s.count s.text)
    (hmark : Span.keptMark ≤ s.count) (hlength : removed + s.length ≤ lengthLimit)
    (hvolume : inserted + s.volume ≤ lengthLimit) :
    ∃ l', l.push? join s = some l'
      ∧ Stocked R (removed + s.length) (inserted + s.volume) l' (Span.push join spans s) := by
  have hpushing := Span.pushing join spans s
  have hmarked := hpushing.marked h.marked hmark
  have hremoved := hpushing.length_eq
  have hinserted := hpushing.volume_le
  rw [h.removed] at hremoved
  have hbound := Nat.add_le_add_right h.inserted s.volume
  have hheld : ∀ t ∈ Span.push join spans s, t.Held := by
    intro t ht
    have hlengthOf : t.length ≤ sumBy Span.length (Span.push join spans s) :=
      le_sumBy Span.length ht
    have hvolumeOf : t.volume ≤ sumBy Span.volume (Span.push join spans s) :=
      le_sumBy Span.volume ht
    rw [Span.volume] at hvolumeOf
    have hwithin : t.Within lengthLimit := ⟨(hmarked t ht).mark, by omega, by omega⟩
    exact hwithin.held (lt_signBound (Nat.le_refl _))
  obtain ⟨l', hl', hstands⟩ := hR.push join h.stands hs hheld
  exact ⟨l', hl', hstands, hmarked, hremoved, hinserted.trans hbound⟩

end Stocked

end Ledger

/-- The document without characters is a single leaf. -/
theorem Rope.eq_empty_of_isEmpty {r : Rope} (h : r.Obeys Rope.shareRule)
    (hempty : r.isEmpty = true) :
    r = Rope.empty := by
  have hzero : r.length = 0 := of_decide_eq_true hempty
  have hitems : r.items = Rope.empty.items := by
    rw [items_empty, ← List.length_eq_zero_iff, h.length_items, hzero]
  have hobeys : Rope.empty.Obeys shareRule := Rope.obeys_empty
  have hlines : r.lines = [""] := Rope.lines_eq_of_items h hobeys hitems
  cases r with
  | leaf lines length =>
    rw [Rope.lines] at hlines
    rw [Rope.length_leaf] at hzero
    rw [hlines, hzero, Rope.empty]
  | branch children length lineCount =>
    have hcount := h.lineCount_eq
    have hmany := h.leafLimit_le
    rw [hlines, Rope.lineCount_branch] at hcount
    rw [hcount] at hmany
    exact absurd hmany (by decide)

namespace ChangeSet

/-- The spans that are told in two lists can be told again from these. -/
theorem pair_insertedOf {spans : List (Span Rope)}
    (h : ∀ s ∈ spans, s.text.Obeys Rope.shareRule) :
    Span.pair (spans.map Span.shape) (Revision.insertedOf spans) = spans := by
  induction spans with
  | nil => rfl
  | cons s rest ih =>
    obtain ⟨hs, hrest⟩ := List.forall_mem_cons.mp h
    specialize ih hrest
    have htext : (if s.text.isEmpty then Rope.empty else s.text) = s.text := by
      split
      · next hempty => exact (Rope.eq_empty_of_isEmpty hs hempty).symm
      · rfl
    rw [List.map_cons, Revision.insertedOf, htext]
    cases htold : Revision.insertedOf rest with
    | nil =>
      rw [htold] at ih
      by_cases hempty : s.text.isEmpty = true
      · dsimp only
        rw [if_pos hempty, Span.pair, List.tail_nil, ih]
        exact congrArg (fun text => Span.mk s.length s.count text :: rest)
          (Rope.eq_empty_of_isEmpty hs hempty).symm
      · dsimp only
        rw [if_neg hempty, Span.pair, List.tail_cons, ih]
        rfl
    | cons text texts =>
      rw [htold] at ih
      dsimp only
      rw [Span.pair, List.tail_cons, ih]
      rfl

theorem revision_ofRevision {c : Revision} (h : ∀ s ∈ c.spans, s.text.Obeys Rope.shareRule) :
    (ofRevision c).revision = c :=
  congrArg Change.mk (pair_insertedOf h)

/-- The runs of the spans that two lists tell are the runs told. -/
theorem map_shape_pair (runs : List (Span Unit)) (texts : List Rope) :
    (Span.pair runs texts).map Span.shape = runs := by
  induction runs generalizing texts with
  | nil => rfl
  | cons r runs ih => exact congrArg (List.cons r) (ih texts.tail)

theorem outline_revision (c : ChangeSet) : c.revision.outline = c.outline :=
  congrArg Change.mk (map_shape_pair c.outline.spans c.inserted)

theorem length_revision (c : ChangeSet) : c.revision.length = c.outline.length := by
  rw [← Change.length_outline, outline_revision]

theorem newLength_revision (c : ChangeSet) : c.revision.newLength = c.outline.newLength := by
  rw [← Change.newLength_outline, outline_revision]

theorem ofLedger_ofSpans (spans : List (Span Rope)) :
    ofLedger (Ledger.ofSpans spans) = ofRevision ⟨spans.reverse⟩ := by
  rw [ofLedger, Ledger.ofSpans, ofRevision, Change.outline, List.map_reverse]
  rfl

end ChangeSet

end TextRevision
