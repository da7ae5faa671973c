import TextRevision.Proofs.Change.Accepting
import TextRevision.Proofs.Change.Normal
import TextRevision.Proofs.Change.Piecewise
import TextRevision.Proofs.Change.Written
import TextRevision.Proofs.Json.RoundTrip
import TextRevision.Proofs.Rope.Sameness

/-!
# Revisions written and read again

A revision is written span by span, and reading puts the spans behind each other again. In normal
form no two neighbours are runs of one kind, so that nothing is merged on the way: each span comes
back with its lengths, and with an insertion of the same lines. A data format that keeps what is
written keeps the revision.

## Main definitions

- `Revision.Part.ofSpan`: the part that a span is written as

## Main statements

- `Span.foldl_push_of_separate`: runs of different kinds are put behind each other unmerged
- `Revision.merge_ofSpan`: what is read is put together from the spans that come back
- `Revision.Obtainable.json_round_trip`
-/

namespace TextRevision

namespace Span

variable {α : Type} [Insertion α]

/-- The span that is put alone behind others. -/
def alone (s : Span α) : Span α :=
  ⟨s.length, s.count, Insertion.join Insertion.empty s.text⟩

/-- A run of another kind than the newest one is put alone. -/
theorem push_eq_alone {spans : List (Span α)} {s : Span α} (hs : s.Marked)
    (hspans : ∀ t ∈ spans, t.Marked) (hapart : ∀ last ∈ spans.head?, last.Apart s) :
    push false spans s = s.alone :: spans := by
  have hvoid : ¬ s.isVoid = true := by simp [hs.not_void]
  cases spans with
  | nil =>
    rw [push, pushRun, if_neg hvoid]
    rfl
  | cons last rest =>
    have hlast := hspans last List.mem_cons_self
    obtain ⟨hkept, hdeleted, hinserted⟩ := hapart last rfl
    have hmark := hs.mark
    have hlastMark := hlast.mark
    have hdiffer : ¬ (s.count ≤ 0 ∧ s.count = last.count) := by
      simp only [keptMark] at hmark hlastMark
      omega
    have hmerge : ¬ ((s.length = 0 ∧ last.length = 0) ∨ false = true) := by
      simp only [Bool.false_eq_true, or_false]
      exact fun h => hinserted h.symm
    rw [push, pushRun, if_neg hvoid, if_neg hdiffer, if_neg hmerge]
    rfl

/-- Runs of which no two neighbours are of one kind are put behind each other as they are. -/
theorem foldl_push_of_separate {parts spans : List (Span α)} (hparts : ∀ s ∈ parts, s.Marked)
    (hspans : ∀ t ∈ spans, t.Marked) (hsep : Separate parts)
    (hfront : ∀ last ∈ spans.head?, ∀ s ∈ parts.head?, last.Apart s) :
    parts.foldl (push false) spans = (parts.map alone).reverse ++ spans := by
  induction parts generalizing spans with
  | nil => rfl
  | cons s parts ih =>
    obtain ⟨hs, hparts⟩ := List.forall_mem_cons.mp hparts
    rw [Separate, List.isChain_cons] at hsep
    have halone : s.alone.Marked := hs.of_eq rfl rfl
    have hspans' : ∀ t ∈ s.alone :: spans, t.Marked := List.forall_mem_cons.mpr ⟨halone, hspans⟩
    have hfront' : ∀ last ∈ (s.alone :: spans).head?, ∀ t ∈ parts.head?, last.Apart t := by
      rintro _ ⟨⟩ t ht
      obtain ⟨hkept, hdeleted, hinserted⟩ := hsep.1 t ht
      exact ⟨hkept, hdeleted, hinserted⟩
    rw [List.foldl_cons, push_eq_alone hs hspans fun last hlast => hfront last hlast s rfl,
      ih hparts hspans' hsep.2 hfront', List.map_cons, List.reverse_cons, List.append_assoc]
    rfl

end Span

namespace Revision

namespace Part

/-- The part that a span is written as. -/
def ofSpan (s : Span Rope) : Part :=
  if s.isKept then .kept s.length
  else .replaced s.length (if 0 < s.count then s.text.lines else [])

theorem toJson_ofSpan (s : Span Rope) : (ofSpan s).toJson = partJson s := by
  rw [ofSpan, partJson]
  split
  · rfl
  · rw [toJson]
    split <;> rfl

@[simp] theorem length_ofSpan (s : Span Rope) : (ofSpan s).length = s.length := by
  rw [ofSpan]
  split <;> rfl

theorem lines_ofSpan (s : Span Rope) :
    (ofSpan s).lines = if 0 < s.count then s.text.lines else [] := by
  rw [ofSpan]
  split
  · next hkept =>
    have hmark : s.count < 0 := by simpa [Span.isKept] using hkept
    rw [if_neg (Int.not_lt.mpr (Int.le_of_lt hmark))]
    rfl
  · rfl

theorem text_span (p : Part) : p.span.text = insertionOfLines p.lines := by
  cases p <;> rfl

section Sound

variable {s : Span Rope} (hs : Rope.reading.Sound s)

include hs

/-- A span without an insertion of its own is written without lines. -/
theorem items_lines_ofSpan : Block.items (ofSpan s).lines = s.text.items := by
  rw [lines_ofSpan]
  split
  · rfl
  · next hnone =>
    have hempty : s.text.isEmpty = true :=
      (Rope.isEmpty_text_iff hs.toFit).mpr (Int.not_lt.mp hnone)
    rw [hs.proper.1.items_of_isEmpty hempty]
    rfl

theorem text_alike : (ofSpan s).span.text.Alike s.text := by
  obtain ⟨hobeys, hitems⟩ := insertionOfLines_spec (ofSpan s).lines
  rw [text_span]
  exact ⟨hobeys, hs.proper.1, hitems.trans (items_lines_ofSpan hs)⟩

theorem total_lines_ofSpan : Line.total (ofSpan s).lines = s.volume := by
  rw [← Block.length_items, items_lines_ofSpan hs, hs.proper.1.length_items]
  exact hs.proper.2

theorem newLength_ofSpan : (ofSpan s).newLength = s.newLength := by
  have htotal := total_lines_ofSpan hs
  rw [ofSpan] at htotal ⊢
  rw [Span.newLength]
  split
  · rfl
  · next hput =>
    rw [if_neg hput] at htotal
    exact htotal

/-- The part of a span is read as a run of the same kind and length. -/
theorem shape_span_ofSpan (hlimit : s.volume ≤ lengthLimit) :
    (ofSpan s).span.shape = s.shape := by
  have htotal := total_lines_ofSpan hs
  have hmark := hs.mark
  rw [ofSpan] at htotal ⊢
  split
  · next hkept =>
    have hkept : s.count < 0 := by simpa [Span.isKept] using hkept
    have hcount : s.count = Span.keptMark := by
      simp only [Span.keptMark] at hmark ⊢
      omega
    rw [Span.shape, Span.shape, Span.map, Span.map, hcount]
    rfl
  · next hput =>
    have hnonneg : 0 ≤ s.count := by simpa [Span.isKept] using hput
    rw [if_neg hput] at htotal
    generalize (if 0 < s.count then s.text.lines else []) = lines at htotal ⊢
    have htotal : Line.total lines = s.count.toNat := htotal
    have hcount : (span (replaced s.length lines)).count = s.count := by
      rw [count_span_replaced (htotal.trans_le hlimit), htotal, Int.toNat_of_nonneg hnonneg]
    rw [Span.shape, Span.map, hcount, length_span]
    rfl

end Sound

end Part

section Inserted

/-- Spans with documents of the same items have insertions of the same items. -/
theorem alike_insertionOf {s t : Span Rope} (h : s.text.Alike t.text) :
    (insertionOf s).Alike (insertionOf t) := by
  rw [insertionOf, insertionOf, h.isEmpty_eq]
  split
  · exact .refl Rope.obeys_empty
  · exact h

theorem insertionOf_alone (s : Span Rope) : insertionOf s.alone = insertionOf s := by
  have hjoin : s.alone.text = if s.text.isEmpty then Rope.empty else s.text := by
    rfl
  rw [insertionOf, insertionOf, hjoin]
  split <;> simp_all

/-- As many insertions are told, and they have the same items. -/
theorem forall₂_insertedOf {spans others : List (Span Rope)}
    (h : List.Forall₂ (fun s t => (insertionOf s).Alike (insertionOf t)) spans others) :
    List.Forall₂ Rope.Alike (insertedOf spans) (insertedOf others) := by
  induction h with
  | nil => exact List.Forall₂.nil
  | @cons s t spans others hfirst _ hrest =>
    have hempty := hfirst.isEmpty_eq
    rw [insertedOf, insertedOf]
    revert hrest
    cases insertedOf spans <;> cases insertedOf others <;> intro hrest
    · show List.Forall₂ Rope.Alike (if (insertionOf s).isEmpty then [] else [insertionOf s])
        (if (insertionOf t).isEmpty then [] else [insertionOf t])
      rw [hempty]
      split
      · exact List.Forall₂.nil
      · exact List.Forall₂.cons hfirst List.Forall₂.nil
    · cases hrest
    · cases hrest
    · exact List.Forall₂.cons hfirst hrest

end Inserted

section Rereading

variable {c : Revision} (hsound : ∀ s ∈ c.spans, Rope.reading.Sound s)

include hsound

theorem shape_ofSpan (hnew : c.newLength ≤ lengthLimit) :
    ∀ s ∈ c.spans, (Part.ofSpan s).span.shape = s.shape := fun s hs =>
  Part.shape_span_ofSpan (hsound s hs) (Nat.le_trans s.volume_le_newLength
    (Nat.le_trans (le_sumBy Span.newLength hs) hnew))

/-- In normal form, each span comes back alone. -/
theorem merge_ofSpan (hsep : Span.Separate c.spans) (hnew : c.newLength ≤ lengthLimit) :
    Part.merge (c.spans.map Part.ofSpan) = ⟨c.spans.map fun s => (Part.ofSpan s).span.alone⟩ := by
  have hshape := shape_ofSpan hsound hnew
  have hshapes : ((c.spans.map Part.ofSpan).map Part.span).map Span.shape
      = c.spans.map Span.shape := by
    rw [List.map_map, List.map_map]
    exact List.map_congr_left hshape
  have hmarked : ∀ t ∈ (c.spans.map Part.ofSpan).map Part.span, t.Marked := by
    rw [List.map_map]
    intro t ht
    obtain ⟨s, hs, rfl⟩ := List.mem_map.mp ht
    have hlength := congrArg Span.length (hshape s hs)
    have hcount := congrArg Span.count (hshape s hs)
    exact (hsound s hs).marked.of_eq hlength hcount
  have hseparate : Span.Separate ((c.spans.map Part.ofSpan).map Part.span) := by
    rw [← Span.separate_shape, hshapes, Span.separate_shape]
    exact hsep
  rw [Part.merge, Span.foldl_push_of_separate hmarked (by simp) hseparate (by simp),
    List.append_nil, List.reverse_reverse, List.map_map, List.map_map]
  rfl

/-- A written revision spells the parts of its spans. -/
theorem spells_toJson (hlength : c.length ≤ lengthLimit) (hnew : c.newLength ≤ lengthLimit)
    (hlines : ∀ text ∈ c.inserted, ∀ line ∈ text.lines, '\n' ∉ line.toList) :
    Spells c.toJson (c.spans.map Part.ofSpan) where
  value := by
    rw [toJson, List.map_map]
    exact congrArg Json.arr (List.map_congr_left fun s _ => (Part.toJson_ofSpan s).symm)
  valid := by
    intro p hp
    obtain ⟨s, hs, rfl⟩ := List.mem_map.mp hp
    refine ⟨?_, fun line hline => ?_⟩
    · have hle : s.length ≤ lengthLimit := Nat.le_trans (le_sumBy Span.length hs) hlength
      rw [Part.length_ofSpan]
      exact Nat.lt_of_le_of_lt hle (by decide)
    · rw [Part.lines_ofSpan] at hline
      split at hline
      · next hpos =>
        obtain ⟨i, hi⟩ := List.mem_iff_getElem?.mp hs
        have htold := getElem?_insertedOf_of_pos (hsound s hs) hi hpos
        exact hlines s.text (List.mem_of_getElem? htold) line hline
      · cases hline
  length := by
    rw [sumBy_map]
    exact (sumBy_congr _ fun s _ => Part.length_ofSpan s).trans_le hlength
  newLength := by
    rw [sumBy_map]
    exact (sumBy_congr _ fun s hs => Part.newLength_ofSpan (hsound s hs)).trans_le hnew

/-- What comes back has the spans of the revision, and tells insertions of the same items. -/
theorem reread_spec (hnew : c.newLength ≤ lengthLimit) :
    let d : Revision := ⟨c.spans.map fun s => (Part.ofSpan s).span.alone⟩
    d.outline = c.outline ∧ List.Forall₂ Rope.Alike d.inserted c.inserted := by
  constructor
  · rw [Change.outline, Change.outline, List.map_map]
    exact congrArg Change.mk (List.map_congr_left (shape_ofSpan hsound hnew))
  · refine forall₂_insertedOf (List.forall₂_map_left_iff.mpr (List.forall₂_same.mpr fun s hs => ?_))
    rw [insertionOf_alone]
    exact alike_insertionOf (Part.text_alike (hsound s hs))

end Rereading

/-- A written revision holds numbers that fit a word, and lines. -/
theorem plain_toJson {c : Revision} (hlength : c.length ≤ lengthLimit) : c.toJson.Plain 2 := by
  intro item hitem
  obtain ⟨s, hs, rfl⟩ := List.mem_map.mp hitem
  have hle : s.length ≤ lengthLimit := Nat.le_trans (le_sumBy Span.length hs) hlength
  have hword : Json.isWord s.length = true := by
    have hlt : s.length < wordCount := Nat.lt_of_le_of_lt hle (by decide)
    simp only [Json.isWord, Bool.and_eq_true, decide_eq_true_eq]
    omega
  rw [partJson]
  split
  · exact hword
  · refine List.forall_mem_cons.mpr ⟨hword, fun line hline => ?_⟩
    split at hline
    · obtain ⟨text, -, rfl⟩ := List.mem_map.mp hline
      trivial
    · cases hline

/-- A revision that is written is read again as it was: with the same spans, with insertions of the
same lines in the same places and with as many of them told. A data format that keeps what is
written keeps the revision. All this is for lengths up to the limit of written changes, and for
lines without breaks. -/
theorem Obtainable.json_round_trip {c : Revision} (hc : Revision.Obtainable (· ≤ lengthLimit) c)
    (hlines : ∀ text ∈ c.inserted, ∀ line ∈ text.lines, '\n' ∉ line.toList) :
    ∃ d, Revision.ofJson c.toJson = .ok d ∧ d.same c = true ∧ d.outline = c.outline
      ∧ d.inserted.map Rope.lines = c.inserted.map Rope.lines
      ∧ ∀ {ω ε : Type} (format : Json.Format ω ε), format.Faithful 2 →
        ∃ form, c.serialize format = .ok form ∧ Revision.deserialize format form = .ok d := by
  have hnormal := hc.normalSpans
  obtain ⟨hlength, hnew⟩ := hc.within
  have hread := (spells_toJson hc.sound hlength hnew hlines).ofJson_eq
  rw [merge_ofSpan hc.sound hnormal.separate hnew] at hread
  obtain ⟨houtline, hinserted⟩ := reread_spec hc.sound hnew
  refine ⟨_, hread, ?_, houtline, Rope.Alike.map_lines_eq hinserted, fun format hformat => ?_⟩
  · rw [same, houtline, Rope.Alike.beq_list hinserted]
    simp
  · obtain ⟨form, hwrite, hform⟩ := hformat c.toJson (plain_toJson hlength)
    refine ⟨form, hwrite, ?_⟩
    rw [deserialize, hform]
    dsimp only [Bind.bind, Except.bind]
    rw [hread]
    rfl

/-- A kept run of two characters and an insertion behind it, through JSON text. -/
theorem json_round_trip_two_characters :
    Revision.Obtainable (· ≤ lengthLimit) (insertBehind 2) ∧ Json.text.Faithful 2
      ∧ ∃ text d, (insertBehind 2).serialize Json.text = .ok text
        ∧ Revision.deserialize Json.text text = .ok d ∧ d.same (insertBehind 2) = true
        ∧ d.inserted.map Rope.lines = [[""], ["x"]] := by
  have hfits : ∀ m ≤ 2 + 1, m ≤ lengthLimit := fun _ hm => Nat.le_trans hm (by decide)
  have hmade : Revision.Obtainable (· ≤ lengthLimit) (insertBehind 2) :=
    obtainable_insertBehind (by decide) hfits
  have hlines : ∀ text ∈ (insertBehind 2).inserted, ∀ line ∈ text.lines, '\n' ∉ line.toList := by
    decide
  have hformat : Json.text.Faithful 2 := Json.text_faithful 2
  obtain ⟨d, -, hsame, -, hinserted, hkept⟩ := Obtainable.json_round_trip hmade hlines
  obtain ⟨text, hwrite, hread⟩ := hkept Json.text hformat
  exact ⟨hmade, hformat, text, d, hwrite, hread, hsame, hinserted⟩

/-- What a deletion inserts without telling of it is lost where the deletion is written. -/
theorem not_json_round_trip :
    Revision.Obtainable (fun _ => True) removeFilled
      ∧ removeFilled.length ≤ lengthLimit ∧ removeFilled.newLength ≤ lengthLimit
      ∧ (∀ text ∈ removeFilled.inserted, ∀ line ∈ text.lines, '\n' ∉ line.toList)
      ∧ ∃ d, Revision.ofJson removeFilled.toJson = .ok d ∧ d.inserted = []
        ∧ d.same removeFilled = false := by
  refine ⟨obtainable_removeFilled, by decide, by decide, by decide, _, rfl, rfl, ?_⟩
  cbv

end Revision

end TextRevision
