import TextRevision.Proofs.Change.Following
import TextRevision.Proofs.Change.Rereading

/-!
# Written outlines

An outline is written as an array of numbers, two for each span. Pairs of numbers are read if the
first is a length, the second a count or the mark of a kept run, and neither document is too long.
Nothing else is read. The pairs are merged on the way, which changes neither the lengths nor what is
kept. In an outline that operations lead to there is nothing to merge, so that it is read as it was
written.

## Main definitions

- `Outline.Spells`: a value spells pairs of numbers that can be read
- `Outline.merge`: the outline that pairs are merged to

## Main statements

- `Outline.spans?_eq_some_iff`: which numbers are pairs
- `Change.keepsFrom_foldl_push`: what merged spans keep
- `Outline.ofJson_eq_ok_iff`: what is read is what the pairs are merged to
- `Outline.reads_what_it_writes`
-/

namespace TextRevision

open TextRevision.Span (Normal)

section Reading

theorem Json.signedWord?_eq_some_iff {v : Json} {n : Int} :
    v.signedWord? = some n ↔ v = .int n ∧ -(signBound : Int) ≤ n ∧ n < signBound := by
  cases v with
  | int m =>
    simp only [Json.signedWord?, Option.ite_none_right_eq_some, Option.some.injEq, Json.int.injEq]
    constructor
    · rintro ⟨hword, rfl⟩
      exact ⟨rfl, hword⟩
    · rintro ⟨rfl, hword⟩
      exact ⟨hword, rfl⟩
  | _ => simp [Json.signedWord?]

theorem Json.mapM_signedWord?_eq_some_iff {items : List Json} {numbers : List Int} :
    items.mapM Json.signedWord? = some numbers ↔ numbers.map .int = items
      ∧ ∀ n ∈ numbers, -(signBound : Int) ≤ n ∧ n < signBound := by
  have hword : ∀ x y, Json.signedWord? x = some y
      ↔ ∃ n : Int, (-(signBound : Int) ≤ n ∧ n < signBound) ∧ Json.int n = x ∧ id n = y := by
    intro x y
    rw [Json.signedWord?_eq_some_iff]
    constructor
    · rintro ⟨rfl, hword⟩
      exact ⟨y, hword, rfl, rfl⟩
    · rintro ⟨n, hword, rfl, rfl⟩
      exact ⟨rfl, hword⟩
  rw [mapM_eq_some_iff hword]
  constructor
  · rintro ⟨ns, hwords, hitems, rfl⟩
    rw [List.map_id]
    exact ⟨hitems, hwords⟩
  · rintro ⟨hitems, hwords⟩
    exact ⟨numbers, hwords, hitems, List.map_id numbers⟩

namespace Outline

theorem span?_eq_some_iff {length count : Int} {s : Span Unit} :
    span? length count = some s ↔ numbers s = [length, count] ∧ Span.keptMark ≤ s.count := by
  obtain ⟨n, k, -⟩ := s
  have hnumbers : numbers ⟨n, k, ()⟩ = [length, count] ↔ (n : Int) = length ∧ k = count := by
    simp [numbers]
  rw [span?, hnumbers, Option.ite_none_left_eq_some, Option.some.injEq, Span.mk.injEq, not_or,
    Int.not_lt, Int.not_lt]
  dsimp only
  constructor
  · rintro ⟨⟨hlength, hcount⟩, rfl, rfl, -⟩
    exact ⟨⟨Int.toNat_of_nonneg hlength, rfl⟩, hcount⟩
  · rintro ⟨⟨rfl, rfl⟩, hmark⟩
    exact ⟨⟨Int.natCast_nonneg n, hmark⟩, Int.toNat_natCast n, rfl, rfl⟩

/-- Numbers are pairs if they are those of spans, the marks being that of a kept run alone. -/
theorem spans?_eq_some_iff {ns : List Int} {pairs : List (Span Unit)} :
    spans? ns = some pairs
      ↔ pairs.flatMap numbers = ns ∧ ∀ s ∈ pairs, Span.keptMark ≤ s.count := by
  induction ns using spans?.induct generalizing pairs with
  | case1 =>
    cases pairs with
    | nil => simp [spans?]
    | cons s pairs => simp [spans?, numbers]
  | case2 n =>
    cases pairs with
    | nil => simp [spans?]
    | cons s pairs => simp [spans?, numbers]
  | case3 length count rest ih =>
    rw [spans?]
    simp only [Option.bind_eq_bind, Option.bind_eq_some_iff, Option.pure_def, Option.some.injEq]
    constructor
    · rintro ⟨s, hs, later, hlater, rfl⟩
      obtain ⟨hnumbers, hmark⟩ := span?_eq_some_iff.mp hs
      obtain ⟨rfl, hmarks⟩ := ih.mp hlater
      refine ⟨?_, List.forall_mem_cons.mpr ⟨hmark, hmarks⟩⟩
      rw [List.flatMap_cons, hnumbers]
      rfl
    · rintro ⟨hnumbers, hmarks⟩
      cases pairs with
      | nil => cases hnumbers
      | cons s pairs =>
        obtain ⟨hmark, hmarks⟩ := List.forall_mem_cons.mp hmarks
        obtain ⟨hfirst, hlater⟩ : numbers s = [length, count] ∧ pairs.flatMap numbers = rest := by
          simpa [numbers, and_assoc] using hnumbers
        exact ⟨s, span?_eq_some_iff.mpr ⟨hfirst, hmark⟩, pairs, ih.mpr ⟨hlater, hmarks⟩, rfl⟩

end Outline

end Reading

section Merging

variable {α : Type} {s last : Span α} {ss ts spans spans' : List (Span α)}
  {start newStart p q : Nat}

namespace Change

theorem keepsFrom_append : KeepsFrom start newStart (ss ++ ts) p q
    ↔ KeepsFrom start newStart ss p q
      ∨ KeepsFrom (start + sumBy Span.length ss) (newStart + sumBy Span.newLength ss) ts p q := by
  induction ss generalizing start newStart with
  | nil =>
    rw [List.nil_append, sumBy_nil, sumBy_nil]
    exact (or_iff_right not_keepsFrom_nil).symm
  | cons s ss ih =>
    rw [List.cons_append, keepsFrom_cons, keepsFrom_cons, ih, or_assoc, sumBy_cons, sumBy_cons,
      Nat.add_assoc, Nat.add_assoc]

theorem keepsFrom_concat : KeepsFrom start newStart (ss ++ [s]) p q
    ↔ KeepsFrom start newStart ss p q
      ∨ s.KeepsAt (start + sumBy Span.length ss) (newStart + sumBy Span.newLength ss) p q := by
  rw [keepsFrom_append, keepsFrom_cons]
  exact or_congr_right (or_iff_left not_keepsFrom_nil)

theorem keepsFrom_concat_two : KeepsFrom start newStart (ss ++ [last] ++ [s]) p q
    ↔ KeepsFrom start newStart ss p q
      ∨ last.KeepsAt (start + sumBy Span.length ss) (newStart + sumBy Span.newLength ss) p q
      ∨ s.KeepsAt (start + sumBy Span.length ss + last.length)
        (newStart + sumBy Span.newLength ss + last.newLength) p q := by
  rw [keepsFrom_concat, keepsFrom_concat, or_assoc, sumBy_append, sumBy_append, sumBy_cons,
    sumBy_cons, sumBy_nil, sumBy_nil, Nat.add_zero, Nat.add_zero, Nat.add_assoc start,
    Nat.add_assoc newStart]

end Change

/-- A run without characters of the old document keeps none. -/
theorem Span.not_keepsAt_of_length (h : s.length = 0) : ¬ s.KeepsAt start newStart p q := by
  rintro ⟨-, hstart, hstop, -⟩
  omega

/-- A replaced run keeps nothing. -/
theorem Span.not_keepsAt_of_put (h : 0 ≤ s.count) : ¬ s.KeepsAt start newStart p q := by
  rintro ⟨hkept, -⟩
  rw [isKept, decide_eq_true_eq] at hkept
  omega

/-- Two kept runs keep together what they keep one behind the other. -/
theorem Span.keepsAt_add {m n : Nat} {k : Int} (h : k < 0) (x y z : α) :
    (⟨m + n, k, x⟩ : Span α).KeepsAt start newStart p q
      ↔ (⟨m, k, y⟩ : Span α).KeepsAt start newStart p q
        ∨ (⟨n, k, z⟩ : Span α).KeepsAt (start + m) (newStart + m) p q := by
  simp only [KeepsAt, isKept, h, decide_true, true_and]
  omega

variable [Insertion α]

/-- Where a span is only merged into one of its own kind, nothing else is kept. -/
theorem Span.Pushing.keepsFrom_iff (h : Pushing false s spans spans')
    (hspans : ∀ t ∈ spans, t.Marked) :
    Change.KeepsFrom start newStart spans'.reverse p q
      ↔ Change.KeepsFrom start newStart (spans.reverse ++ [s]) p q := by
  cases h with
  | none hvoid =>
    rw [Change.keepsFrom_concat]
    exact (or_iff_left (not_keepsAt_of_length (isVoid_iff.mp hvoid).1)).symm
  | void hvoid =>
    rw [List.reverse_cons, List.reverse_cons, Change.keepsFrom_concat, Change.keepsFrom_concat_two,
      or_iff_left (not_keepsAt_of_length (isVoid_iff.mp hvoid).1)]
    rfl
  | alone =>
    rw [List.reverse_cons, Change.keepsFrom_concat, Change.keepsFrom_concat]
    rfl
  | @same last rest hvoid hcount hsame =>
    rw [List.reverse_cons, List.reverse_cons, Change.keepsFrom_concat, Change.keepsFrom_concat_two]
    refine or_congr_right ?_
    rcases Int.lt_or_eq_of_le hcount with hkept | hzero
    · have hlastKept : last.count < 0 := hsame ▸ hkept
      rw [keepsAt_add hlastKept _ last.text s.text, newLength_of_kept hlastKept]
      exact or_congr_right (by rw [← hsame])
    · have hput : (0 : Int) ≤ last.count := by omega
      rw [or_iff_left (not_keepsAt_of_put (by omega))]
      exact iff_of_false (not_keepsAt_of_put hput) (not_keepsAt_of_put hput)
  | @merged last rest hvoid hdiffer hmerge =>
    -- Both are insertions at one place.
    obtain ⟨hlength, hlastLength⟩ : s.length = 0 ∧ last.length = 0 := by simpa using hmerge
    rw [List.reverse_cons, List.reverse_cons, Change.keepsFrom_concat, Change.keepsFrom_concat_two,
      or_iff_left (not_keepsAt_of_length hlength)]
    refine or_congr_right (iff_of_false ?_ (not_keepsAt_of_length hlastLength))
    refine not_keepsAt_of_length ?_
    dsimp only
    omega

/-- Spans that are put behind others, runs of one kind being merged, keep what they keep as they
are. -/
theorem Change.keepsFrom_foldl_push (hss : ∀ s ∈ ss, s.Marked)
    (hts : ∀ s ∈ ts, Span.keptMark ≤ s.count) :
    KeepsFrom start newStart (ts.foldl (Span.push false) ss).reverse p q
      ↔ KeepsFrom start newStart (ss.reverse ++ ts) p q := by
  induction ts generalizing ss with
  | nil => rw [List.foldl_nil, List.append_nil]
  | cons s ts ih =>
    obtain ⟨hs, hts⟩ := List.forall_mem_cons.mp hts
    have hpushing := Span.pushing false ss s
    have hsplit : ss.reverse ++ s :: ts = (ss.reverse ++ [s]) ++ ts := by simp
    rw [List.foldl_cons, ih (hpushing.marked hss hs) hts, hsplit, keepsFrom_append,
      keepsFrom_append, hpushing.keepsFrom_iff hss]
    simp only [sumBy_append, sumBy_reverse, sumBy_cons, sumBy_nil, Nat.add_zero,
      hpushing.length_eq, hpushing.newLength_eq hss]

end Merging

namespace Outline

/-- The outline that pairs of numbers are merged to. -/
def merge (pairs : List (Span Unit)) : Outline :=
  ⟨(pairs.foldl (Span.push false) []).reverse⟩

/-- A value spells pairs of numbers that can be read: each is a length, and a count or the mark of a
kept run, and neither document is longer than the limit. -/
structure Spells (v : Json) (pairs : List (Span Unit)) : Prop where
  value : v = .arr ((pairs.flatMap numbers).map .int)
  mark : ∀ s ∈ pairs, Span.keptMark ≤ s.count
  length : sumBy Span.length pairs ≤ lengthLimit
  newLength : sumBy Span.newLength pairs ≤ lengthLimit

variable {v : Json} {pairs : List (Span Unit)} {d : Outline}

/-- The numbers of pairs within the limit fit a signed word. -/
theorem Spells.word (h : Spells v pairs) :
    ∀ n ∈ pairs.flatMap numbers, -(signBound : Int) ≤ n ∧ n < signBound := by
  intro n hn
  obtain ⟨s, hs, hn⟩ := List.mem_flatMap.mp hn
  have hmark := h.mark s hs
  have hlength := lt_signBound ((le_sumBy Span.length hs).trans h.length)
  have hnew := lt_signBound ((le_sumBy Span.newLength hs).trans h.newLength)
  have hword : (1 : Int) ≤ signBound := by decide
  simp only [numbers, List.mem_cons, List.not_mem_nil, or_false] at hn
  rcases hn with rfl | rfl
  · omega
  · by_cases hkept : s.count < 0
    · simp only [Span.keptMark] at hmark
      omega
    · rw [Span.newLength_of_put (Int.not_lt.mp hkept)] at hnew
      omega

/-- What is read is what the pairs are merged to. -/
theorem ofJson?_eq_some_iff :
    ofJson? v = some d ↔ ∃ pairs, Spells v pairs ∧ merge pairs = d := by
  constructor
  · intro h
    obtain ⟨items, hitems, h⟩ := Option.bind_eq_some_iff.mp h
    obtain ⟨ns, hns, h⟩ := Option.bind_eq_some_iff.mp h
    obtain ⟨pairs, hpairs, hwritten⟩ := Option.bind_eq_some_iff.mp h
    obtain ⟨rfl, -⟩ := Json.mapM_signedWord?_eq_some_iff.mp hns
    obtain ⟨rfl, hmark⟩ := spans?_eq_some_iff.mp hpairs
    rw [Change.ofWritten?_eq, Option.ite_none_right_eq_some, Option.some.injEq] at hwritten
    obtain ⟨⟨hlength, hnew⟩, hmerge⟩ := hwritten
    exact ⟨pairs, ⟨Json.items?_eq_some_iff.mp hitems, hmark, hlength, hnew⟩, hmerge⟩
  · rintro ⟨pairs, h, rfl⟩
    have hitems : v.items? = some ((pairs.flatMap numbers).map .int) :=
      Json.items?_eq_some_iff.mpr h.value
    have hns := Json.mapM_signedWord?_eq_some_iff.mpr ⟨rfl, h.word⟩
    have hpairs := spans?_eq_some_iff.mpr ⟨rfl, h.mark⟩
    have hwritten : Change.ofWritten? pairs = some (merge pairs) := by
      rw [Change.ofWritten?_eq, if_pos ⟨h.length, h.newLength⟩]
      rfl
    refine Option.bind_eq_some_iff.mpr ⟨_, hitems, Option.bind_eq_some_iff.mpr ⟨_, hns, ?_⟩⟩
    exact Option.bind_eq_some_iff.mpr ⟨_, hpairs, hwritten⟩

theorem ofJson_eq_ok_iff : ofJson v = .ok d ↔ ∃ pairs, Spells v pairs ∧ merge pairs = d := by
  rw [← ofJson?_eq_some_iff, ofJson]
  cases ofJson? v <;> simp

/-- There is one fault for all values that are not read. -/
theorem ofJson_eq_error (h : ¬ ∃ pairs, Spells v pairs) :
    ofJson v = .error (.malformedJson .outline) := by
  have hnone : ofJson? v = none := by
    rw [Option.eq_none_iff_forall_ne_some]
    rintro d hd
    obtain ⟨pairs, hpairs, -⟩ := ofJson?_eq_some_iff.mp hd
    exact h ⟨pairs, hpairs⟩
  rw [ofJson, hnone]

/-- Merging keeps the lengths, and what the pairs keep. -/
theorem merge_spec (h : ∀ s ∈ pairs, Span.keptMark ≤ s.count) :
    (merge pairs).length = sumBy Span.length pairs
      ∧ (merge pairs).newLength = sumBy Span.newLength pairs
      ∧ ∀ p q, (merge pairs).Keeps p q ↔ (⟨pairs⟩ : Outline).Keeps p q := by
  obtain ⟨-, hlength, hnew, -⟩ := Reading.foldl_push (List.forall_mem_nil reading.Sound)
    fun s hs => ⟨h s hs, trivial⟩
  rw [sumBy_nil, Nat.zero_add] at hlength hnew
  refine ⟨?_, ?_, fun p q => Change.keepsFrom_foldl_push (by simp) h⟩
  · rw [Change.length, merge, sumBy_reverse, hlength]
  · rw [Change.newLength, merge, sumBy_reverse, hnew]

/-- In an outline in normal form, there is nothing to merge. -/
theorem merge_spans (h : Normal d.spans) : merge d.spans = d := by
  have halone : d.spans.map Span.alone = d.spans := List.map_id d.spans
  rw [merge, Span.foldl_push_of_separate h.marked (by simp) h.separate (by simp), halone,
    List.append_nil, List.reverse_reverse]

/-- So it is read as it was written, if its lengths are within the limit. -/
theorem ofJson_toJson (h : Normal d.spans) (hlength : d.length ≤ lengthLimit)
    (hnew : d.newLength ≤ lengthLimit) : ofJson d.toJson = .ok d := by
  have hspells : Spells d.toJson d.spans :=
    ⟨rfl, fun s hs => (h.marked s hs).mark, hlength, hnew⟩
  exact ofJson_eq_ok_iff.mpr ⟨d.spans, hspells, merge_spans h⟩

/-- An outline that operations lead to is read as it was written, for lengths up to the limit of
written changes. Of all values, exactly those are read that spell pairs of numbers within the limit,
and every other value is refused. What is read is in normal form, has the lengths of the pairs and
keeps what they keep, and is itself read as it is written. -/
theorem reads_what_it_writes (d : Outline) (v : Json) :
    (Outline.Obtainable (· ≤ lengthLimit) d → ofJson d.toJson = .ok d)
      ∧ ((∃ e, ofJson v = .ok e) ↔ ∃ pairs, Spells v pairs)
      ∧ ((¬ ∃ pairs, Spells v pairs) → ofJson v = .error (.malformedJson .outline))
      ∧ ∀ pairs e, Spells v pairs → ofJson v = .ok e →
        Normal e.spans ∧ e.length = sumBy Span.length pairs
          ∧ e.newLength = sumBy Span.newLength pairs
          ∧ (∀ p q, e.Keeps p q ↔ (⟨pairs⟩ : Outline).Keeps p q)
          ∧ ofJson e.toJson = .ok e := by
  refine ⟨fun hd => ofJson_toJson hd.normalSpans hd.within.1 hd.within.2, ?_, ofJson_eq_error,
    fun pairs e hpairs he => ?_⟩
  · simp only [ofJson_eq_ok_iff]
    constructor
    · rintro ⟨e, pairs, hpairs, -⟩
      exact ⟨pairs, hpairs⟩
    · rintro ⟨pairs, hpairs⟩
      exact ⟨merge pairs, pairs, hpairs, rfl⟩
  · have hmerge : ofJson v = .ok (merge pairs) := ofJson_eq_ok_iff.mpr ⟨pairs, hpairs, rfl⟩
    obtain rfl : merge pairs = e := Except.ok.inj (hmerge.symm.trans he)
    obtain ⟨hlength, hnew, hkeeps⟩ := merge_spec hpairs.mark
    have hnormal := normal_ofJson he
    exact ⟨hnormal, hlength, hnew, hkeeps, ofJson_toJson hnormal (hlength.trans_le hpairs.length)
      (hnew.trans_le hpairs.newLength)⟩

/-- An outline that is read as it was written, and pairs that are read as two runs: two characters
are kept, and three removed. -/
theorem reads_what_it_writes_five_characters :
    let pairs : List (Span Unit) := [⟨0, -1, ()⟩, ⟨1, -1, ()⟩, ⟨1, -1, ()⟩, ⟨2, 0, ()⟩, ⟨1, 0, ()⟩,
      ⟨0, 0, ()⟩]
    let v : Json := .arr [.int 0, .int (-1), .int 1, .int (-1), .int 1, .int (-1), .int 2, .int 0,
      .int 1, .int 0, .int 0, .int 0]
    Outline.Obtainable (· ≤ lengthLimit) (removeBehind 2).outline
      ∧ ofJson (removeBehind 2).outline.toJson = .ok (removeBehind 2).outline
      ∧ Spells v pairs
      ∧ ∃ d, ofJson v = .ok d ∧ Normal d.spans ∧ d.length = 5 ∧ d.newLength = 2
        ∧ d.Keeps 1 1 ∧ ofJson d.toJson = .ok d := by
  intro pairs v
  have hfits : ∀ m ≤ 2 + 1, m ≤ lengthLimit := fun _ hm => Nat.le_trans hm (by decide)
  have hobtainable : Outline.Obtainable (· ≤ lengthLimit) (removeBehind 2).outline :=
    .outline (obtainable_removeBehind (by decide) hfits)
  have hspells : Spells v pairs := ⟨rfl, by decide, by decide, by decide⟩
  obtain ⟨hwritten, haccepts, -, hspec⟩ := reads_what_it_writes (removeBehind 2).outline v
  obtain ⟨d, hd⟩ := haccepts.mpr ⟨pairs, hspells⟩
  obtain ⟨hnormal, hlength, hnew, hkeeps, hagain⟩ := hspec pairs d hspells hd
  have hkept : (⟨pairs⟩ : Outline).Keeps 1 1 :=
    ⟨⟨1, 1, 1⟩, by decide, Nat.le_refl 1, Nat.one_lt_two, rfl⟩
  exact ⟨hobtainable, hwritten hobtainable, hspells, d, hd, hnormal, hlength, hnew,
    (hkeeps 1 1).mpr hkept, hagain⟩

/-- The count that undoes the removal of 2⁶³ characters is a negative number, and is not read. -/
theorem not_reads_what_it_writes :
    ∃ d, Outline.Obtainable (fun _ => True) d ∧ d.length = 1 ∧ d.newLength = 1
      ∧ d.toJson = .arr [.int 0, .int (-9223372036854775808), .int 1, .int (-1)]
      ∧ ofJson d.toJson = .error (.malformedJson .outline) := by
  have hremoved : Outline.Obtainable (fun _ => True) (keepLast 9223372036854775808).outline :=
    .outline (obtainable_keepLast (by decide))
  have hword : signedWord 9223372036854775808 = -9223372036854775808 :=
    signedWord_of_le (Nat.le_refl _) (by decide)
  have hinverse : (keepLast 9223372036854775808).outline.inverse
      = ⟨[⟨0, -9223372036854775808, ()⟩, ⟨1, -1, ()⟩]⟩ := by
    rw [← hword]
    rfl
  refine ⟨_, .inverse hremoved ⟨trivial, trivial⟩, ?_⟩
  rw [hinverse]
  exact ⟨rfl, rfl, rfl, by decide⟩

end Outline

end TextRevision
