import TextRevision.Proofs.Change.Sequence
import TextRevision.Proofs.Json.Volume

/-!
# Written revisions

A revision is written as an array of parts: a number for characters that are kept, and an array of a
number and of lines for characters that the lines take the place of. Whatever the parts are, they
are read if no line holds a break and neither document is too long, and nothing else is read. The
parts are merged on the way; the revision still does to a document what its parts say one after the
other.

## Main definitions

- `Revision.Part`: a part of a written revision
- `Revision.Part.makeAll`: what parts make of a sequence of items
- `Revision.Spells`: a value that spells parts which can be read
- `Revision.Parsed`: a revision that was read off a value

## Main statements

- `Revision.part?_eq_some_iff`: which values are parts
- `Change.collect?_eq`, `Reading.foldl_push`: parts that are read are put behind each other
- `Revision.ofJson_eq_ok_iff`: what is read is what the parts are merged to
- `Revision.ofJson_accepts`
-/

namespace TextRevision

section Reading

/-- What is read item by item is what is read of each item. -/
theorem mapM_eq_some_iff {γ δ ι : Type} {f : γ → Option δ} {valid : ι → Prop} {write : ι → γ}
    {result : ι → δ} (hf : ∀ x y, f x = some y ↔ ∃ i, valid i ∧ write i = x ∧ result i = y)
    {xs : List γ} {ys : List δ} :
    xs.mapM f = some ys ↔ ∃ is : List ι, (∀ i ∈ is, valid i) ∧ is.map write = xs
      ∧ is.map result = ys := by
  induction xs generalizing ys with
  | nil =>
    simp only [List.mapM_nil, Option.pure_def, Option.some.injEq]
    constructor
    · rintro rfl
      exact ⟨[], by simp, rfl, rfl⟩
    · rintro ⟨is, -, his, rfl⟩
      rw [List.map_eq_nil_iff.mp his]
      rfl
  | cons x xs ih =>
    rw [List.mapM_cons]
    simp only [Option.bind_eq_bind, Option.bind_eq_some_iff, Option.pure_def, Option.some.injEq]
    constructor
    · rintro ⟨y, hy, later, hlater, rfl⟩
      obtain ⟨i, hi, rfl, rfl⟩ := (hf x y).mp hy
      obtain ⟨is, his, rfl, rfl⟩ := ih.mp hlater
      exact ⟨i :: is, List.forall_mem_cons.mpr ⟨hi, his⟩, rfl, rfl⟩
    · rintro ⟨is, his, hwritten, rfl⟩
      obtain ⟨i, is, rfl, rfl, rfl⟩ := List.map_eq_cons_iff.mp hwritten
      obtain ⟨hi, his⟩ := List.forall_mem_cons.mp his
      exact ⟨result i, (hf _ _).mpr ⟨i, hi, rfl, rfl⟩, is.map result, ih.mpr ⟨is, his, rfl, rfl⟩,
        rfl⟩

theorem Json.str?_eq_some_iff {v : Json} {s : String} : v.str? = some s ↔ v = .str s := by
  cases v <;> simp [Json.str?]

theorem Json.mapM_str?_eq_some_iff {items : List Json} {lines : List String} :
    items.mapM Json.str? = some lines ↔ lines.map .str = items := by
  have hstring : ∀ x y, Json.str? x = some y ↔ ∃ s, True ∧ Json.str s = x ∧ id s = y := by
    intro x y
    rw [Json.str?_eq_some_iff]
    constructor
    · rintro rfl
      exact ⟨y, trivial, rfl, rfl⟩
    · rintro ⟨s, -, rfl, rfl⟩
      rfl
  rw [mapM_eq_some_iff hstring]
  simp

theorem Json.items?_eq_some_iff {v : Json} {items : List Json} :
    v.items? = some items ↔ v = .arr items := by
  cases v <;> simp [Json.items?]

theorem Json.unsignedWord?_eq_some_iff {v : Json} {n : Nat} :
    v.unsignedWord? = some n ↔ v = .int n ∧ n < wordCount := by
  cases v with
  | int m =>
    cases m with
    | ofNat m =>
      simp only [Json.unsignedWord?, Option.ite_none_right_eq_some, Option.some.injEq,
        Json.int.injEq, Int.ofNat_eq_natCast, Int.natCast_inj]
      constructor
      · rintro ⟨hlt, rfl⟩
        exact ⟨rfl, hlt⟩
      · rintro ⟨rfl, hlt⟩
        exact ⟨hlt, rfl⟩
    | negSucc m => simp [Json.unsignedWord?]
  | _ => simp [Json.unsignedWord?]

end Reading

namespace Change

variable {α : Type} [Insertion α]

/-- Spans that are read are put behind each other if both documents stay within the limit. -/
theorem collect?_eq (parts : List (Span α)) {totals : Totals} (spans : List (Span α))
    (hlength : totals.length ≤ lengthLimit) (hnew : totals.newLength ≤ lengthLimit) :
    collect? parts totals spans
      = if totals.length + sumBy Span.length parts ≤ lengthLimit
            ∧ totals.newLength + sumBy Span.newLength parts ≤ lengthLimit then
          some (parts.foldl (Span.push false) spans)
        else none := by
  induction parts generalizing totals spans with
  | nil => rw [sumBy_nil, sumBy_nil, if_pos ⟨hlength, hnew⟩, collect?, List.foldl_nil]
  | cons s parts ih =>
    rw [collect?, Totals.add?, sumBy_cons, sumBy_cons]
    by_cases hfirst : totals.length + s.length ≤ lengthLimit
        ∧ totals.newLength + s.newLength ≤ lengthLimit
    · rw [if_pos hfirst]
      dsimp only
      rw [ih _ hfirst.1 hfirst.2, List.foldl_cons]
      simp only [Nat.add_assoc]
    · rw [if_neg hfirst, if_neg (by omega)]

theorem ofWritten?_eq (parts : List (Span α)) :
    ofWritten? parts
      = if sumBy Span.length parts ≤ lengthLimit ∧ sumBy Span.newLength parts ≤ lengthLimit then
          some ⟨(parts.foldl (Span.push false) []).reverse⟩
        else none := by
  rw [ofWritten?, collect?_eq parts [] (Nat.zero_le _) (Nat.zero_le _)]
  simp only [Nat.zero_add]
  split <;> rfl

end Change

namespace Reading

variable {α β : Type} [Insertion α] {I : Reading α β}

/-- Several spans put behind others, which are told newest first, do their work behind that of the
others, one after the other. -/
theorem foldl_push {spans parts : List (Span α)} (hspans : ∀ s ∈ spans, I.Sound s)
    (hparts : ∀ s ∈ parts, I.Fit s) :
    (∀ s ∈ parts.foldl (Span.push false) spans, I.Sound s)
      ∧ sumBy Span.length (parts.foldl (Span.push false) spans)
        = sumBy Span.length spans + sumBy Span.length parts
      ∧ sumBy Span.newLength (parts.foldl (Span.push false) spans)
        = sumBy Span.newLength spans + sumBy Span.newLength parts
      ∧ ∀ doc, I.run (parts.foldl (Span.push false) spans).reverse doc
        = I.run spans.reverse doc ++ I.run parts (doc.drop (sumBy Span.length spans)) := by
  induction parts generalizing spans with
  | nil => exact ⟨hspans, rfl, rfl, fun doc => by rw [run_nil, List.append_nil]; rfl⟩
  | cons s parts ih =>
    obtain ⟨hs, hparts⟩ := List.forall_mem_cons.mp hparts
    have hpushed := push_unjoined hspans hs
    have hnewLength := (Span.pushing false spans s).newLength_eq fun t ht => (hspans t ht).marked
    obtain ⟨hsound, hlength, hnew, hrun⟩ := ih hpushed.sound hparts
    rw [List.foldl_cons, sumBy_cons, sumBy_cons]
    refine ⟨hsound, ?_, ?_, fun doc => ?_⟩
    · rw [hlength, hpushed.length, Nat.add_assoc]
    · rw [hnew, hnewLength, Nat.add_assoc]
    · rw [hrun, hpushed.run, hpushed.length, run_cons, List.append_assoc, List.drop_drop]

end Reading

namespace Revision

/-- A part of a written revision. -/
inductive Part where
  /-- Characters that are kept. -/
  | kept (length : Nat)
  /-- Characters that lines take the place of; without any line, nothing does. -/
  | replaced (length : Nat) (lines : List String)

namespace Part

def toJson : Part → Json
  | kept length => .int length
  | replaced length lines => .arr (.int length :: lines.map .str)

/-- The number of characters of the old document. -/
def length : Part → Nat
  | kept length => length
  | replaced length _ => length

/-- The number of characters of the new document, the breaks between lines counted. -/
def newLength : Part → Nat
  | kept length => length
  | replaced _ lines => Line.total lines

def lines : Part → List String
  | kept _ => []
  | replaced _ lines => lines

/-- The number of a part fits a word, and no line of it holds a break. -/
structure Valid (p : Part) : Prop where
  word : p.length < wordCount
  unbroken : ∀ line ∈ p.lines, '\n' ∉ line.toList

instance (p : Part) : Decidable p.Valid :=
  decidable_of_iff (p.length < wordCount ∧ ∀ line ∈ p.lines, '\n' ∉ line.toList)
    ⟨fun h => ⟨h.1, h.2⟩, fun h => ⟨h.word, h.unbroken⟩⟩

/-- What a part makes of a sequence that starts with its characters. -/
def make : Part → List Item → List Item
  | kept length, doc => doc.take length
  | replaced _ lines, _ => Block.items lines

/-- What parts make of a sequence, one after the other. -/
def makeAll : List Part → List Item → List Item
  | [], _ => []
  | p :: rest, doc => p.make doc ++ makeAll rest (doc.drop p.length)

end Part

/-- A value spells parts that can be read: each of them is valid, and neither document is longer
than the limit. -/
structure Spells (v : Json) (parts : List Part) : Prop where
  value : v = .arr (parts.map Part.toJson)
  valid : ∀ p ∈ parts, p.Valid
  length : sumBy Part.length parts ≤ lengthLimit
  newLength : sumBy Part.newLength parts ≤ lengthLimit

section Parts

/-- The insertion of lines. -/
def insertionOfLines (lines : List String) : Rope :=
  if lines.isEmpty then Rope.empty else Rope.ofLines lines

theorem insertionOfLines_spec (lines : List String) :
    (insertionOfLines lines).Obeys Rope.shareRule
      ∧ (insertionOfLines lines).items = Block.items lines := by
  rw [insertionOfLines]
  cases lines with
  | nil => exact ⟨Rope.obeys_empty, rfl⟩
  | cons line lines =>
    obtain ⟨hobeys, hlines⟩ := Rope.ofLines_spec Rope.Rule.builds_shareRule
      (List.cons_ne_nil line lines)
    exact ⟨hobeys, congrArg Block.items hlines⟩

theorem length_insertionOfLines (lines : List String) :
    (insertionOfLines lines).length = Line.total lines := by
  obtain ⟨hobeys, hitems⟩ := insertionOfLines_spec lines
  rw [← hobeys.length_items, hitems, Block.length_items]

/-- The span of a part. -/
def Part.span : Part → Span Rope
  | kept length => Span.keep length
  | replaced length lines => Span.replace length (insertionOfLines lines)

theorem breakIndex?_eq_none_iff {lines : List String} :
    Rope.breakIndex? lines = none ↔ ∀ line ∈ lines, '\n' ∉ line.toList := by
  simp [Rope.breakIndex?]

/-- Lines are an insertion if none of them holds a break. -/
theorem ofLines?_eq_some_iff {lines : List String} {text : Rope} :
    (if lines.isEmpty then some Rope.empty else (Rope.ofLines? lines).toOption) = some text
      ↔ (∀ line ∈ lines, '\n' ∉ line.toList) ∧ insertionOfLines lines = text := by
  rw [insertionOfLines]
  by_cases hempty : lines.isEmpty = true
  · rw [if_pos hempty, if_pos hempty, Option.some.injEq, List.isEmpty_iff.mp hempty]
    simp
  · rw [if_neg hempty, if_neg hempty, Rope.ofLines?, if_neg hempty, ← breakIndex?_eq_none_iff]
    cases Rope.breakIndex? lines <;> simp [Except.toOption]

/-- What is read as an insertion are lines without breaks. -/
theorem text?_eq_some_iff {items : List Json} {text : Rope} :
    text? items = some text ↔ ∃ lines : List String, (∀ line ∈ lines, '\n' ∉ line.toList)
      ∧ lines.map .str = items ∧ insertionOfLines lines = text := by
  have htext : text? items = (items.mapM Json.str?).bind fun lines =>
      if lines.isEmpty then some Rope.empty else (Rope.ofLines? lines).toOption := by
    rfl
  rw [htext, Option.bind_eq_some_iff]
  refine exists_congr fun lines => ?_
  rw [Json.mapM_str?_eq_some_iff, ofLines?_eq_some_iff]
  tauto

theorem part?_toJson {p : Part} (h : p.Valid) : part? p.toJson = some p.span := by
  have hword : (Json.int p.length).unsignedWord? = some p.length :=
    Json.unsignedWord?_eq_some_iff.mpr ⟨rfl, h.word⟩
  cases p with
  | kept n => exact congrArg (Option.map Span.keep) hword
  | replaced n lines =>
    have htext : text? (lines.map .str) = some (insertionOfLines lines) :=
      text?_eq_some_iff.mpr ⟨lines, h.unbroken, rfl, rfl⟩
    show ((Json.int n).unsignedWord?.bind fun n => (text? (lines.map .str)).bind fun text =>
      some (Span.replace n text)) = _
    rw [show (Json.int n).unsignedWord? = some n from hword, htext]
    rfl

/-- The values that are parts, and the spans they are read as. -/
theorem part?_eq_some_iff {v : Json} {s : Span Rope} :
    part? v = some s ↔ ∃ p : Part, p.Valid ∧ p.toJson = v ∧ p.span = s := by
  constructor
  · intro h
    unfold part? at h
    split at h
    · next len items =>
      obtain ⟨n, hn, h⟩ := Option.bind_eq_some_iff.mp h
      obtain ⟨text, htext, h⟩ := Option.bind_eq_some_iff.mp h
      obtain ⟨rfl, hword⟩ := Json.unsignedWord?_eq_some_iff.mp hn
      obtain ⟨lines, hlines, rfl, rfl⟩ := text?_eq_some_iff.mp htext
      exact ⟨.replaced n lines, ⟨hword, hlines⟩, rfl, Option.some.inj h⟩
    · cases h
    · obtain ⟨n, hn, rfl⟩ := Option.map_eq_some_iff.mp h
      obtain ⟨rfl, hword⟩ := Json.unsignedWord?_eq_some_iff.mp hn
      exact ⟨.kept n, ⟨hword, by simp [Part.lines]⟩, rfl, rfl⟩
  · rintro ⟨p, hp, rfl, rfl⟩
    exact part?_toJson hp

/-- What is read of an array is read of it part by part. -/
theorem mapM_part?_eq_some_iff {items : List Json} {spans : List (Span Rope)} :
    items.mapM part? = some spans ↔ ∃ parts : List Part, (∀ p ∈ parts, p.Valid)
      ∧ parts.map Part.toJson = items ∧ parts.map Part.span = spans :=
  mapM_eq_some_iff fun _ _ => part?_eq_some_iff

namespace Part

@[simp] theorem length_span (p : Part) : p.span.length = p.length := by
  cases p <;> rfl

variable {p : Part}

/-- The count of lines that a word can count is the number of their characters. -/
theorem count_span_replaced {n : Nat} {lines : List String} (h : Line.total lines ≤ lengthLimit) :
    (span (replaced n lines)).count = Line.total lines := by
  rw [span, Span.replace, length_insertionOfLines, signedWord_of_lt (lt_signBound h)]

theorem newLength_span (h : Line.total p.lines ≤ lengthLimit) :
    p.span.newLength = p.newLength := by
  cases p with
  | kept n => rfl
  | replaced n lines =>
    have hcount : (span (replaced n lines)).count = Line.total lines := count_span_replaced h
    rw [Span.newLength_of_put (hcount ▸ Int.natCast_nonneg _), hcount]
    rfl

theorem fit_span (h : Line.total p.lines ≤ lengthLimit) : Rope.reading.Fit p.span := by
  cases p with
  | kept n => exact Reading.fit_keep n
  | replaced n lines =>
    exact Rope.fit_replace (insertionOfLines_spec lines).1
      ((length_insertionOfLines lines).symm ▸ h) n

/-- The span of a part makes what the part makes. -/
theorem step_span (h : Line.total p.lines ≤ lengthLimit) (doc : List Item) :
    Rope.reading.step p.span doc = p.make doc := by
  cases p with
  | kept n => exact Reading.step_keep n doc
  | replaced n lines =>
    have hcount : (span (replaced n lines)).count = Line.total lines := count_span_replaced h
    rw [Reading.step_put (hcount ▸ Int.natCast_nonneg _)]
    exact (insertionOfLines_spec lines).2

/-- A part inserts no more characters than its value holds. -/
theorem total_lines_le_volume (p : Part) : Line.total p.lines ≤ p.toJson.volume := by
  cases p with
  | kept n => exact Nat.zero_le _
  | replaced n lines =>
    rw [toJson, Json.volume, Json.volumeOf, Json.volumeOf_strings]
    exact Nat.le_trans (Nat.sub_le _ 1) (Nat.le_add_left _ _)

theorem total_lines_le_newLength (p : Part) : Line.total p.lines ≤ p.newLength := by
  cases p with
  | kept n => exact Nat.zero_le _
  | replaced n lines => exact Nat.le_refl _

section Parts

variable {parts : List Part}

theorem sumBy_length_span (parts : List Part) :
    sumBy Span.length (parts.map span) = sumBy length parts := by
  rw [sumBy_map]
  exact sumBy_congr _ fun p _ => length_span p

variable (h : ∀ p ∈ parts, Line.total p.lines ≤ lengthLimit)

include h

theorem run_map_span (doc : List Item) :
    Rope.reading.run (parts.map span) doc = makeAll parts doc := by
  induction parts generalizing doc with
  | nil => rfl
  | cons p parts ih =>
    obtain ⟨hp, hparts⟩ := List.forall_mem_cons.mp h
    rw [List.map_cons, Reading.run_cons, step_span hp, ih hparts, length_span, makeAll]

theorem fit_map_span : ∀ s ∈ parts.map span, Rope.reading.Fit s := by
  intro s hs
  obtain ⟨p, hp, rfl⟩ := List.mem_map.mp hs
  exact fit_span (h p hp)

theorem sumBy_newLength_span : sumBy Span.newLength (parts.map span) = sumBy newLength parts := by
  rw [sumBy_map]
  exact sumBy_congr _ fun p hp => newLength_span (h p hp)

end Parts

end Part

end Parts

/-- The revision that parts are merged to. -/
def Part.merge (parts : List Part) : Revision :=
  ⟨((parts.map Part.span).foldl (Span.push false) []).reverse⟩

/-- Memory holds only lines whose characters a signed word can count. -/
theorem total_lines_le_of_addressable {parts : List Part}
    (h : (Json.arr (parts.map Part.toJson)).Addressable) :
    ∀ p ∈ parts, Line.total p.lines ≤ lengthLimit := fun p hp =>
  Nat.le_trans p.total_lines_le_volume
    (Nat.le_trans (Json.volume_le_of_mem (List.mem_map_of_mem hp)) h)

/-- So do parts whose characters are within the limit. -/
theorem Spells.total_lines_le {v : Json} {parts : List Part} (h : Spells v parts) :
    ∀ p ∈ parts, Line.total p.lines ≤ lengthLimit := fun p hp =>
  Nat.le_trans p.total_lines_le_newLength
    (Nat.le_trans (le_sumBy Part.newLength hp) h.newLength)

/-- What is read is what the parts are merged to, in front of the limit. -/
theorem ofJson?_eq_some_iff {v : Json} {c : Revision} :
    Revision.ofJson? v = some c ↔ ∃ parts : List Part, (∀ p ∈ parts, p.Valid)
      ∧ v = .arr (parts.map Part.toJson) ∧ Change.ofWritten? (parts.map Part.span) = some c := by
  constructor
  · intro h
    obtain ⟨items, hitems, h⟩ := Option.bind_eq_some_iff.mp h
    obtain ⟨spans, hspans, h⟩ := Option.bind_eq_some_iff.mp h
    obtain ⟨parts, hvalid, rfl, rfl⟩ := mapM_part?_eq_some_iff.mp hspans
    exact ⟨parts, hvalid, Json.items?_eq_some_iff.mp hitems, h⟩
  · rintro ⟨parts, hvalid, rfl, h⟩
    have hspans : (parts.map Part.toJson).mapM part? = some (parts.map Part.span) :=
      mapM_part?_eq_some_iff.mpr ⟨parts, hvalid, rfl, rfl⟩
    show ((parts.map Part.toJson).mapM part?).bind Change.ofWritten? = some c
    rw [hspans]
    exact h

theorem ofJson_eq_ok_iff_ofJson? {v : Json} {c : Revision} :
    Revision.ofJson v = .ok c ↔ Revision.ofJson? v = some c := by
  rw [Revision.ofJson]
  cases Revision.ofJson? v <;> simp

theorem ofWritten?_span_eq_some_iff {parts : List Part} {c : Revision}
    (h : ∀ p ∈ parts, Line.total p.lines ≤ lengthLimit) :
    Change.ofWritten? (parts.map Part.span) = some c
      ↔ (sumBy Part.length parts ≤ lengthLimit ∧ sumBy Part.newLength parts ≤ lengthLimit)
        ∧ Part.merge parts = c := by
  rw [Change.ofWritten?_eq, Part.sumBy_length_span, Part.sumBy_newLength_span h,
    Option.ite_none_right_eq_some, Option.some.injEq, Part.merge]

theorem Spells.ofJson_eq {v : Json} {parts : List Part} (h : Spells v parts) :
    Revision.ofJson v = .ok (Part.merge parts) := by
  rw [ofJson_eq_ok_iff_ofJson?, ofJson?_eq_some_iff]
  exact ⟨parts, h.valid, h.value,
    (ofWritten?_span_eq_some_iff h.total_lines_le).mpr ⟨⟨h.length, h.newLength⟩, rfl⟩⟩

theorem ofJson_eq_ok_iff {v : Json} {c : Revision} (hv : v.Addressable) :
    Revision.ofJson v = .ok c ↔ ∃ parts, Spells v parts ∧ Part.merge parts = c := by
  constructor
  · rw [ofJson_eq_ok_iff_ofJson?, ofJson?_eq_some_iff]
    rintro ⟨parts, hvalid, rfl, h⟩
    obtain ⟨⟨hlength, hnew⟩, hmerge⟩ :=
      (ofWritten?_span_eq_some_iff (total_lines_le_of_addressable hv)).mp h
    exact ⟨parts, ⟨rfl, hvalid, hlength, hnew⟩, hmerge⟩
  · rintro ⟨parts, h, rfl⟩
    exact h.ofJson_eq

/-- There is one fault for all values that are not read. -/
theorem ofJson_eq_error {v : Json} (h : ¬ ∃ c, Revision.ofJson v = .ok c) :
    Revision.ofJson v = .error (.malformedJson .revision) := by
  rw [Revision.ofJson] at h ⊢
  cases hread : Revision.ofJson? v with
  | none => rfl
  | some c =>
    rw [hread] at h
    exact absurd ⟨c, rfl⟩ h

/-- Merging keeps the lengths, and what the parts do to a document. -/
theorem merge_spec {parts : List Part} (h : ∀ p ∈ parts, Line.total p.lines ≤ lengthLimit) :
    (∀ s ∈ (Part.merge parts).spans, Rope.reading.Sound s)
      ∧ (Part.merge parts).length = sumBy Part.length parts
      ∧ (Part.merge parts).newLength = sumBy Part.newLength parts
      ∧ ∀ doc, Rope.reading.run (Part.merge parts).spans doc = Part.makeAll parts doc := by
  obtain ⟨hsound, hlength, hnew, hrun⟩ := Reading.foldl_push
    (List.forall_mem_nil Rope.reading.Sound) (Part.fit_map_span h)
  refine ⟨fun s hs => hsound s (List.mem_reverse.mp hs), ?_, ?_, fun doc => ?_⟩
  · rw [Change.length, Part.merge, sumBy_reverse, hlength, sumBy_nil, Nat.zero_add,
      Part.sumBy_length_span]
  · rw [Change.newLength, Part.merge, sumBy_reverse, hnew, sumBy_nil, Nat.zero_add,
      Part.sumBy_newLength_span h]
  · rw [Part.merge, hrun, Part.run_map_span h]
    rfl

/-- A revision that was read off a value. -/
def Parsed (c : Revision) : Prop :=
  ∃ v : Json, v.Addressable ∧ Revision.ofJson v = .ok c

theorem Parsed.exists_parts {c : Revision} (h : c.Parsed) :
    ∃ v parts, Spells v parts ∧ Part.merge parts = c := by
  obtain ⟨v, hv, hread⟩ := h
  exact ⟨v, (ofJson_eq_ok_iff hv).mp hread⟩

theorem Parsed.sound {c : Revision} (h : c.Parsed) : ∀ s ∈ c.spans, Rope.reading.Sound s := by
  obtain ⟨v, parts, hspells, rfl⟩ := h.exists_parts
  exact (merge_spec hspells.total_lines_le).1

theorem Parsed.length_le {c : Revision} (h : c.Parsed) : c.length ≤ lengthLimit := by
  obtain ⟨v, parts, hspells, rfl⟩ := h.exists_parts
  rw [(merge_spec hspells.total_lines_le).2.1]
  exact hspells.length

/-- Exactly the values that spell parts are read, and every other value is refused. What is read
does to each document of its length what the parts say one after the other: it keeps the characters
of a part, or puts the lines of the part there. -/
theorem ofJson_accepts {fits : Nat → Prop} {v : Json} (hv : v.Addressable) :
    ((∃ c, Revision.ofJson v = .ok c) ↔ ∃ parts, Spells v parts)
      ∧ ((¬ ∃ parts, Spells v parts) → Revision.ofJson v = .error (.malformedJson .revision))
      ∧ ∀ parts c, Spells v parts → Revision.ofJson v = .ok c →
        c.length = sumBy Part.length parts ∧ c.newLength = sumBy Part.newLength parts
          ∧ ∀ doc, Rope.Reachable fits doc → doc.length = sumBy Part.length parts →
            ∃ r, c.apply doc = .ok r ∧ r.items = Part.makeAll parts doc.items := by
  have hread : (∃ c, Revision.ofJson v = .ok c) ↔ ∃ parts, Spells v parts := by
    constructor
    · rintro ⟨c, hc⟩
      obtain ⟨parts, h, -⟩ := (ofJson_eq_ok_iff hv).mp hc
      exact ⟨parts, h⟩
    · rintro ⟨parts, h⟩
      exact ⟨Part.merge parts, h.ofJson_eq⟩
  refine ⟨hread, fun hnone => ofJson_eq_error (hread.not.mpr hnone), fun parts c h hc => ?_⟩
  obtain rfl : Part.merge parts = c := Except.ok.inj (h.ofJson_eq.symm.trans hc)
  obtain ⟨hsound, hlength, hnew, hrun⟩ := merge_spec h.total_lines_le
  refine ⟨hlength, hnew, fun doc hdoc hdocLength => ?_⟩
  obtain ⟨r, hr, -, hitems⟩ :=
    Revision.apply_spec hsound hdoc.obeys (hlength.trans hdocLength.symm)
  exact ⟨r, hr, hitems.trans (hrun doc.items)⟩

/-- Insertions that stand next to each other, and removals behind them, are made one after the
other. -/
theorem ofJson_accepts_adjacent_parts :
    let parts : List Part := [.kept 1, .replaced 0 ["a"], .replaced 0 ["b", "c"], .replaced 1 [],
      .replaced 2 [], .kept 1]
    let v : Json := .arr [.int 1, .arr [.int 0, .str "a"], .arr [.int 0, .str "b", .str "c"],
      .arr [.int 1], .arr [.int 2], .int 1]
    v.Addressable ∧ Spells v parts ∧ Rope.ofLines? ["01234"] = .ok (Rope.ofBlock ["01234"])
      ∧ ∃ c r, Revision.ofJson v = .ok c ∧ c.length = 5 ∧ c.newLength = 6
        ∧ c.apply (Rope.ofBlock ["01234"]) = .ok r ∧ r.items = Block.items ["0ab", "c4"] := by
  intro parts v
  have hv : v.Addressable := by decide
  have hspells : Spells v parts := {
    value := rfl
    valid := by decide
    length := by decide
    newLength := by decide }
  have hlines : Rope.ofLines? ["01234"] = .ok (Rope.ofBlock ["01234"]) := rfl
  have hdoc : Rope.Reachable (fun _ => True) (Rope.ofBlock ["01234"]) := .ofLines hlines
  obtain ⟨haccepts, -, happly⟩ := @ofJson_accepts (fun _ => True) v hv
  obtain ⟨c, hc⟩ := haccepts.mpr ⟨parts, hspells⟩
  obtain ⟨hlength, hnew, happly⟩ := happly parts c hspells hc
  obtain ⟨r, hr, hitems⟩ := happly _ hdoc rfl
  exact ⟨hv, hspells, hlines, c, r, hc, hlength, hnew, hr, hitems⟩

end Revision

end TextRevision
