import TextRevision.Change.Revision
import TextRevision.Proofs.Change.Run
import TextRevision.Proofs.Change.Texts
import TextRevision.Proofs.Rope.Splicing

/-!
# Revisions of documents

A document stands for the sequence of its items. Applying a revision replaces its runs one after the
other, those that touch as one. What it leads to stands for what the spans make of the items.

## Main definitions

- `Rope.reading`: documents as insertions
- `Replacement.spliceItems`: what a replacement makes of a sequence

## Main statements

- `Revision.apply_spec`
-/

namespace TextRevision

theorem Rope.Obeys.items_of_isEmpty {rule : Rope.Rule} {r : Rope} (h : r.Obeys rule)
    (hempty : r.isEmpty = true) : r.items = [] := by
  apply List.eq_nil_of_length_eq_zero
  rw [h.length_items]
  simpa [Rope.isEmpty] using hempty

/-- A document of a length stands for its items. -/
def Rope.reading : Reading Rope Item where
  Proper r n := r.Obeys shareRule ∧ r.length = n
  content r _ := r.items
  length_content r n h := h.1.length_items.trans h.2
  empty := ⟨obeys_empty, rfl⟩
  join x y m n hx hy := by
    obtain ⟨hx, rfl⟩ := hx
    obtain ⟨hy, rfl⟩ := hy
    have hjoin : (Insertion.join x y).Obeys shareRule
        ∧ (Insertion.join x y).items = x.items ++ y.items := by
      rw [Insertion.join]
      split
      · next hempty => exact ⟨hx, by rw [hy.items_of_isEmpty hempty, List.append_nil]⟩
      · split
        · next hempty => exact ⟨hy, by rw [hx.items_of_isEmpty hempty, List.nil_append]⟩
        · exact append_spec Rule.builds_shareRule Rule.swaps_shareRule hx hy
    refine ⟨⟨hjoin.1, ?_⟩, hjoin.2⟩
    rw [← hjoin.1.length_items, hjoin.2, List.length_append, hx.length_items, hy.length_items]
  extract x n start stop hx hle hstop := by
    obtain ⟨hx, rfl⟩ := hx
    obtain ⟨hobeys, hitems⟩ := extract_spec Rule.builds_shareRule hx start stop
    rw [clip_of_le hle hstop] at hitems
    refine ⟨⟨hobeys, ?_⟩, hitems⟩
    have hlength := hobeys.length_items
    rw [show Insertion.extract x start stop = x.extract start stop from rfl, ← hlength, hitems,
      List.length_take, List.length_drop, hx.length_items]
    exact Nat.min_eq_left (Nat.sub_le_sub_right hstop start)

/-- What is cut out of a document are the items between two places. -/
theorem Rope.items_extract {doc : Rope} (hdoc : doc.Obeys shareRule) {start stop : Nat}
    (hle : start ≤ stop) (hstop : stop ≤ doc.length) :
    (doc.extract start stop).items = (doc.items.drop start).take (stop - start) :=
  (reading.extract doc doc.length start stop ⟨hdoc, rfl⟩ hle hstop).2

namespace Replacement

/-- The items of the inserted documents. -/
def items (r : Replacement Rope) : List Item :=
  r.inserted.flatMap Rope.items

/-- What a replacement makes of a sequence in which those in front of it are made. -/
def spliceItems (xs : List Item) (r : Replacement Rope) : List Item :=
  xs.take r.newStart ++ r.items ++ xs.drop (r.newStart + (r.stop - r.start))

/-- Documents are put behind each other. -/
theorem foldl_append_spec {texts : List Rope} (htexts : ∀ t ∈ texts, t.Obeys Rope.shareRule)
    {front : Rope} (hfront : front.Obeys Rope.shareRule) :
    (texts.foldl Rope.append front).Obeys Rope.shareRule
      ∧ (texts.foldl Rope.append front).items = front.items ++ texts.flatMap Rope.items := by
  induction texts generalizing front with
  | nil => exact ⟨hfront, (List.append_nil _).symm⟩
  | cons t texts ih =>
    obtain ⟨ht, htexts⟩ := List.forall_mem_cons.mp htexts
    obtain ⟨hobeys, hitems⟩ :=
      Rope.append_spec Rope.Rule.builds_shareRule Rope.Rule.swaps_shareRule hfront ht
    obtain ⟨hrest, hrestItems⟩ := ih htexts hobeys
    refine ⟨hrest, ?_⟩
    rw [List.foldl_cons, hrestItems, hitems, List.flatMap_cons, List.append_assoc]

theorem text_spec {r : Replacement Rope} (h : ∀ t ∈ r.inserted, t.Obeys Rope.shareRule) :
    r.text.Obeys Rope.shareRule ∧ r.text.items = r.items :=
  foldl_append_spec h Rope.obeys_empty

/-- A range that reaches behind the end goes on to the end. -/
theorem clip_spliceItems {xs : List Item} {length : Nat} (r : Replacement Rope)
    (h : xs.length = length) :
    xs.take (Rope.clip length r.newStart (r.newStart + (r.stop - r.start))).1 ++ r.items
        ++ xs.drop (Rope.clip length r.newStart (r.newStart + (r.stop - r.start))).2
      = spliceItems xs r := by
  have hle : r.newStart ≤ r.newStart + (r.stop - r.start) := Nat.le_add_right _ _
  simp only [Rope.clip, spliceItems, Nat.min_eq_left hle, Nat.max_eq_right hle, ← h]
  rw [← List.take_take, ← List.drop_eq_drop_min, List.take_length]

/-- Making replacements in a document makes them in its items. -/
theorem foldl_splice_spec {rs : List (Replacement Rope)} {doc : Rope}
    (hrs : ∀ r ∈ rs, ∀ t ∈ r.inserted, t.Obeys Rope.shareRule) (hdoc : doc.Obeys Rope.shareRule) :
    (rs.foldl (fun doc r => doc.splice r.newStart (r.newStart + (r.stop - r.start)) r.text)
        doc).Obeys Rope.shareRule
      ∧ (rs.foldl (fun doc r => doc.splice r.newStart (r.newStart + (r.stop - r.start)) r.text)
        doc).items = rs.foldl spliceItems doc.items := by
  induction rs generalizing doc with
  | nil => exact ⟨hdoc, rfl⟩
  | cons r rs ih =>
    obtain ⟨hr, hrs⟩ := List.forall_mem_cons.mp hrs
    obtain ⟨htext, htextItems⟩ := text_spec hr
    have hspliced := (Rope.splice_spec Rope.Rule.builds_shareRule Rope.Rule.swaps_shareRule hdoc
      htext r.newStart (r.newStart + (r.stop - r.start))).1
    obtain ⟨hobeys, hitems⟩ := ih hrs hspliced.obey
    refine ⟨hobeys, ?_⟩
    have hclip := clip_spliceItems r hdoc.length_items
    rw [List.foldl_cons, hitems, List.foldl_cons, hspliced.items, htextItems, hclip]

end Replacement

namespace Change

variable {α : Type}

/-- The replacement of one run alone. -/
def ownReplacement (pos newPos : Nat) (s : Span α) : Replacement α :=
  ⟨pos, pos + s.length, newPos, newPos + s.newLength, if 0 < s.count then [s.text] else []⟩

/-- A replaced run makes a replacement of its own, or one with that of the run behind it. -/
theorem replacementsFrom_put {s : Span α} (hput : s.isKept = false) (each : Bool)
    (pos newPos : Nat) (rest : List (Span α)) :
    replacementsFrom each pos newPos (s :: rest)
        = ownReplacement pos newPos s
          :: replacementsFrom each (pos + s.length) (newPos + s.newLength) rest
      ∨ ∃ next rest' r later, rest = next :: rest' ∧ next.isKept = false
        ∧ replacementsFrom each (pos + s.length) (newPos + s.newLength) rest = r :: later
        ∧ replacementsFrom each pos newPos (s :: rest)
          = ⟨pos, r.stop, newPos, r.newStop,
              (ownReplacement pos newPos s).inserted ++ r.inserted⟩ :: later := by
  rw [replacementsFrom, hput, if_neg Bool.false_ne_true]
  dsimp only
  split
  · next next rest' r later hlater =>
    split
    · exact Or.inl (by rw [hlater]; rfl)
    · next htouch =>
      refine Or.inr ⟨next, rest', r, later, rfl, ?_, hlater, rfl⟩
      simp only [Bool.or_eq_true, not_or, Bool.not_eq_true] at htouch
      exact htouch.2
  · exact Or.inl rfl

/-- The replacement of a replaced run starts where the run does. -/
theorem replacementsFrom_head {s : Span α} (hput : s.isKept = false) (each : Bool)
    (pos newPos : Nat) {rest : List (Span α)} {r : Replacement α} {later : List (Replacement α)}
    (h : replacementsFrom each pos newPos (s :: rest) = r :: later) :
    r.start = pos ∧ r.newStart = newPos ∧ pos ≤ r.stop := by
  induction rest generalizing s pos newPos r later with
  | nil =>
    obtain ⟨rfl, -⟩ : ownReplacement pos newPos s = r ∧ [] = later := by
      simpa [replacementsFrom, hput, ownReplacement] using h
    exact ⟨rfl, rfl, Nat.le_add_right _ _⟩
  | cons next rest ih =>
    rcases replacementsFrom_put hput each pos newPos (next :: rest) with halone | hmerged
    · obtain ⟨rfl, -⟩ := List.cons.inj (halone.symm.trans h)
      exact ⟨rfl, rfl, Nat.le_add_right _ _⟩
    · obtain ⟨next', rest', r', later', hrest, hnext, hlater, hmerged⟩ := hmerged
      obtain ⟨rfl, rfl⟩ := List.cons.inj hrest
      obtain ⟨rfl, -⟩ := List.cons.inj (hmerged.symm.trans h)
      have hstop := (ih hnext _ _ hlater).2.2
      exact ⟨rfl, rfl, Nat.le_trans (Nat.le_add_right _ _) hstop⟩

theorem items_own {s : Span Rope} (hs : Rope.reading.Sound s) (hput : s.isKept = false)
    (pos newPos : Nat) (doc : List Item) :
    (ownReplacement pos newPos s).items = Rope.reading.step s doc := by
  have hcount : 0 ≤ s.count := by simpa [Span.isKept] using hput
  rw [Reading.step_put hcount, Replacement.items, ownReplacement]
  by_cases hpos : 0 < s.count
  · rw [if_pos hpos]
    exact List.append_nil _
  · have hzero : s.count.toNat = 0 := by omega
    have hproper := hs.proper
    rw [hzero] at hproper
    rw [if_neg hpos, hzero, Reading.content_zero hproper]
    rfl

/-- Making one replacement in a sequence, in front of which others are made. -/
theorem spliceItems_own {s : Span Rope} (hs : Rope.reading.Sound s) (hput : s.isKept = false)
    (pre doc : List Item) (pos : Nat) :
    Replacement.spliceItems (pre ++ doc) (ownReplacement pos pre.length s)
      = pre ++ Rope.reading.step s doc ++ doc.drop s.length := by
  have hrange : pos + s.length - pos = s.length := Nat.add_sub_cancel_left pos s.length
  rw [Replacement.spliceItems, items_own hs hput pos pre.length doc]
  simp only [ownReplacement, hrange, List.take_left, List.drop_length_add_append]

/-- Making a replacement for two runs that touch makes those of both. -/
theorem spliceItems_merged {s : Span Rope} (hs : Rope.reading.Sound s) (hput : s.isKept = false)
    (pre doc : List Item) (pos : Nat) {r : Replacement Rope} (hdoc : s.length ≤ doc.length)
    (hstart : r.start = pos + s.length) (hnewStart : r.newStart = pre.length + s.newLength)
    (hstop : pos + s.length ≤ r.stop) :
    Replacement.spliceItems (pre ++ doc) ⟨pos, r.stop, pre.length, r.newStop,
        (ownReplacement pos pre.length s).inserted ++ r.inserted⟩
      = Replacement.spliceItems (pre ++ Rope.reading.step s doc ++ doc.drop s.length) r := by
  have hlength : r.newStart = (pre ++ Rope.reading.step s doc).length := by
    rw [List.length_append, Reading.length_step hs hdoc, hnewStart]
  have hitems : ((ownReplacement pos pre.length s).inserted ++ r.inserted).flatMap Rope.items
      = Rope.reading.step s doc ++ r.items := by
    rw [List.flatMap_append]
    exact congrArg (· ++ r.items) (items_own hs hput pos pre.length doc)
  have hrest : doc.drop (r.stop - pos) = (doc.drop s.length).drop (r.stop - r.start) := by
    rw [List.drop_drop]
    congr 1
    omega
  rw [Replacement.spliceItems, Replacement.spliceItems, Replacement.items, hitems, hlength,
    List.take_left, List.drop_length_add_append, List.take_left, List.drop_length_add_append,
    ← hrest, ← List.append_assoc pre]

/-- Making the replacements of spans in a sequence, in front of which others are made, does what the
spans do. -/
theorem foldl_replacementsFrom {ss : List (Span Rope)} (h : ∀ s ∈ ss, Rope.reading.Sound s)
    (pre doc : List Item) (pos newPos : Nat) (hpre : pre.length = newPos)
    (hdoc : doc.length = sumBy Span.length ss) :
    (replacementsFrom false pos newPos ss).foldl Replacement.spliceItems (pre ++ doc)
      = pre ++ Rope.reading.run ss doc := by
  induction ss generalizing pre doc pos newPos with
  | nil =>
    rw [sumBy_nil] at hdoc
    rw [List.eq_nil_of_length_eq_zero hdoc]
    rfl
  | cons s ss ih =>
    obtain ⟨hs, hss⟩ := List.forall_mem_cons.mp h
    rw [sumBy_cons] at hdoc
    have hdrop : (doc.drop s.length).length = sumBy Span.length ss := by
      rw [List.length_drop]
      omega
    have hnew : (pre ++ Rope.reading.step s doc).length = newPos + s.newLength := by
      rw [List.length_append, Reading.length_step hs (by omega), hpre]
    have hlater := ih hss (pre ++ Rope.reading.step s doc) (doc.drop s.length) (pos + s.length)
      (newPos + s.newLength) hnew hdrop
    rw [Reading.run_cons, ← List.append_assoc, ← hlater]
    by_cases hkept : s.isKept = true
    · have hsplit : Rope.reading.step s doc ++ doc.drop s.length = doc := by
        rw [Reading.step_kept (by simpa [Span.isKept] using hkept), List.take_append_drop]
      rw [replacementsFrom, if_pos hkept, List.append_assoc, hsplit]
    · have hput : s.isKept = false := by simpa using hkept
      -- A replacement for two runs that touch is not made after the first alone: making it at once
      -- comes to making the one of the later run behind what the first makes.
      rcases replacementsFrom_put hput false pos newPos ss with halone | hmerged
      · rw [halone, List.foldl_cons, ← hpre, spliceItems_own hs hput]
      · obtain ⟨next, rest, r, later, rfl, hnext, htail, hmerged⟩ := hmerged
        obtain ⟨hstart, hnewStart, hstop⟩ := replacementsFrom_head hnext _ _ _ htail
        rw [hmerged, htail, List.foldl_cons, List.foldl_cons, ← hpre,
          spliceItems_merged hs hput pre doc pos (by omega) hstart (by rw [hnewStart, hpre]) hstop]

end Change

/-- A revision can be applied to any document of its length, and does to the items of the document
what its spans do. -/
theorem Revision.apply_spec {c : Revision} {doc : Rope}
    (hc : ∀ s ∈ c.spans, Rope.reading.Sound s) (hdoc : doc.Obeys Rope.shareRule)
    (hfits : c.length = doc.length) :
    ∃ r, c.apply doc = .ok r ∧ r.Obeys Rope.shareRule
      ∧ r.items = Rope.reading.run c.spans doc.items := by
  have htexts : c.AllTexts (Rope.Obeys Rope.shareRule) := fun s hs => (hc s hs).proper.1
  obtain ⟨hobeys, hitems⟩ := Replacement.foldl_splice_spec
    (Change.AllTexts.replacementsFrom htexts false 0 0) hdoc
  rw [Revision.apply_eq, if_pos hfits]
  refine ⟨_, rfl, hobeys, hitems.trans ?_⟩
  exact Change.foldl_replacementsFrom hc [] doc.items 0 0 rfl
    (hdoc.length_items.trans hfits.symm)

end TextRevision
