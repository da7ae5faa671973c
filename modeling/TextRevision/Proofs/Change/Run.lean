import Mathlib
import TextRevision.Change.Basic

/-!
# What changes do to sequences

An insertion stands for a sequence: a document for its items, and where only a count is told, for as
many copies of a filler. A change then leads from a sequence to a sequence. Spans that are put
behind others do their work behind that of the others, whichever of them are merged.

## Main definitions

- `Reading`: which sequences insertions stand for
- `Reading.Sound`: a span with a count that its insertion has
- `Reading.run`: what spans make of a sequence

## Main statements

- `Reading.run_append`, `Reading.push_spec`, `Reading.push_unjoined`
-/

namespace TextRevision

variable {α β δ : Type}

/-- Which sequences insertions stand for. An insertion that is proper for a length stands for a
sequence of that length. -/
structure Reading (α β : Type) [Insertion α] where
  /-- Whether an insertion has the given length. -/
  Proper : α → Nat → Prop
  /-- The sequence that an insertion of the given length stands for. -/
  content : α → Nat → List β
  length_content : ∀ x n, Proper x n → (content x n).length = n
  empty : Proper Insertion.empty 0
  join : ∀ x y m n, Proper x m → Proper y n → Proper (Insertion.join x y) (m + n)
    ∧ content (Insertion.join x y) (m + n) = content x m ++ content y n
  extract : ∀ x n start stop, Proper x n → start ≤ stop → stop ≤ n →
    Proper (Insertion.extract x start stop) (stop - start)
      ∧ content (Insertion.extract x start stop) (stop - start)
        = ((content x n).drop start).take (stop - start)

theorem Span.keptMark_le {count : Int} (h : 0 ≤ count) : Span.keptMark ≤ count := by
  simp only [Span.keptMark]
  omega

theorem Span.isVoid_iff {s : Span α} : s.isVoid = true ↔ s.length = 0 ∧ s.count ≤ 0 := by
  simp [Span.isVoid]

theorem Span.isVoid_eq_false_iff {s : Span α} : s.isVoid = false ↔ 0 < s.length ∨ 0 < s.count := by
  simp only [Span.isVoid, Bool.and_eq_false_iff, decide_eq_false_iff_not]
  omega

/-- The number of characters that a run inserts. -/
def Span.volume (s : Span α) : Nat :=
  s.count.toNat

theorem Span.newLength_of_kept {s : Span α} (h : s.count < 0) : s.newLength = s.length := by
  rw [Span.newLength, Span.isKept, if_pos (by simpa using h)]

theorem Span.newLength_of_put {s : Span α} (h : 0 ≤ s.count) : s.newLength = s.count.toNat := by
  rw [Span.newLength, Span.isKept, if_neg (by simpa using h)]

theorem Span.volume_le_newLength (s : Span α) : s.volume ≤ s.newLength := by
  by_cases hkept : s.count < 0
  · rw [Span.volume, Int.toNat_of_nonpos (Int.le_of_lt hkept)]
    exact Nat.zero_le _
  · rw [Span.newLength_of_put (Int.not_lt.mp hkept)]
    exact Nat.le_refl _

/-- The number of characters that a change inserts. -/
def Change.volume (c : Change α) : Nat :=
  sumBy Span.volume c.spans

namespace Reading

variable [Insertion α]

/-- The same insertions, and the items of the sequences read otherwise. -/
def map (I : Reading α β) (f : β → δ) : Reading α δ where
  Proper := I.Proper
  content x n := (I.content x n).map f
  length_content x n h := by rw [List.length_map, I.length_content x n h]
  empty := I.empty
  join x y m n hx hy := by
    obtain ⟨hproper, hcontent⟩ := I.join x y m n hx hy
    exact ⟨hproper, by rw [hcontent, List.map_append]⟩
  extract x n start stop hx hle hstop := by
    obtain ⟨hproper, hcontent⟩ := I.extract x n start stop hx hle hstop
    exact ⟨hproper, by rw [hcontent, List.map_take, List.map_drop]⟩

/-- Where only counts are told, an insertion stands for copies of a filler. -/
def filled (filler : β) : Reading Unit β where
  Proper _ _ := True
  content _ n := List.replicate n filler
  length_content _ n _ := List.length_replicate
  empty := trivial
  join _ _ m n _ _ := ⟨trivial, List.replicate_add m n filler⟩
  extract _ n start stop _ hle hstop := by
    refine ⟨trivial, ?_⟩
    rw [List.drop_replicate, List.take_replicate,
      Nat.min_eq_left (Nat.sub_le_sub_right hstop start)]

variable (I : Reading α β)

/-- A span whose count is the mark of a kept run or a number that its insertion has. -/
structure Fit (s : Span α) : Prop where
  mark : Span.keptMark ≤ s.count
  proper : I.Proper s.text s.count.toNat

/-- A span that changes are made of has characters in one of the two documents. -/
structure Sound (s : Span α) : Prop extends I.Fit s where
  not_void : s.isVoid = false

/-- What a run makes of a sequence that starts with it. -/
def step (s : Span α) (doc : List β) : List β :=
  if s.isKept then doc.take s.length else I.content s.text s.count.toNat

/-- What spans make of a sequence. -/
def run : List (Span α) → List β → List β
  | [], _ => []
  | s :: rest, doc => I.step s doc ++ run rest (doc.drop s.length)

variable {I}

theorem content_empty : I.content Insertion.empty 0 = [] :=
  List.eq_nil_of_length_eq_zero (I.length_content _ _ I.empty)

/-- A proper insertion of no characters stands for nothing. -/
theorem content_zero {x : α} (h : I.Proper x 0) : I.content x 0 = [] :=
  List.eq_nil_of_length_eq_zero (I.length_content _ _ h)

@[simp] theorem run_nil (doc : List β) : I.run [] doc = [] := rfl

@[simp] theorem run_cons (s : Span α) (rest : List (Span α)) (doc : List β) :
    I.run (s :: rest) doc = I.step s doc ++ I.run rest (doc.drop s.length) := rfl

theorem run_append (ss ts : List (Span α)) (doc : List β) :
    I.run (ss ++ ts) doc = I.run ss doc ++ I.run ts (doc.drop (sumBy Span.length ss)) := by
  induction ss generalizing doc with
  | nil => rfl
  | cons s ss ih =>
    rw [List.cons_append, run_cons, run_cons, ih, List.append_assoc, sumBy_cons, List.drop_drop]

theorem step_kept {s : Span α} (h : s.count < 0) (doc : List β) :
    I.step s doc = doc.take s.length := by
  rw [step, Span.isKept, if_pos (by simpa using h)]

theorem step_put {s : Span α} (h : 0 ≤ s.count) (doc : List β) :
    I.step s doc = I.content s.text s.count.toNat := by
  rw [step, Span.isKept, if_neg (by simpa using h)]

/-- A run only depends on what its insertion stands for. -/
theorem step_congr {n : Nat} {count : Int} {x y : α}
    (h : I.content x count.toNat = I.content y count.toNat) (doc : List β) :
    I.step ⟨n, count, x⟩ doc = I.step ⟨n, count, y⟩ doc := by
  by_cases hkept : count < 0
  · have hleft : I.step ⟨n, count, x⟩ doc = doc.take n := step_kept hkept doc
    have hright : I.step ⟨n, count, y⟩ doc = doc.take n := step_kept hkept doc
    rw [hleft, hright]
  · have hput : 0 ≤ count := Int.not_lt.mp hkept
    have hleft : I.step ⟨n, count, x⟩ doc = I.content x count.toNat := step_put hput doc
    have hright : I.step ⟨n, count, y⟩ doc = I.content y count.toNat := step_put hput doc
    rw [hleft, hright, h]

theorem length_step {s : Span α} (h : I.Sound s) {doc : List β} (hdoc : s.length ≤ doc.length) :
    (I.step s doc).length = s.newLength := by
  by_cases hkept : s.count < 0
  · rw [step_kept hkept, List.length_take, Span.newLength_of_kept hkept]
    exact Nat.min_eq_left hdoc
  · have hput : 0 ≤ s.count := Int.not_lt.mp hkept
    rw [step_put hput, I.length_content _ _ h.proper, Span.newLength_of_put hput]

/-- Spans lead from a sequence that is long enough for them to one of their new length. -/
theorem length_run_of_le {ss : List (Span α)} (h : ∀ s ∈ ss, I.Sound s) {doc : List β}
    (hdoc : sumBy Span.length ss ≤ doc.length) :
    (I.run ss doc).length = sumBy Span.newLength ss := by
  induction ss generalizing doc with
  | nil => rfl
  | cons s ss ih =>
    rw [List.forall_mem_cons] at h
    rw [sumBy_cons] at hdoc
    rw [run_cons, List.length_append, length_step h.1 (by omega), sumBy_cons,
      ih h.2 (by rw [List.length_drop]; omega)]

/-- A change leads to a sequence of its new length. -/
theorem length_run {ss : List (Span α)} (h : ∀ s ∈ ss, I.Sound s) {doc : List β}
    (hdoc : doc.length = sumBy Span.length ss) :
    (I.run ss doc).length = sumBy Span.newLength ss :=
  length_run_of_le h hdoc.ge

theorem step_keep (n : Nat) (doc : List β) : I.step (Span.keep n) doc = doc.take n := by
  have hkept : (Span.keep n : Span α).count < 0 := by
    show Span.keptMark < 0
    decide
  exact step_kept hkept doc

/-- Two runs that are kept are kept as one. -/
theorem step_merge_kept {m n : Nat} {count : Int} (h : count < 0) (x y z : α) (doc : List β) :
    I.step ⟨m + n, count, x⟩ doc
      = I.step ⟨m, count, y⟩ doc ++ I.step ⟨n, count, z⟩ (doc.drop m) := by
  rw [step_kept h, step_kept h, step_kept h]
  exact List.take_add

/-- Two runs that are replaced are replaced as one, their insertions being joined. -/
theorem step_merge_put {m n : Nat} {c d : Int} {x y : α} (hc : 0 ≤ c) (hd : 0 ≤ d)
    (hx : I.Proper x c.toNat) (hy : I.Proper y d.toNat) (doc : List β) :
    I.step ⟨m + n, c + d, Insertion.join x y⟩ doc
      = I.step ⟨m, c, x⟩ doc ++ I.step ⟨n, d, y⟩ (doc.drop m) := by
  rw [step_put (show 0 ≤ (⟨m + n, c + d, Insertion.join x y⟩ : Span α).count by
      exact Int.add_nonneg hc hd),
    step_put (show 0 ≤ (⟨m, c, x⟩ : Span α).count from hc),
    step_put (show 0 ≤ (⟨n, d, y⟩ : Span α).count from hd)]
  simp only [Int.toNat_add hc hd]
  exact (I.join x y _ _ hx hy).2

theorem fit_keep (n : Nat) : I.Fit (Span.keep n) :=
  ⟨Int.le_refl _, I.empty⟩

/-- A void span makes nothing. -/
theorem step_void {s : Span α} (h : I.Fit s) (hvoid : s.isVoid = true) (doc : List β) :
    I.step s doc = [] := by
  obtain ⟨hlength, hcount⟩ := Span.isVoid_iff.mp hvoid
  by_cases hkept : s.count < 0
  · rw [step_kept hkept, hlength, List.take_zero]
  · have hzero : s.count.toNat = 0 := by omega
    rw [step_put (by omega), hzero]
    exact content_zero (hzero ▸ h.proper)

/-- What putting a span behind others, which are told newest first, comes to. -/
structure Pushed (I : Reading α β) (spans : List (Span α)) (s : Span α) (spans' : List (Span α)) :
    Prop where
  sound : ∀ t ∈ spans', I.Sound t
  length : sumBy Span.length spans' = sumBy Span.length spans + s.length
  volume : sumBy Span.volume spans' = sumBy Span.volume spans + s.volume
  run : ∀ doc, I.run spans'.reverse doc
    = I.run spans.reverse doc ++ I.step s (doc.drop (sumBy Span.length spans))

theorem run_reverse_cons (s : Span α) (rest : List (Span α)) (doc : List β) :
    I.run (s :: rest).reverse doc
      = I.run rest.reverse doc ++ I.step s (doc.drop (sumBy Span.length rest)) := by
  rw [List.reverse_cons, run_append, run_cons, run_nil, List.append_nil, sumBy_reverse]

/-- A span that makes a run of its own. -/
theorem Pushed.cons {spans : List (Span α)} {s t : Span α} (hspans : ∀ t ∈ spans, I.Sound t)
    (ht : I.Sound t) (hlength : t.length = s.length) (hvolume : t.volume = s.volume)
    (hstep : ∀ doc, I.step t doc = I.step s doc) : I.Pushed spans s (t :: spans) where
  sound := List.forall_mem_cons.mpr ⟨ht, hspans⟩
  length := by rw [sumBy_cons, hlength, Nat.add_comm]
  volume := by rw [sumBy_cons, hvolume, Nat.add_comm]
  run doc := by rw [run_reverse_cons, hstep]

/-- A span that is merged into the one in front of it. -/
theorem Pushed.merge {last merged s : Span α} {rest : List (Span α)}
    (hrest : ∀ t ∈ rest, I.Sound t) (hmerged : I.Sound merged)
    (hlength : merged.length = last.length + s.length)
    (hvolume : merged.volume = last.volume + s.volume)
    (hstep : ∀ doc, I.step merged doc = I.step last doc ++ I.step s (doc.drop last.length)) :
    I.Pushed (last :: rest) s (merged :: rest) where
  sound := List.forall_mem_cons.mpr ⟨hmerged, hrest⟩
  length := by
    rw [sumBy_cons, sumBy_cons, hlength]
    omega
  volume := by
    rw [sumBy_cons, sumBy_cons, hvolume]
    omega
  run doc := by
    rw [run_reverse_cons, run_reverse_cons, hstep, List.append_assoc, List.drop_drop, sumBy_cons,
      Nat.add_comm last.length]

/-- A void span leaves the others as they are, except that its insertion of nothing is put to the
newest one. -/
theorem push_void {join : Bool} {spans : List (Span α)} {s : Span α}
    (hspans : ∀ t ∈ spans, I.Sound t) (hs : I.Fit s) (hvoid : s.isVoid = true) :
    I.Pushed spans s (Span.push join spans s) := by
  obtain ⟨hlength, hcount⟩ := Span.isVoid_iff.mp hvoid
  -- No run is made, but the insertion of nothing is still put to that of the newest span.
  have hvolume : s.volume = 0 := by
    rw [Span.volume]
    omega
  have hproper : I.Proper s.text 0 := hvolume ▸ hs.proper
  have hrun : Span.pushRun join spans s = spans := by
    unfold Span.pushRun
    rw [if_pos hvoid]
  rw [Span.push, hrun]
  cases spans with
  | nil =>
    refine ⟨by simp [Span.attach], by simp [Span.attach, hlength], by simp [Span.attach, hvolume],
      fun doc => ?_⟩
    rw [step_void hs hvoid]
    rfl
  | cons last rest =>
    obtain ⟨hlast, hrest⟩ := List.forall_mem_cons.mp hspans
    obtain ⟨hjoined, hcontent⟩ := I.join _ _ _ _ hlast.proper hproper
    rw [Nat.add_zero] at hjoined hcontent
    refine Pushed.merge hrest ⟨⟨hlast.mark, hjoined⟩, hlast.not_void⟩ ?_ ?_ fun doc => ?_
    · rw [hlength, Nat.add_zero]
    · rw [hvolume, Nat.add_zero]
      rfl
    · rw [step_void hs hvoid, List.append_nil]
      refine step_congr ?_ doc
      rw [hcontent, content_zero hproper, List.append_nil]

/-- A span that is not merged into the others. -/
theorem push_alone {spans : List (Span α)} {s : Span α} (hspans : ∀ t ∈ spans, I.Sound t)
    (hs : I.Sound s) :
    I.Pushed spans s (⟨s.length, s.count, Insertion.join Insertion.empty s.text⟩ :: spans) := by
  obtain ⟨hjoined, hcontent⟩ := I.join _ _ _ _ I.empty hs.proper
  rw [Nat.zero_add] at hjoined hcontent
  refine Pushed.cons hspans ⟨⟨hs.mark, hjoined⟩, hs.not_void⟩ rfl rfl ?_
  intro doc
  refine step_congr ?_ doc
  rw [hcontent, content_empty, List.nil_append]

/-- Two kept runs become one. -/
theorem push_kept {last s : Span α} {rest : List (Span α)} (hspans : ∀ t ∈ last :: rest, I.Sound t)
    (hs : I.Fit s) (hkept : s.count < 0) (hsame : s.count = last.count) :
    I.Pushed (last :: rest) s
      (⟨last.length + s.length, last.count, Insertion.join last.text s.text⟩ :: rest) := by
  obtain ⟨hlast, hrest⟩ := List.forall_mem_cons.mp hspans
  have hlastKept : last.count < 0 := hsame ▸ hkept
  have hvolume : s.volume = 0 := by
    rw [Span.volume]
    omega
  have hproper : I.Proper s.text 0 := hvolume ▸ hs.proper
  obtain ⟨hjoined, -⟩ := I.join _ _ _ _ hlast.proper hproper
  refine Pushed.merge hrest ⟨⟨hlast.mark, hjoined⟩, ?_⟩ rfl ?_ fun doc => ?_
  · have hvoid := hlast.not_void
    rw [Span.isVoid_eq_false_iff] at hvoid ⊢
    dsimp only
    omega
  · rw [hvolume]
    rfl
  · rw [step_merge_kept hlastKept _ last.text s.text]
    conv_rhs => rw [show s = ⟨s.length, last.count, s.text⟩ by rw [← hsame]]

/-- Two replaced runs become one. -/
theorem push_put {last s : Span α} {rest : List (Span α)} (hspans : ∀ t ∈ last :: rest, I.Sound t)
    (hs : I.Fit s) (hput : 0 ≤ s.count) (hlastPut : 0 ≤ last.count) :
    I.Pushed (last :: rest) s
      (⟨last.length + s.length, last.count + s.count, Insertion.join last.text s.text⟩
        :: rest) := by
  obtain ⟨hlast, hrest⟩ := List.forall_mem_cons.mp hspans
  obtain ⟨hjoined, -⟩ := I.join _ _ _ _ hlast.proper hs.proper
  have hcount : (last.count + s.count).toNat = last.count.toNat + s.count.toNat :=
    Int.toNat_add hlastPut hput
  have hmark : Span.keptMark ≤ last.count + s.count :=
    Span.keptMark_le (Int.add_nonneg hlastPut hput)
  refine Pushed.merge hrest ⟨⟨hmark, hcount ▸ hjoined⟩, ?_⟩ rfl hcount fun doc => ?_
  · have hvoid := hlast.not_void
    rw [Span.isVoid_eq_false_iff] at hvoid ⊢
    dsimp only
    omega
  · exact step_merge_put hlastPut hput hlast.proper hs.proper doc

/-- A span put behind others does its work behind that of the others. Where it is merged in any
case, both runs have to be replaced ones. -/
theorem push_spec {join : Bool} {spans : List (Span α)} {s : Span α}
    (hspans : ∀ t ∈ spans, I.Sound t) (hs : I.Fit s)
    (hjoin : join = true → 0 ≤ s.count ∧ ∀ last ∈ spans.head?, 0 ≤ last.count) :
    I.Pushed spans s (Span.push join spans s) := by
  by_cases hvoid : s.isVoid = true
  · exact push_void hspans hs hvoid
  · have hsound : I.Sound s := ⟨hs, by simpa using hvoid⟩
    rw [Span.push]
    unfold Span.pushRun
    rw [if_neg hvoid]
    cases spans with
    | nil => exact push_alone hspans hsound
    | cons last rest =>
      dsimp only
      split
      · next hsame =>
        by_cases hkept : s.count < 0
        · exact push_kept hspans hs hkept hsame.2
        -- Two runs of the same count that are not kept are deletions.
        · have hzero : s.count = 0 := by omega
          have hput := push_put hspans hs (by omega) (by omega)
          rwa [hzero, Int.add_zero] at hput
      · split
        · next hmerge =>
          -- Two insertions at one place are not void, so that both counts are positive.
          have hlast := hspans last (by simp)
          have hvoid' := hlast.not_void
          have hvoid'' := hsound.not_void
          rw [Span.isVoid_eq_false_iff] at hvoid' hvoid''
          rcases hmerge with hmerge | hmerge
          · exact push_put hspans hs (by omega) (by omega)
          · obtain ⟨hput, hlastPut⟩ := hjoin hmerge
            exact push_put hspans hs hput (hlastPut last rfl)
        · exact push_alone hspans hsound

/-- A span that is only merged into one of its own kind can be put behind any others. -/
theorem push_unjoined {spans : List (Span α)} {s : Span α} (hspans : ∀ t ∈ spans, I.Sound t)
    (hs : I.Fit s) : I.Pushed spans s (Span.push false spans s) := by
  apply push_spec hspans hs
  intro hjoin
  cases hjoin

end Reading

end TextRevision
