import TextRevision.Proofs.Change.Moves

/-!
# Where two changes meet

Putting two changes together takes the same characters of the second document off both, as many as
the shorter of the next two runs has. What is left of a run of the first change makes those
characters, and what is left of a run of the second one is done to them: the span of a meeting does
both.

## Main definitions

- `Rest.second`: what is left of a span of the second change
- `Reading.First`, `Reading.Second`: when what is left of a span is part of a sound one

## Main statements

- `Reading.run_meet`: a meeting does what it takes off the second change to what it takes off the
  first
- `Reading.First.forwardNew`, `Reading.Second.forward`: what is left behind a meeting
-/

namespace TextRevision

variable {α β : Type} [Insertion α]

/-- What is left of a span of the second change. Its insertion goes with the first characters that
it removes. -/
def Rest.second (b : Rest α) : Span α :=
  ⟨b.length, b.remainder, if b.passed = 0 then b.text else Insertion.empty⟩

namespace Reading

variable (I : Reading α β)

/-- What is left of a span of the first change is part of a sound span, small enough for a signed
word. -/
structure First (a : Rest α) : Prop where
  mark : Span.keptMark ≤ a.count
  kept : a.count < 0 → 0 < a.length
  proper : 0 ≤ a.count → I.Proper a.text (a.passed + a.count.toNat)
  left : 0 ≤ a.count → 0 < a.passed → 0 < a.count
  small : a.newLength < signBound

/-- What is left of a span of the second change is part of a sound span. -/
structure Second (b : Rest α) : Prop where
  mark : Span.keptMark ≤ b.count
  kept : b.count < 0 → 0 < b.length
  proper : I.Proper b.text b.count.toNat
  left : 0 < b.passed → 0 < b.length

variable {I}

theorem Sound.marked {s : Span α} (h : I.Sound s) : s.Marked :=
  ⟨h.mark, h.not_void⟩

theorem First.marked {a : Rest α} (h : I.First a) : a.MarkedFirst where
  mark := h.mark
  kept := h.kept
  left := h.left
  small := by
    have hsmall := h.small
    by_cases hkept : a.count < 0
    · exact Int.lt_of_lt_of_le hkept (Int.natCast_nonneg _)
    · rw [Rest.newLength_of_put (Int.not_lt.mp hkept)] at hsmall
      omega

theorem Second.marked {b : Rest α} (h : I.Second b) : b.MarkedSecond :=
  ⟨⟨h.mark, h.kept⟩, h.left⟩

theorem First.eq_keptMark {a : Rest α} (h : I.First a) (hkept : a.count < 0) :
    a.count = Span.keptMark :=
  h.marked.eq_keptMark hkept

theorem Second.eq_keptMark {b : Rest α} (h : I.Second b) (hkept : b.count < 0) :
    b.count = Span.keptMark :=
  h.marked.eq_keptMark hkept

/-- What is left of a run of the second change inserts its whole insertion or nothing. -/
theorem Second.fit {b : Rest α} (h : I.Second b) (len : Nat) :
    I.Fit ⟨len, b.remainder, if b.passed = 0 then b.text else Insertion.empty⟩ := by
  have hmark := h.mark
  have hproper := h.proper
  rw [Rest.remainder]
  by_cases hpassed : b.passed = 0
  · simp only [hpassed, if_true]
    by_cases hkept : b.count = Span.keptMark
    · rw [if_pos hkept]
      exact ⟨Int.le_refl _, hkept ▸ hproper⟩
    · rw [if_neg hkept]
      exact ⟨hmark, hproper⟩
  · simp only [hpassed, if_false]
    by_cases hkept : b.count = Span.keptMark
    · rw [if_pos hkept]
      exact ⟨Int.le_refl _, I.empty⟩
    · rw [if_neg hkept]
      exact ⟨show Span.keptMark ≤ 0 by decide, I.empty⟩

/-- What is left of a kept run behind some of its characters. -/
theorem First.rest_kept {a : Rest α} {len : Nat} (ha : I.First a) (hkept : a.count < 0)
    (hlt : len < a.length) : I.First ⟨a.length - len, a.count, a.text, a.passed + len⟩ := by
  have hsmall := ha.small
  rw [Rest.newLength_of_kept hkept] at hsmall
  refine ⟨ha.mark, fun _ => Nat.sub_pos_of_lt hlt, ?_, ?_, ?_⟩
  · intro hput
    exact absurd hkept (Int.not_lt.mpr hput)
  · intro hput
    exact absurd hkept (Int.not_lt.mpr hput)
  · have hnew : (Rest.mk (a.length - len) a.count a.text (a.passed + len)).newLength
        = a.length - len := Rest.newLength_of_kept hkept
    rw [hnew]
    omega

/-- What is left of a replaced run behind some of the characters that it inserts. -/
theorem First.rest_put {a : Rest α} {len : Nat} (ha : I.First a) (hlt : (len : Int) < a.count) :
    I.First ⟨a.length, a.count - len, a.text, a.passed + len⟩ := by
  have hput : 0 ≤ a.count := by omega
  have hcount : 0 ≤ a.count - len := by omega
  have hsum : a.passed + len + (a.count - len).toNat = a.passed + a.count.toNat := by omega
  have hsmall := ha.small
  rw [Rest.newLength_of_put hput] at hsmall
  refine ⟨Span.keptMark_le hcount, ?_, ?_, ?_, ?_⟩
  · intro hkept
    exact absurd hcount (Int.not_le.mpr hkept)
  · intro _
    dsimp only
    rw [hsum]
    exact ha.proper hput
  · intro _ _
    dsimp only
    omega
  · rw [Rest.newLength_of_put hcount]
    dsimp only
    omega

/-- What is left of a run of the second change behind some of its characters. -/
theorem Second.rest {b : Rest α} {len : Nat} (hb : I.Second b) (hlt : len < b.length) :
    I.Second ⟨b.length - len, b.count, b.text, b.passed + len⟩ := by
  have hpos : 0 < b.length - len := Nat.sub_pos_of_lt hlt
  exact ⟨hb.mark, fun _ => hpos, hb.proper, fun _ => hpos⟩

/-- The characters of the second document that the first `len` of a span of the first change are. -/
def front (I : Reading α β) (len : Nat) (a : Rest α) (doc : List β) : List β :=
  if a.count < 0 then doc.take len
  else ((I.content a.text (a.passed + a.count.toNat)).drop a.passed).take len

theorem length_front {len : Nat} {a : Rest α} {doc : List β} (ha : I.First a)
    (hlen : len ≤ a.newLength) (hdoc : a.first.length ≤ doc.length) :
    (I.front len a doc).length = len := by
  by_cases hkept : a.count < 0
  · rw [Rest.newLength_of_kept hkept] at hlen
    rw [Rest.length_first_kept hkept] at hdoc
    rw [front, if_pos hkept, List.length_take]
    omega
  · have hput : 0 ≤ a.count := Int.not_lt.mp hkept
    rw [Rest.newLength_of_put hput] at hlen
    have hcontent := I.length_content _ _ (ha.proper hput)
    rw [front, if_neg hkept, List.length_take, List.length_drop, hcontent]
    omega

theorem step_first_kept {a : Rest α} (h : a.count < 0) (doc : List β) :
    I.step a.first doc = doc.take a.length := by
  have hkept : a.first.count < 0 := h
  rw [step_kept hkept, Rest.length_first_kept h]

theorem step_first_put {a : Rest α} (ha : I.First a) (h : 0 ≤ a.count) (doc : List β) :
    I.step a.first doc = (I.content a.text (a.passed + a.count.toNat)).drop a.passed := by
  have hput : 0 ≤ a.first.count := h
  have hproper := ha.proper h
  obtain ⟨-, hcontent⟩ := I.extract a.text _ a.passed (a.passed + a.count.toNat) hproper
    (Nat.le_add_right _ _) (Nat.le_refl _)
  rw [Nat.add_sub_cancel_left, List.take_of_length_le] at hcontent
  · exact (step_put hput doc).trans hcontent
  · rw [List.length_drop, I.length_content _ _ hproper]
    omega

/-- Taking characters of the second document off the first change. -/
theorem run_forwardNew {len : Nat} {a : Rest α} {as : List (Rest α)} (ha : I.First a)
    (hpos : 0 < len) (hlen : len ≤ a.newLength) (doc : List β) :
    I.run ((a :: as).map Rest.first) doc = I.front len a doc
      ++ I.run ((Rest.forwardNew len (a :: as)).map Rest.first) (doc.drop (taken len a)) := by
  rw [List.map_cons, run_cons, Rest.forwardNew, front, taken]
  by_cases hkept : a.count < 0
  · -- The kept run is taken as far as the characters go, and the rest of it is kept.
    rw [Rest.newLength_of_kept hkept] at hlen
    rw [if_pos (ha.eq_keptMark hkept), if_pos hkept, if_pos hkept, step_first_kept hkept,
      Rest.length_first_kept hkept, Rest.forward]
    by_cases hall : len = a.length
    · rw [if_pos hall, hall]
    · have hrest : (Rest.mk (a.length - len) a.count a.text (a.passed + len)).count < 0 := hkept
      rw [if_neg hall, List.map_cons, run_cons, step_first_kept hrest,
        Rest.length_first_kept hrest, List.drop_drop, Nat.add_sub_cancel' hlen, ← List.append_assoc]
      congr 1
      rw [← List.take_add, Nat.add_sub_cancel' hlen]
  · -- The characters that the run removes go with the first that it inserts: nothing is left of
    -- them behind the meeting.
    have hput : 0 ≤ a.count := Int.not_lt.mp hkept
    have hword := signedWord_of_lt (Nat.lt_of_le_of_lt hlen ha.small)
    rw [Rest.newLength_of_put hput] at hlen
    rw [if_neg (count_ne_keptMark hput), if_neg hkept, if_neg hkept, step_first_put ha hput, hword]
    by_cases hall : a.count = len
    · rw [if_pos hall, List.take_of_length_le]
      rw [List.length_drop, I.length_content _ _ (ha.proper hput)]
      omega
    · have hcount : 0 ≤ a.count - len := by omega
      have hsum : a.passed + len + (a.count - len).toNat = a.passed + a.count.toNat := by omega
      have hzero : (Rest.mk a.length (a.count - len) a.text (a.passed + len)).first.length = 0 :=
        Rest.length_first_passed hcount (Nat.add_pos_right _ hpos)
      rw [if_neg hall, List.map_cons, run_cons, step_first_put (ha.rest_put (by omega)) hcount,
        hzero]
      dsimp only
      rw [hsum, List.drop_zero, ← List.append_assoc, ← List.drop_drop, List.take_append_drop]

/-- What the first `len` characters of a run of the second change become. -/
def back (I : Reading α β) (len : Nat) (b : Rest α) (doc : List β) : List β :=
  I.step ⟨len, b.remainder, if b.passed = 0 then b.text else Insertion.empty⟩ doc

theorem back_kept {b : Rest α} (h : b.count = Span.keptMark) (len : Nat) (doc : List β) :
    I.back len b doc = doc.take len := by
  have hkept : (⟨len, b.remainder, if b.passed = 0 then b.text else Insertion.empty⟩ :
      Span α).count < 0 := by
    show b.remainder < 0
    rw [remainder_of_kept h]
    decide
  exact step_kept hkept doc

theorem back_put {b : Rest α} (h : 0 ≤ b.count) (len : Nat) (doc : List β) :
    I.back len b doc = if b.passed = 0 then I.content b.text b.count.toNat else [] := by
  have hput : 0 ≤ b.remainder := remainder_nonneg h
  refine (step_put (show 0 ≤ (⟨len, b.remainder, _⟩ : Span α).count from hput) doc).trans ?_
  dsimp only
  rw [remainder_of_put h]
  by_cases hpassed : b.passed = 0
  · simp only [if_pos hpassed]
  · simp only [if_neg hpassed]
    exact content_empty

theorem step_second (b : Rest α) (doc : List β) : I.step b.second doc = I.back b.length b doc := rfl

/-- Taking characters of the second document off the second change. -/
theorem run_forward {len : Nat} {b : Rest α} {bs : List (Rest α)} (hb : I.Second b)
    (hpos : 0 < len) (hlen : len ≤ b.length) {taken left : List β} (htaken : taken.length = len) :
    I.run ((b :: bs).map Rest.second) (taken ++ left) = I.back len b taken
      ++ I.run ((Rest.forward len (b :: bs)).map Rest.second) left := by
  rw [List.map_cons, run_cons, Rest.forward, step_second, List.drop_append, htaken,
    List.drop_eq_nil_of_le (show taken.length ≤ b.second.length by rw [htaken]; exact hlen),
    List.nil_append]
  by_cases hkept : b.count < 0
  -- A kept run keeps what is taken and then what is left.
  · have hmark := hb.eq_keptMark hkept
    rw [back_kept hmark, back_kept hmark, List.take_append, htaken,
      List.take_of_length_le (show taken.length ≤ b.length by omega),
      List.take_of_length_le (show taken.length ≤ len by omega), List.append_assoc]
    by_cases hall : len = b.length
    · rw [if_pos hall, hall, Nat.sub_self, List.take_zero, List.nil_append, Rest.second]
      simp only [Nat.sub_self, List.drop_zero]
    · have hrest : (Rest.mk (b.length - len) b.count b.text (b.passed + len)).count
          = Span.keptMark := hmark
      rw [if_neg hall, List.map_cons, run_cons, step_second, back_kept hrest]
      rfl
  · have hput : 0 ≤ b.count := Int.not_lt.mp hkept
    -- A replaced run inserts when its first characters are taken, and nothing behind them.
    rw [back_put hput, back_put hput]
    by_cases hall : len = b.length
    · rw [if_pos hall, hall, Rest.second]
      simp only [Nat.sub_self, List.drop_zero]
    · have hrest : 0 ≤ (Rest.mk (b.length - len) b.count b.text (b.passed + len)).count := hput
      rw [if_neg hall, List.map_cons, run_cons, step_second, back_put hrest,
        if_neg (show b.passed + len ≠ 0 by omega), List.nil_append]
      rfl

section Meet

variable {len : Nat} {a b : Rest α}

theorem Second.text_remainder (hb : I.Second b) :
    I.Proper (if 0 < b.remainder then b.text else Insertion.empty) b.remainder.toNat
      ∧ (b.remainder < 0 ∨ I.content (if 0 < b.remainder then b.text else Insertion.empty)
          b.remainder.toNat = if b.passed = 0 then I.content b.text b.count.toNat else []) := by
  by_cases hkept : b.count < 0
  · have hmark := remainder_of_kept (hb.eq_keptMark hkept)
    rw [hmark]
    exact ⟨I.empty, Or.inl (by decide)⟩
  · have hput : 0 ≤ b.count := Int.not_lt.mp hkept
    rw [remainder_of_put hput]
    by_cases hpassed : b.passed = 0
    · simp only [if_pos hpassed]
      -- A deletion is told with an empty insertion, whatever stands in its span.
      by_cases hpos : 0 < b.count
      · rw [if_pos hpos]
        exact ⟨hb.proper, Or.inr rfl⟩
      · have hzero : b.count.toNat = 0 := by omega
        have hproper := hb.proper
        rw [hzero] at hproper
        rw [if_neg hpos, hzero, content_empty, content_zero hproper]
        exact ⟨I.empty, Or.inr rfl⟩
    · simp only [if_neg hpassed]
      exact ⟨I.empty, Or.inr content_empty⟩

/-- The next characters of a replaced run are cut out of its insertion. -/
theorem First.extract (ha : I.First a) (hput : 0 ≤ a.count) (hlen : len ≤ a.newLength) :
    I.Proper (Insertion.extract a.text a.passed (a.passed + len)) len
      ∧ I.content (Insertion.extract a.text a.passed (a.passed + len)) len
        = ((I.content a.text (a.passed + a.count.toNat)).drop a.passed).take len := by
  rw [Rest.newLength_of_put hput] at hlen
  have hextract := I.extract a.text _ a.passed (a.passed + len) (ha.proper hput)
    (Nat.le_add_right _ _) (Nat.add_le_add_left hlen _)
  rwa [Nat.add_sub_cancel_left] at hextract

/-- The span of a meeting can be put behind others. -/
theorem fit_meet (ha : I.First a) (hb : I.Second b) (hlen : len ≤ a.newLength) :
    I.Fit (Change.meet len a b) := by
  have hfit := hb.fit
  by_cases hkept : a.count < 0
  · rw [meet_of_kept (ha.eq_keptMark hkept)]
    exact ⟨(hfit len).mark, hb.text_remainder.1⟩
  · have hput : 0 ≤ a.count := Int.not_lt.mp hkept
    by_cases hbkept : b.count < 0
    · obtain ⟨hproper, -⟩ := ha.extract hput hlen
      rw [meet_of_put_kept hput (hb.eq_keptMark hbkept),
        signedWord_of_lt (Nat.lt_of_le_of_lt hlen ha.small)]
      exact ⟨Span.keptMark_le (Int.natCast_nonneg len), hproper⟩
    · rw [meet_of_put_put hput (Int.not_lt.mp hbkept)]
      exact hfit _

/-- The span of a meeting does what the second change does to what the first one makes. -/
theorem step_meet (ha : I.First a) (hb : I.Second b) (hlen : len ≤ a.newLength) (doc : List β) :
    I.step (Change.meet len a b) doc = I.back len b (I.front len a doc) := by
  rw [front]
  by_cases hkept : a.count < 0
  · rw [if_pos hkept, meet_of_kept (ha.eq_keptMark hkept)]
    by_cases hbkept : b.count < 0
    · have hmark := hb.eq_keptMark hbkept
      have hremainder : b.remainder < 0 := by
        rw [remainder_of_kept hmark]
        decide
      rw [back_kept hmark, List.take_take, Nat.min_self]
      exact step_kept hremainder doc
    · have hbput : 0 ≤ b.count := Int.not_lt.mp hbkept
      have hremainder : 0 ≤ b.remainder := remainder_nonneg hbput
      obtain ⟨-, hneg | hcontent⟩ := hb.text_remainder
      · exact absurd hremainder (Int.not_le.mpr hneg)
      · rw [back_put hbput, ← hcontent]
        exact step_put hremainder doc
  · have hput : 0 ≤ a.count := Int.not_lt.mp hkept
    rw [if_neg hkept]
    by_cases hbkept : b.count < 0
    · obtain ⟨-, hcontent⟩ := ha.extract hput hlen
      rw [meet_of_put_kept hput (hb.eq_keptMark hbkept),
        signedWord_of_lt (Nat.lt_of_le_of_lt hlen ha.small), back_kept (hb.eq_keptMark hbkept),
        List.take_take, Nat.min_self, ← hcontent]
      exact step_put (show (0 : Int) ≤ len from Int.natCast_nonneg len) doc
    · have hbput : 0 ≤ b.count := Int.not_lt.mp hbkept
      rw [meet_of_put_put hput hbput, back, step, step]
      have hremainder : ¬ b.remainder < 0 := Int.not_lt.mpr (remainder_nonneg hbput)
      simp [Span.isKept, hremainder]

/-- A meeting takes the same characters off both changes. -/
theorem run_meet {as bs : List (Rest α)} (ha : I.First a) (hb : I.Second b) (hpos : 0 < len)
    (hlen : len ≤ a.newLength) (hlen' : len ≤ b.length) {doc : List β}
    (hdoc : a.first.length ≤ doc.length) :
    I.run ((b :: bs).map Rest.second) (I.run ((a :: as).map Rest.first) doc)
      = I.step (Change.meet len a b) doc
        ++ I.run ((Rest.forward len (b :: bs)).map Rest.second)
            (I.run ((Rest.forwardNew len (a :: as)).map Rest.first)
              (doc.drop (Change.meet len a b).length)) := by
  rw [run_forwardNew ha hpos hlen, run_forward hb hpos hlen' (length_front ha hlen hdoc),
    step_meet ha hb hlen, Change.length_meet ha.marked]

end Meet

section Moves

variable {len : Nat} {a b : Rest α} {as bs : List (Rest α)}

/-- Taking characters of the second document off the first change leaves parts of sound spans. -/
theorem First.forwardNew (ha : I.First a) (has : ∀ r ∈ as, I.First r) (hlen : len ≤ a.newLength) :
    ∀ r ∈ Rest.forwardNew len (a :: as), I.First r := by
  rw [Rest.forwardNew]
  by_cases hkept : a.count < 0
  · rw [Rest.newLength_of_kept hkept] at hlen
    rw [if_pos (ha.eq_keptMark hkept), Rest.forward]
    split
    · exact has
    · exact List.forall_mem_cons.mpr ⟨ha.rest_kept hkept (by omega), has⟩
  · have hput : 0 ≤ a.count := Int.not_lt.mp hkept
    have hword := signedWord_of_lt (Nat.lt_of_le_of_lt hlen ha.small)
    rw [Rest.newLength_of_put hput] at hlen
    rw [if_neg (count_ne_keptMark hput), hword]
    split
    · exact has
    · exact List.forall_mem_cons.mpr ⟨ha.rest_put (by omega), has⟩

/-- So does taking characters of the first document off the second one. -/
theorem Second.forward (hb : I.Second b) (hbs : ∀ r ∈ bs, I.Second r) (hlen : len ≤ b.length) :
    ∀ r ∈ Rest.forward len (b :: bs), I.Second r := by
  rw [Rest.forward]
  split
  · exact hbs
  · exact List.forall_mem_cons.mpr ⟨hb.rest (by omega), hbs⟩

/-- Where one of the runs that meet is replaced, so is the run of the meeting. -/
theorem count_meet (ha : I.First a) (hb : I.Second b) (hlen : len ≤ a.newLength)
    (hput : 0 ≤ a.count ∨ 0 ≤ b.count) : 0 ≤ (Change.meet len a b).count := by
  by_cases hkept : a.count < 0
  · rw [meet_of_kept (ha.eq_keptMark hkept)]
    exact remainder_nonneg (by omega)
  · have haput : 0 ≤ a.count := Int.not_lt.mp hkept
    by_cases hbkept : b.count < 0
    · rw [meet_of_put_kept haput (hb.eq_keptMark hbkept),
        signedWord_of_lt (Nat.lt_of_le_of_lt hlen ha.small)]
      exact Int.natCast_nonneg len
    · rw [meet_of_put_put haput (Int.not_lt.mp hbkept)]
      exact remainder_nonneg (Int.not_lt.mp hbkept)

end Moves

end Reading

end TextRevision
