import TextRevision.Change.Compose
import TextRevision.Proofs.Change.Writing

/-!
# The moves of composition

The walk that puts one change behind another makes four kinds of moves. Which of them comes next
rests on lengths and counts alone, and so does that the walk comes to its end: where every mark is
that of a kept run and every insertion is held by a signed word, it does, however long the kept runs
are. What is true of the spans found is then shown move by move.

## Main definitions

- `Rest.MarkedFirst`, `Rest.MarkedSecond`: what is left of a marked span of either change
- `Change.Moves`: the moves of the walk

## Main statements

- `Change.exists_moves`, `Change.andThen_moves`
- `Change.andThen_marked`: what results has marked spans and the length of the first change
-/

namespace TextRevision

variable {α β : Type}

section Rests

variable [Insertion α]

/-- What is left of a span of the first change. The characters that it removes go with the first
ones that it inserts. -/
def Rest.first (a : Rest α) : Span α :=
  ⟨if 0 ≤ a.count ∧ 0 < a.passed then 0 else a.length, a.count,
    Insertion.extract a.text a.passed (a.passed + a.count.toNat)⟩

omit [Insertion α] in
theorem Rest.newLength_of_kept {r : Rest α} (h : r.count < 0) : r.newLength = r.length :=
  if_pos h

omit [Insertion α] in
theorem Rest.newLength_of_put {r : Rest α} (h : 0 ≤ r.count) : r.newLength = r.count.toNat :=
  if_neg (Int.not_lt.mpr h)

theorem Rest.length_first_kept {a : Rest α} (h : a.count < 0) : a.first.length = a.length :=
  if_neg fun hput => Int.not_le.mpr h hput.1

/-- The characters that a replaced run removes go with the first ones that it inserts. -/
theorem Rest.length_first_passed {a : Rest α} (h : 0 ≤ a.count) (hpassed : 0 < a.passed) :
    a.first.length = 0 :=
  if_pos ⟨h, hpassed⟩

namespace Reading

omit [Insertion α] in
@[simp] theorem total_nil : Rest.total ([] : List (Rest α)) = 0 :=
  rfl

omit [Insertion α] in
@[simp] theorem total_cons (r : Rest α) (rs : List (Rest α)) :
    Rest.total (r :: rs) = r.length + Rest.total rs :=
  sumBy_cons ..

omit [Insertion α] in
theorem remainder_of_kept {b : Rest α} (h : b.count = Span.keptMark) :
    b.remainder = Span.keptMark :=
  if_pos h

omit [Insertion α] in
theorem remainder_of_put {b : Rest α} (h : 0 ≤ b.count) :
    b.remainder = if b.passed = 0 then b.count else 0 := by
  rw [Rest.remainder, if_neg]
  simp only [Span.keptMark]
  omega

omit [Insertion α] in
theorem remainder_nonneg {b : Rest α} (h : 0 ≤ b.count) : 0 ≤ b.remainder := by
  rw [remainder_of_put h]
  split
  · exact h
  · exact Int.le_refl _

omit [Insertion α] in
theorem remainder_passed {b : Rest α} (h : 0 < b.passed) :
    b.remainder = if b.count = Span.keptMark then Span.keptMark else 0 := by
  rw [Rest.remainder, if_neg (Nat.ne_of_gt h)]

/-- The number of characters of the first document that go with the first `len` of the second one
that a span of the first change makes. -/
def taken (len : Nat) (a : Rest α) : Nat :=
  if a.count < 0 then len else a.first.length

omit [Insertion α] in
theorem count_ne_keptMark {a : Rest α} (h : 0 ≤ a.count) : a.count ≠ Span.keptMark := by
  simp only [Span.keptMark]
  omega

omit [Insertion α] in
theorem newLength_deletion {a : Rest α} (hzero : a.count = 0) : a.newLength = 0 := by
  rw [Rest.newLength_of_put (Int.le_of_eq hzero.symm), hzero]
  rfl

section Meet

variable {len : Nat} {a b : Rest α}

theorem meet_of_kept (ha : a.count = Span.keptMark) :
    Change.meet len a b
      = ⟨len, b.remainder, if 0 < b.remainder then b.text else Insertion.empty⟩ :=
  if_pos ha

theorem meet_of_put_kept (ha : 0 ≤ a.count) (hb : b.count = Span.keptMark) :
    Change.meet len a b
      = ⟨if 0 < a.passed then 0 else a.length, signedWord len,
          Insertion.extract a.text a.passed (a.passed + len)⟩ := by
  rw [Change.meet, if_neg (count_ne_keptMark ha), if_pos hb]

theorem meet_of_put_put (ha : 0 ≤ a.count) (hb : 0 ≤ b.count) :
    Change.meet len a b
      = ⟨if 0 < a.passed then 0 else a.length, b.remainder,
          if b.passed = 0 then b.text else Insertion.empty⟩ := by
  rw [Change.meet, if_neg (count_ne_keptMark ha), if_neg (count_ne_keptMark hb)]

end Meet

omit [Insertion α] in
theorem newLength_ofSpan (s : Span α) : (Rest.ofSpan s).newLength = s.newLength := by
  by_cases hkept : s.count < 0
  · rw [Span.newLength_of_kept hkept]
    exact if_pos hkept
  · rw [Span.newLength_of_put (Int.not_lt.mp hkept)]
    exact if_neg hkept

/-- Nothing of a span was passed at the start of a walk. -/
theorem length_first_ofSpan (s : Span α) : (Rest.ofSpan s).first.length = s.length :=
  if_neg fun hpassed => Nat.lt_irrefl 0 hpassed.2

omit [Insertion α] in
theorem remainder_ofSpan (s : Span α) : (Rest.ofSpan s).remainder = s.count := by
  rw [Rest.remainder]
  split
  · next hkept => exact hkept.symm
  · rfl

omit [Insertion α] in
theorem sumBy_remainder (ss : List (Span α)) :
    sumBy (fun b => b.remainder.toNat) (ss.map Rest.ofSpan) = sumBy Span.volume ss := by
  rw [sumBy_map]
  apply sumBy_congr
  intro s _
  rw [remainder_ofSpan]
  rfl

theorem sumBy_length_first (ss : List (Span α)) :
    sumBy (fun a => a.first.length) (ss.map Rest.ofSpan) = sumBy Span.length ss := by
  rw [sumBy_map]
  exact sumBy_congr _ fun s _ => length_first_ofSpan s

end Reading

end Rests

/-- What is left of a marked span. -/
structure Rest.Marked (r : Rest α) : Prop where
  mark : Span.keptMark ≤ r.count
  kept : r.count < 0 → 0 < r.length

/-- What is left of a marked span of the first change, whose insertion a signed word holds. -/
structure Rest.MarkedFirst (a : Rest α) : Prop extends a.Marked where
  left : 0 ≤ a.count → 0 < a.passed → 0 < a.count
  small : a.count < signBound

/-- What is left of a marked span of the second change. -/
structure Rest.MarkedSecond (b : Rest α) : Prop extends b.Marked where
  left : 0 < b.passed → 0 < b.length

theorem Span.Marked.rest {s : Span α} (h : s.Marked) : (Rest.ofSpan s).Marked where
  mark := h.mark
  kept hkept := by
    have hkept : s.count < 0 := hkept
    rcases Span.isVoid_eq_false_iff.mp h.not_void with hlength | hcount
    · exact hlength
    · omega

theorem Span.Marked.first {s : Span α} (h : s.Marked) (hsmall : s.count < signBound) :
    (Rest.ofSpan s).MarkedFirst :=
  ⟨h.rest, fun _ hopen => absurd hopen (Nat.lt_irrefl 0), hsmall⟩

theorem Span.Marked.second {s : Span α} (h : s.Marked) : (Rest.ofSpan s).MarkedSecond :=
  ⟨h.rest, fun hopen => absurd hopen (Nat.lt_irrefl 0)⟩

namespace Rest

variable {r : Rest α} {rs : List (Rest α)} {len : Nat}

theorem Marked.eq_keptMark (h : r.Marked) (hkept : r.count < 0) : r.count = Span.keptMark := by
  have := h.mark
  simp only [Span.keptMark] at this ⊢
  omega

theorem Marked.ne_endMark (h : r.Marked) : r.count ≠ Span.endMark := by
  have := h.mark
  simp only [Span.keptMark, Span.endMark] at this ⊢
  omega

/-- What is left of a run makes characters, unless it is a deletion. -/
theorem Marked.newLength_pos (h : r.Marked) (hcount : r.count ≠ 0) : 0 < r.newLength := by
  rw [newLength]
  split
  · next hkept => exact h.kept hkept
  · omega

/-- Taking characters of the old document off a run leaves a marked one. -/
theorem MarkedSecond.forward (h : r.MarkedSecond) (hrs : ∀ t ∈ rs, t.MarkedSecond)
    (hlen : len ≤ r.length) : ∀ t ∈ Rest.forward len (r :: rs), t.MarkedSecond := by
  rw [Rest.forward]
  split
  · exact hrs
  · have hpos : 0 < r.length - len := Nat.sub_pos_of_lt (by omega)
    exact List.forall_mem_cons.mpr ⟨⟨⟨h.mark, fun _ => hpos⟩, fun _ => hpos⟩, hrs⟩

/-- Nothing of an insertion was passed. -/
theorem MarkedSecond.remainder_eq (h : r.MarkedSecond) (hzero : r.length = 0) :
    r.remainder = r.count := by
  have hpassed : r.passed = 0 := by
    by_contra hopen
    have := h.left (Nat.pos_of_ne_zero hopen)
    omega
  rw [remainder, if_pos hpassed]
  split
  · next hkept => exact hkept.symm
  · rfl

/-- The insertion of a run goes with the first characters that are taken off it. -/
theorem remainder_forward (r : Rest α) (rs : List (Rest α)) (hpos : 0 < len) :
    sumBy (fun b => b.remainder.toNat) (Rest.forward len (r :: rs)) + r.remainder.toNat
      = sumBy (fun b => b.remainder.toNat) (r :: rs) := by
  rw [Rest.forward, sumBy_cons]
  split
  · exact Nat.add_comm _ _
  · have hzero :
        (Rest.mk (r.length - len) r.count r.text (r.passed + len)).remainder.toNat = 0 := by
      rw [Reading.remainder_passed (show 0 < r.passed + len by omega)]
      split <;> rfl
    rw [sumBy_cons, hzero, Nat.zero_add, Nat.add_comm]

variable [Insertion α]

/-- Taking characters of the new document off a change leaves runs of the same kind. They make as
many characters less, and what they remove goes with the first of these. -/
theorem MarkedFirst.forwardNew (h : r.MarkedFirst) (hrs : ∀ t ∈ rs, t.MarkedFirst) (hpos : 0 < len)
    (hlen : len ≤ r.newLength) :
    (∀ t ∈ Rest.forwardNew len (r :: rs), t.MarkedFirst)
      ∧ sumBy newLength (Rest.forwardNew len (r :: rs)) + len = sumBy newLength (r :: rs)
      ∧ sumBy (fun a => a.first.length) (Rest.forwardNew len (r :: rs)) + Reading.taken len r
        = sumBy (fun a => a.first.length) (r :: rs)
      ∧ sumBy (fun a => a.count.toNat) (Rest.forwardNew len (r :: rs))
          + (if r.count < 0 then 0 else len)
        = sumBy (fun a => a.count.toNat) (r :: rs) := by
  rw [Rest.forwardNew, Reading.taken]
  simp only [sumBy_cons]
  by_cases hkept : r.count < 0
  · rw [newLength_of_kept hkept] at hlen ⊢
    rw [if_pos (h.eq_keptMark hkept), if_pos hkept, if_pos hkept, length_first_kept hkept,
      Rest.forward]
    by_cases hall : len = r.length
    · rw [if_pos hall]
      exact ⟨hrs, by omega, by omega, by omega⟩
    · have hrest : (Rest.mk (r.length - len) r.count r.text (r.passed + len)).count < 0 := hkept
      rw [if_neg hall, sumBy_cons, sumBy_cons, sumBy_cons, length_first_kept hrest,
        newLength_of_kept hrest]
      dsimp only
      refine ⟨List.forall_mem_cons.mpr ⟨⟨⟨h.mark, fun _ => ?_⟩, fun hput => ?_, h.small⟩, hrs⟩,
        by omega, by omega, by omega⟩
      · dsimp only
        omega
      · exact absurd hkept (Int.not_lt.mpr hput)
  · have hput : 0 ≤ r.count := Int.not_lt.mp hkept
    have hsmall := h.small
    rw [newLength_of_put hput] at hlen ⊢
    have hword : signedWord len = len := signedWord_of_lt (by omega)
    rw [if_neg (Reading.count_ne_keptMark hput), if_neg hkept, if_neg hkept, hword]
    by_cases hall : r.count = len
    · rw [if_pos hall]
      exact ⟨hrs, by omega, by omega, by omega⟩
    · have hcount : 0 ≤ (Rest.mk r.length (r.count - len) r.text (r.passed + len)).count := by
        dsimp only
        omega
      rw [if_neg hall, sumBy_cons, sumBy_cons, sumBy_cons, newLength_of_put hcount,
        length_first_passed hcount (Nat.add_pos_right _ hpos)]
      dsimp only
      refine ⟨List.forall_mem_cons.mpr ⟨⟨⟨Span.keptMark_le hcount, fun hneg => ?_⟩,
        fun _ _ => ?_, ?_⟩, hrs⟩, by omega, by omega, by omega⟩
      · exact absurd hcount (Int.not_le.mpr hneg)
      · dsimp only
        omega
      · dsimp only
        omega

end Rest

namespace Change

variable [Insertion α]

/-- The moves of the walk from what is left of two changes and the spans found so far to all the
spans that it finds. A deletion of the first change and an insertion of the second go through;
otherwise the two meet in as many characters as both have left. -/
inductive Moves : List (Rest α) → List (Rest α) → (joined : Bool) → (spans : List (Span α)) →
    (out : List (Span α)) → Prop
  | done {joined : Bool} {spans : List (Span α)} : Moves [] [] joined spans spans.reverse
  | deletion {a : Rest α} {as bs : List (Rest α)} {joined : Bool} {spans out : List (Span α)} :
    a.count = 0 →
    Moves as bs joined (Span.push joined spans ⟨a.length, 0, Insertion.empty⟩) out →
    Moves (a :: as) bs joined spans out
  | insertion {as : List (Rest α)} {b : Rest α} {bs : List (Rest α)} {joined : Bool}
    {spans out : List (Span α)} :
    (∀ a ∈ as.head?, a.count ≠ 0) → b.length = 0 →
    Moves as bs joined (Span.push joined spans ⟨0, b.count, b.text⟩) out →
    Moves as (b :: bs) joined spans out
  | meeting {a : Rest α} {as : List (Rest α)} {b : Rest α} {bs : List (Rest α)} {joined : Bool}
    {spans out : List (Span α)} {len : Nat} :
    a.count ≠ 0 → 0 < b.length → len = min a.newLength b.length → 0 < len →
    Moves (Rest.forwardNew len (a :: as)) (Rest.forward len (b :: bs))
      (staysOpen len a b
        && (joined || spans.length < (Span.push joined spans (meet len a b)).length))
      (Span.push joined spans (meet len a b)) out →
    Moves (a :: as) (b :: bs) joined spans out

/-- The walk over changes that meet in one document makes moves to its end. -/
theorem exists_moves (as bs : List (Rest α)) (joined : Bool) (spans : List (Span α))
    (ha : ∀ a ∈ as, a.MarkedFirst) (hb : ∀ b ∈ bs, b.MarkedSecond)
    (hfits : sumBy Rest.newLength as = Rest.total bs) :
    ∃ out, composeSpans as bs joined spans = .finished out ∧ Moves as bs joined spans out := by
  -- That a mark ends the walk, that the changes do not fit or that nothing moves does not come up.
  fun_induction composeSpans as bs joined spans with
  | case1 joined spans => exact ⟨_, rfl, .done⟩
  | case2 b bs joined spans hmark => exact absurd hmark (hb b (by simp)).ne_endMark
  | case3 b bs joined spans _ hzero ih =>
    rw [Reading.total_cons, hzero, Nat.zero_add] at hfits
    obtain ⟨out, hout, hmoves⟩ := ih ha (fun t ht => hb t (List.mem_cons_of_mem _ ht)) hfits
    exact ⟨out, hout, .insertion (by simp) hzero hmoves⟩
  | case4 b bs joined spans _ hpos =>
    rw [sumBy_nil, Reading.total_cons] at hfits
    omega
  | case5 a as joined spans hzero ih =>
    rw [sumBy_cons, Reading.newLength_deletion hzero, Nat.zero_add] at hfits
    obtain ⟨out, hout, hmoves⟩ := ih (fun t ht => ha t (List.mem_cons_of_mem _ ht)) hb hfits
    exact ⟨out, hout, .deletion hzero hmoves⟩
  | case6 a as joined spans _ hmark => exact absurd hmark (ha a (by simp)).ne_endMark
  | case7 a as joined spans hcount _ =>
    have hnew := (ha a (by simp)).newLength_pos hcount
    rw [sumBy_cons, Reading.total_nil] at hfits
    omega
  | case8 a as b bs joined spans hzero ih =>
    rw [sumBy_cons, Reading.newLength_deletion hzero, Nat.zero_add] at hfits
    obtain ⟨out, hout, hmoves⟩ := ih (fun t ht => ha t (List.mem_cons_of_mem _ ht)) hb hfits
    exact ⟨out, hout, .deletion hzero hmoves⟩
  | case9 a as b bs joined spans hcount hzero ih =>
    rw [Reading.total_cons, hzero.1, Nat.zero_add] at hfits
    obtain ⟨out, hout, hmoves⟩ := ih ha (fun t ht => hb t (List.mem_cons_of_mem _ ht)) hfits
    exact ⟨out, hout, .insertion (fun t ht => Option.some.inj ht ▸ hcount) hzero.1 hmoves⟩
  | case10 a as b bs joined spans _ _ hmark =>
    exact absurd hmark.1 (ha a (by simp)).ne_endMark
  | case11 a as b bs joined spans _ _ _ hmark =>
    exact absurd hmark
      (not_or.mpr ⟨(ha a (by simp)).ne_endMark, (hb b (by simp)).ne_endMark⟩)
  | case12 a as b bs joined spans hcount hlength _ hmark len hstall =>
    have hnew := (ha a (by simp)).newLength_pos hcount
    have hlength' : b.length ≠ 0 := fun h => hlength ⟨h, (hb b (by simp)).ne_endMark⟩
    omega
  | case13 a as b bs joined spans hcount hlength _ hmark len hstall spans' ih =>
    obtain ⟨hahead, has⟩ := List.forall_mem_cons.mp ha
    obtain ⟨hbhead, hbs⟩ := List.forall_mem_cons.mp hb
    have hnew := hahead.newLength_pos hcount
    have hlength' : b.length ≠ 0 := fun h => hlength ⟨h, hbhead.ne_endMark⟩
    have hpos : 0 < len := by omega
    have hlen' : len ≤ b.length := Nat.min_le_right _ _
    obtain ⟨has', hasNew, -⟩ := hahead.forwardNew has hpos (Nat.min_le_left _ _)
    have hbsTotal := Rest.total_forward bs hlen'
    obtain ⟨out, hout, hmoves⟩ := ih has' (hbhead.forward hbs hlen') (by omega)
    exact ⟨out, hout, .meeting hcount (Nat.pos_of_ne_zero hlength') rfl hpos hmoves⟩

section Meeting

variable {a b : Rest α} {len : Nat}

/-- The span of a meeting has the count of an insertion or the mark of a kept run. -/
theorem keptMark_le_meet (ha : a.MarkedFirst) (hb : b.MarkedSecond) (hlen : len ≤ a.newLength) :
    Span.keptMark ≤ (meet len a b).count := by
  have hremainder := Rest.keptMark_le_remainder hb.mark
  by_cases hkept : a.count < 0
  · rw [Reading.meet_of_kept (ha.eq_keptMark hkept)]
    exact hremainder
  · have hput : 0 ≤ a.count := Int.not_lt.mp hkept
    have hsmall := ha.small
    rw [Rest.newLength_of_put hput] at hlen
    by_cases hbkept : b.count < 0
    · rw [Reading.meet_of_put_kept hput (hb.eq_keptMark hbkept), signedWord_of_lt (by omega)]
      exact Span.keptMark_le (Int.natCast_nonneg len)
    · rw [Reading.meet_of_put_put hput (Int.not_lt.mp hbkept)]
      exact hremainder

theorem length_meet (ha : a.MarkedFirst) : (meet len a b).length = Reading.taken len a := by
  rw [Reading.taken]
  by_cases hkept : a.count < 0
  · rw [Reading.meet_of_kept (ha.eq_keptMark hkept), if_pos hkept]
  · have hput : 0 ≤ a.count := Int.not_lt.mp hkept
    rw [if_neg hkept, meet, if_neg (Reading.count_ne_keptMark hput), Rest.first]
    simp only [hput, true_and]
    split <;> rfl

/-- A meeting inserts no more than what is taken off the insertions of both changes. -/
theorem volume_meet_le (ha : a.MarkedFirst) (hb : b.MarkedSecond) (hlen : len ≤ a.newLength) :
    (meet len a b).volume ≤ (if a.count < 0 then 0 else len) + b.remainder.toNat := by
  by_cases hkept : a.count < 0
  · rw [Reading.meet_of_kept (ha.eq_keptMark hkept), if_pos hkept]
    exact Nat.le_add_left _ _
  · have hput : 0 ≤ a.count := Int.not_lt.mp hkept
    have hsmall := ha.small
    rw [Rest.newLength_of_put hput] at hlen
    rw [if_neg hkept]
    by_cases hbkept : b.count < 0
    · rw [Reading.meet_of_put_kept hput (hb.eq_keptMark hbkept), signedWord_of_lt (by omega)]
      exact Nat.le_add_right _ _
    · rw [Reading.meet_of_put_put hput (Int.not_lt.mp hbkept)]
      exact Nat.le_add_left _ _

end Meeting

/-- What the moves of a walk come to, as far as marks and lengths go. -/
structure Walked (as bs : List (Rest α)) (spans out : List (Span α)) : Prop where
  marked : ∀ s ∈ out, s.Marked
  length : sumBy Span.length out
    = sumBy Span.length spans + sumBy (fun a => a.first.length) as
  volume : sumBy Span.volume out ≤ sumBy Span.volume spans
    + (sumBy (fun a => a.count.toNat) as + sumBy (fun b => b.remainder.toNat) bs)

/-- A span of marked changes is put behind the others, and less is left of the changes. -/
theorem Walked.move {as bs as' bs' : List (Rest α)} {joined : Bool} {spans out : List (Span α)}
    {s : Span α} (h : Walked as' bs' (Span.push joined spans s) out)
    (hlength : sumBy (fun a => a.first.length) as
      = s.length + sumBy (fun a => a.first.length) as')
    (hvolume : s.volume + (sumBy (fun a => a.count.toNat) as'
        + sumBy (fun b => b.remainder.toNat) bs')
      ≤ sumBy (fun a => a.count.toNat) as + sumBy (fun b => b.remainder.toNat) bs) :
    Walked as bs spans out where
  marked := h.marked
  length := by
    rw [h.length, (Span.pushing joined spans s).length_eq, hlength]
    omega
  volume := by
    have hpushed := (Span.pushing joined spans s).volume_le
    have hrest := h.volume
    omega

theorem Moves.walked {as bs : List (Rest α)} {joined : Bool} {spans out : List (Span α)}
    (h : Moves as bs joined spans out) (ha : ∀ a ∈ as, a.MarkedFirst)
    (hb : ∀ b ∈ bs, b.MarkedSecond)
    (hspans : ∀ s ∈ spans, s.Marked) : Walked as bs spans out := by
  induction h with
  | done =>
    refine ⟨fun s hs => hspans s (List.mem_reverse.mp hs), ?_, ?_⟩
    · rw [sumBy_reverse, sumBy_nil, Nat.add_zero]
    · rw [sumBy_reverse]
      exact Nat.le_add_right _ _
  | @deletion a as bs joined spans out hzero _ ih =>
    obtain ⟨hahead, has⟩ := List.forall_mem_cons.mp ha
    have hpassed : ¬ 0 < a.passed := fun hopen => by
      have := hahead.left (by omega) hopen
      omega
    have hlength : a.first.length = a.length := if_neg fun h => hpassed h.2
    refine (ih has hb ((Span.pushing _ _ _).marked hspans
      (show Span.keptMark ≤ 0 by decide))).move ?_ ?_
    · rw [sumBy_cons, hlength]
    · rw [sumBy_cons, hzero]
      simp only [Span.volume]
      omega
  | @insertion as b bs joined spans out _ hzero _ ih =>
    obtain ⟨hbhead, hbs⟩ := List.forall_mem_cons.mp hb
    refine (ih ha hbs ((Span.pushing _ _ _).marked hspans hbhead.mark)).move
      (Nat.zero_add _).symm ?_
    rw [sumBy_cons, hbhead.remainder_eq hzero]
    simp only [Span.volume]
    omega
  | @meeting a as b bs joined spans out len hcount hlength hlen hpos _ ih =>
    obtain ⟨hahead, has⟩ := List.forall_mem_cons.mp ha
    obtain ⟨hbhead, hbs⟩ := List.forall_mem_cons.mp hb
    have hlenA : len ≤ a.newLength := hlen ▸ Nat.min_le_left _ _
    have hlenB : len ≤ b.length := hlen ▸ Nat.min_le_right _ _
    obtain ⟨has', -, hasOld, hasVolume⟩ := hahead.forwardNew has hpos hlenA
    have hbsVolume := Rest.remainder_forward b bs hpos
    have hvolume := volume_meet_le hahead hbhead hlenA
    refine (ih has' (hbhead.forward hbs hlenB)
      ((Span.pushing _ _ _).marked hspans (keptMark_le_meet hahead hbhead hlenA))).move ?_ ?_
    · rw [length_meet hahead]
      omega
    · omega

section AndThen

variable {c d : Change α}

omit [Insertion α] in
/-- A change that keeps the whole document has no span or one kept run. -/
theorem spans_of_isEmpty (h : c.isEmpty = true) :
    c.spans = [] ∨ ∃ s, c.spans = [s] ∧ s.count < 0 := by
  rw [Change.isEmpty] at h
  split at h
  · next hspans => exact Or.inl hspans
  · next s hspans => exact Or.inr ⟨s, hspans, by simpa [Span.isKept] using h⟩
  · cases h

omit [Insertion α] in
theorem newLength_of_isEmpty (h : c.isEmpty = true) : c.newLength = c.length := by
  rw [Change.newLength, Change.length]
  obtain hspans | ⟨s, hspans, hkept⟩ := spans_of_isEmpty h
  · rw [hspans]
    rfl
  · rw [hspans, sumBy_cons, sumBy_cons, Span.newLength_of_kept hkept]
    rfl

omit [Insertion α] in
theorem sumBy_newLength_ofSpan (spans : List (Span α)) :
    sumBy Rest.newLength (spans.map Rest.ofSpan) = sumBy Span.newLength spans := by
  rw [sumBy_map]
  exact sumBy_congr _ fun s _ => Reading.newLength_ofSpan s

omit [Insertion α] in
theorem markedFirst_of_mem (hc : ∀ s ∈ c.spans, s.Marked)
    (hsmall : ∀ s ∈ c.spans, s.count < signBound) :
    ∀ a ∈ c.spans.map Rest.ofSpan, a.MarkedFirst := by
  intro a ha
  obtain ⟨s, hs, rfl⟩ := List.mem_map.mp ha
  exact (hc s hs).first (hsmall s hs)

omit [Insertion α] in
theorem markedSecond_of_mem (hd : ∀ s ∈ d.spans, s.Marked) :
    ∀ b ∈ d.spans.map Rest.ofSpan, b.MarkedSecond := by
  intro b hb
  obtain ⟨s, hs, rfl⟩ := List.mem_map.mp hb
  exact (hd s hs).second

omit [Insertion α] in
/-- The lengths that the walk compares are those of the document between two changes. -/
theorem rests_fit_iff : sumBy Rest.newLength (c.spans.map Rest.ofSpan)
    = Rest.total (d.spans.map Rest.ofSpan) ↔ c.newLength = d.length := by
  rw [sumBy_newLength_ofSpan, Rest.total, sumBy_map]
  exact Iff.rfl

/-- Of two changes that meet in one document, one that keeps everything is left out; otherwise what
results is found by moves. -/
theorem andThen_moves (hc : ∀ s ∈ c.spans, s.Marked) (hd : ∀ s ∈ d.spans, s.Marked)
    (hsmall : ∀ s ∈ c.spans, s.count < signBound) (hfits : c.newLength = d.length) :
    (c.isEmpty = true ∧ c.andThen d = .ok d) ∨ (d.isEmpty = true ∧ c.andThen d = .ok c)
      ∨ ∃ out, c.andThen d = .ok ⟨out⟩
        ∧ Moves (c.spans.map Rest.ofSpan) (d.spans.map Rest.ofSpan) false [] out := by
  rw [andThen_eq, if_pos hfits]
  by_cases hcempty : c.isEmpty = true
  · exact Or.inl ⟨hcempty, if_pos hcempty⟩
  · rw [if_neg hcempty]
    by_cases hdempty : d.isEmpty = true
    · exact Or.inr (Or.inl ⟨hdempty, if_pos hdempty⟩)
    · obtain ⟨out, hout, hmoves⟩ := exists_moves _ _ false [] (markedFirst_of_mem hc hsmall)
        (markedSecond_of_mem hd) (rests_fit_iff.mpr hfits)
      exact Or.inr (Or.inr ⟨out, by rw [if_neg hdempty, hout], hmoves⟩)

/-- Two changes that meet in one document can be put behind each other, whatever they keep. What
results has marked spans and the length of the first, and inserts no more than both. -/
theorem andThen_marked (hc : ∀ s ∈ c.spans, s.Marked) (hd : ∀ s ∈ d.spans, s.Marked)
    (hsmall : ∀ s ∈ c.spans, s.count < signBound) (hfits : c.newLength = d.length) :
    ∃ e, c.andThen d = .ok e ∧ (∀ s ∈ e.spans, s.Marked) ∧ e.length = c.length
      ∧ e.volume ≤ c.volume + d.volume := by
  obtain ⟨hempty, he⟩ | ⟨-, he⟩ | ⟨out, he, hmoves⟩ := andThen_moves hc hd hsmall hfits
  · rw [newLength_of_isEmpty hempty] at hfits
    exact ⟨d, he, hd, hfits.symm, Nat.le_add_left _ _⟩
  · exact ⟨c, he, hc, rfl, Nat.le_add_right _ _⟩
  · have hwalked := hmoves.walked (markedFirst_of_mem hc hsmall) (markedSecond_of_mem hd) (by simp)
    have hlength := hwalked.length
    have hvolume := hwalked.volume
    rw [sumBy_nil, Nat.zero_add, Reading.sumBy_length_first] at hlength
    rw [sumBy_nil, Nat.zero_add, sumBy_map, Reading.sumBy_remainder] at hvolume
    exact ⟨⟨out⟩, he, hwalked.marked, hlength, hvolume⟩

end AndThen

end Change

end TextRevision
