import TextRevision.Change.Rebase
import TextRevision.Proofs.Change.Moves

/-!
# The turns of rebasing

In the walk that rebases one change over another the two take turns. Whose turn it is, and how the
walk ends, rests on lengths and counts alone, where every mark is that of a kept run. What the walk
finds, the states that it goes through and what it comes to are then shown turn by turn.

## Main definitions

- `Reading.Told`: which runs can have their insertion told before
- `Change.Turns`: the turns of the walk, and what it comes to

## Main statements

- `Change.turns_rebaseSpans`: the walk over marked spans takes turns
- `Change.exists_turns`, `Change.rebase_turns`: over changes of one length, they lead to a result
-/

namespace TextRevision

variable {α β : Type}

namespace Reading

variable {a : Rest α} {as : List (Rest α)} {told : Bool}

/-- Only a run with characters to come has its insertion told before. -/
def Told (told : Bool) (as : List (Rest α)) : Prop :=
  told = true → ∀ a ∈ as.head?, 0 ≤ a.count ∧ 0 < a.length

theorem Told.untold : Told false as :=
  fun h => by cases h

theorem Told.eq_false (h : Told told (a :: as)) (hkept : a.count < 0) : told = false := by
  cases told with
  | false => rfl
  | true =>
    have := (h rfl a rfl).1
    omega

theorem Told.eq_false_of_empty (h : Told told (a :: as)) (hzero : a.length = 0) : told = false := by
  cases told with
  | false => rfl
  | true =>
    have := (h rfl a rfl).2
    omega

/-- Of a run that is stopped some characters are left. -/
theorem forward_left (as : List (Rest α)) {left : Nat} (hpos : 0 < left) (hle : left ≤ a.length) :
    Rest.forward (a.length - left) (a :: as)
      = ⟨left, a.count, a.text, a.passed + (a.length - left)⟩ :: as := by
  rw [Rest.forward, if_neg (by omega), Nat.sub_sub_self hle]

theorem Told.forward_left (hput : 0 ≤ a.count) {left : Nat} (hpos : 0 < left)
    (hle : left ≤ a.length) : Told true (Rest.forward (a.length - left) (a :: as)) := by
  rw [Reading.forward_left as hpos hle]
  exact fun _ r hr => Option.some.inj hr ▸ ⟨hput, hpos⟩

end Reading

namespace Change

open TextRevision.Reading (Told total_nil total_cons)

section Absorbing

variable [Insertion α] {as as' : List (Rest α)} {told told' : Bool} {len : Nat}
  {spans spans' : List (Span α)}

/-- Characters that the other change removed are taken off the change. -/
theorem total_absorb (h : absorb as told len spans = some (as', told', spans')) :
    Rest.total as' + len = Rest.total as := by
  fun_induction absorb as told len spans with
  | case1 as told spans =>
    obtain ⟨rfl, -, -⟩ : as = as' ∧ told = told' ∧ spans = spans' := by simpa using h
    rfl
  | case2 => cases h
  | case3 a as told len spans hle ih =>
    have hrest := ih h
    rw [total_cons]
    omega
  | case4 a as told len spans hlt =>
    obtain ⟨rfl, -, -⟩ :
        Rest.forward (len + 1) (a :: as) = as' ∧ told = told' ∧ spans = spans' := by
      simpa using h
    exact Rest.total_forward as (Nat.le_of_not_le hlt)

/-- What is left behind them is marked, and only a run with characters to come is told. -/
theorem markedSecond_absorb (h : absorb as told len spans = some (as', told', spans'))
    (has : ∀ a ∈ as, a.MarkedSecond) (htold : Told told as) :
    (∀ a ∈ as', a.MarkedSecond) ∧ Told told' as' := by
  fun_induction absorb as told len spans with
  | case1 as told spans =>
    obtain ⟨rfl, rfl, -⟩ : as = as' ∧ told = told' ∧ spans = spans' := by simpa using h
    exact ⟨has, htold⟩
  | case2 => cases h
  | case3 a as told len spans hle ih =>
    exact ih h (fun r hr => has r (List.mem_cons_of_mem _ hr)) Told.untold
  | case4 a as told len spans hlt =>
    obtain ⟨hahead, has⟩ := List.forall_mem_cons.mp has
    obtain ⟨rfl, rfl, -⟩ :
        Rest.forward (len + 1) (a :: as) = as' ∧ told = told' ∧ spans = spans' := by
      simpa using h
    refine ⟨hahead.forward has (Nat.le_of_not_le hlt), ?_⟩
    rw [Rest.forward, if_neg (by omega)]
    rintro htrue r ⟨⟩
    exact ⟨(htold htrue a rfl).1, Nat.sub_pos_of_lt (Nat.not_le.mp hlt)⟩

/-- The characters that the other change removed are not all there exactly if the change has fewer
of them. -/
theorem absorb_eq_none_iff : absorb as told len spans = none ↔ Rest.total as < len := by
  fun_induction absorb as told len spans with
  | case1 => simp
  | case2 told len spans => simp [total_nil]
  | case3 a as told len spans hle ih =>
    rw [ih, total_cons]
    omega
  | case4 a as told len spans hlt =>
    have hmore : len + 1 ≤ Rest.total (a :: as) := by
      rw [total_cons]
      omega
    simp only [reduceCtorEq, false_iff]
    exact Nat.not_lt.mpr hmore

end Absorbing

section Passing

variable {b : Rest β}

theorem left_passKept_le (left : Nat) (bs : List (Rest β)) : (passKept left bs).left ≤ left := by
  fun_induction passKept left bs with
  | case1 left => exact Nat.le_refl _
  | case2 b bs => exact Nat.le_refl _
  | case3 left b bs hpos hkept hle later ih => exact ih.trans (Nat.sub_le _ _)
  | case4 left b bs hpos hkept hlt => exact Nat.zero_le _
  | case5 left b bs hpos hkept hdeletion ih => exact ih.trans (Nat.sub_le _ _)
  | case6 left b bs hpos hkept hdeletion => exact Nat.le_refl _

/-- A run of removed characters passes as many characters of the other change. -/
theorem total_passKept (left : Nat) (bs : List (Rest β)) :
    Rest.total (passKept left bs).spans + (left - (passKept left bs).left) = Rest.total bs := by
  fun_induction passKept left bs with
  | case1 left => rw [Nat.sub_self, Nat.add_zero]
  | case2 b bs => rw [Nat.sub_self, Nat.add_zero]
  | case3 left b bs hpos hkept hle later ih =>
    have hleft : later.left ≤ left - b.length := left_passKept_le _ _
    have hrest : Rest.total later.spans + (left - b.length - later.left) = Rest.total bs := ih
    rw [total_cons]
    dsimp only
    omega
  | case4 left b bs hpos hkept hlt => exact Rest.total_forward bs (Nat.le_of_not_le hlt)
  | case5 left b bs hpos hkept hdeletion ih =>
    have hleft := left_passKept_le (left - b.length) bs
    rw [total_cons]
    omega
  | case6 left b bs hpos hkept hdeletion => rw [Nat.sub_self, Nat.add_zero]

theorem markedSecond_passKept (left : Nat) (bs : List (Rest β)) (hbs : ∀ b ∈ bs, b.MarkedSecond) :
    ∀ b ∈ (passKept left bs).spans, b.MarkedSecond := by
  fun_induction passKept left bs with
  | case1 left => exact hbs
  | case2 b bs => exact hbs
  | case3 left b bs hpos hkept hle later ih => exact ih (List.forall_mem_cons.mp hbs).2
  | case4 left b bs hpos hkept hlt =>
    obtain ⟨hb, hbs⟩ := List.forall_mem_cons.mp hbs
    exact hb.forward hbs (Nat.le_of_not_le hlt)
  | case5 left b bs hpos hkept hdeletion ih => exact ih (List.forall_mem_cons.mp hbs).2
  | case6 left b bs hpos hkept hdeletion => exact hbs

/-- A kept run of the other change does not stop the removed characters. -/
theorem passKept_left_or_length (left : Nat) (bs : List (Rest β))
    (hkept : b.count = Span.keptMark) :
    (passKept left (b :: bs)).left = 0 ∨ (passKept left (b :: bs)).spans.length ≤ bs.length := by
  rw [passKept]
  by_cases hzero : left = 0
  · rw [if_pos hzero]
    exact Or.inl rfl
  · rw [if_neg hzero, if_pos hkept]
    split
    · exact Or.inr (length_passKept_le _ _)
    · exact Or.inl rfl

end Passing

variable [Insertion α]

/-- The turns of the walk from what is left of two changes and the spans found so far, and what it
comes to. -/
inductive Turns (before : Bool) : List (Rest α) → (told : Bool) → List (Rest β) →
    (spans : List (Span α)) → Walk (List (Span α)) → Prop
  | done {told : Bool} {spans : List (Span α)} :
    Turns before [] told [] spans (.finished spans.reverse)
  /-- The other change has characters left, and the change has none. -/
  | short {told : Bool} {b : Rest β} {bs : List (Rest β)} {spans : List (Span α)} :
    0 < b.length → Turns before [] told (b :: bs) spans .mismatch
  /-- The change has characters left, and the other one has none. -/
  | long {a : Rest α} {as : List (Rest α)} {told : Bool} {spans : List (Span α)} :
    0 < a.length → Turns before (a :: as) told [] spans .mismatch
  /-- The change has some of the characters that the other one removed, and not all. -/
  | stalls {a : Rest α} {as : List (Rest α)} {told : Bool} {b : Rest β} {bs : List (Rest β)}
    {spans : List (Span α)} :
    0 < a.length → 0 ≤ b.count → yieldsTo before b.length told a = true →
    absorb (a :: as) told b.length (Span.push false spans (.keep b.count.toNat)) = none →
    Turns before (a :: as) told (b :: bs) spans .stalled
  /-- An insertion of the other change at the end of the document. -/
  | keepLast {told : Bool} {b : Rest β} {bs : List (Rest β)} {spans : List (Span α)}
    {walk : Walk (List (Span α))} :
    b.length = 0 → 0 ≤ b.count →
    Turns before [] told bs (Span.push false spans (.keep b.count.toNat)) walk →
    Turns before [] told (b :: bs) spans walk
  /-- An insertion of the change at the end of the document. -/
  | putLast {a : Rest α} {as : List (Rest α)} {spans : List (Span α)}
    {walk : Walk (List (Span α))} :
    a.length = 0 → 0 ≤ a.count →
    Turns before as false [] (Span.push false spans ⟨0, a.count, a.text⟩) walk →
    Turns before (a :: as) false [] spans walk
  /-- Both changes keep the next characters. -/
  | keep {a : Rest α} {as : List (Rest α)} {b : Rest β} {bs : List (Rest β)}
    {spans : List (Span α)} {walk : Walk (List (Span α))} {len : Nat} :
    a.count = Span.keptMark → b.count = Span.keptMark → len = min a.length b.length →
    Turns before (Rest.forward len (a :: as)) false (Rest.forward len (b :: bs))
      (Span.push false spans (.keep len)) walk →
    Turns before (a :: as) false (b :: bs) spans walk
  /-- A replaced run of the other change comes first. -/
  | yields {a : Rest α} {as as' : List (Rest α)} {told told' : Bool} {b : Rest β}
    {bs : List (Rest β)} {spans spans' : List (Span α)} {walk : Walk (List (Span α))} :
    0 ≤ b.count → yieldsTo before b.length told a = true →
    absorb (a :: as) told b.length (Span.push false spans (.keep b.count.toNat))
      = some (as', told', spans') →
    Turns before as' told' bs spans' walk →
    Turns before (a :: as) told (b :: bs) spans walk
  /-- A replaced run of the change comes first and is passed to its end. -/
  | passes {a : Rest α} {as : List (Rest α)} {told : Bool} {b : Rest β} {bs : List (Rest β)}
    {spans : List (Span α)} {walk : Walk (List (Span α))} {met : Passage β} :
    ¬ (0 ≤ b.count ∧ yieldsTo before b.length told a = true) → 0 ≤ a.count →
    passKept a.length (b :: bs) = met → met.left = 0 →
    Turns before as false met.spans (Span.push false spans
      (if told then ⟨met.kept, 0, Insertion.empty⟩ else ⟨met.kept, a.count, a.text⟩)) walk →
    Turns before (a :: as) told (b :: bs) spans walk
  /-- A replaced run of the change comes first, and one of the other change stops it. -/
  | stops {a : Rest α} {as : List (Rest α)} {told : Bool} {b : Rest β} {bs : List (Rest β)}
    {spans : List (Span α)} {walk : Walk (List (Span α))} {met : Passage β} :
    ¬ (0 ≤ b.count ∧ yieldsTo before b.length told a = true) → 0 ≤ a.count →
    passKept a.length (b :: bs) = met → 0 < met.left →
    Turns before (Rest.forward (a.length - met.left) (a :: as)) true met.spans
      (Span.push false spans
        (if told then ⟨met.kept, 0, Insertion.empty⟩ else ⟨met.kept, a.count, a.text⟩)) walk →
    Turns before (a :: as) told (b :: bs) spans walk

section Turns

variable {before : Bool} {a : Rest α} {as : List (Rest α)} {told : Bool} {b : Rest β}
  {bs : List (Rest β)} {spans : List (Span α)}

omit [Insertion α] in
/-- Where the change yields to a run of which it has not all characters, it has some. -/
theorem length_pos_of_yieldsTo {len : Nat} (ha : a.MarkedSecond) (htold : Told told (a :: as))
    (hyields : yieldsTo before len told a = true) (hless : Rest.total (a :: as) < len) :
    0 < a.length := by
  by_cases hkept : a.count < 0
  · exact ha.kept hkept
  · cases told with
    | true => exact (htold rfl a rfl).2
    | false =>
      -- An untouched run comes first only if it reaches as far as the run of the other change.
      simp only [yieldsTo, hkept, decide_false, Bool.false_or, Bool.and_eq_true, Bool.or_eq_true,
        decide_eq_true_eq] at hyields
      rw [total_cons] at hless
      omega

omit [Insertion α] in
/-- Where the next characters are kept by the change, and an insertion of the other does not come
first, the other keeps them too. -/
theorem put_of_not_yieldsTo (ha : a.Marked) (hb : b.Marked)
    (hkept : ¬ (a.count = Span.keptMark ∧ b.count = Span.keptMark))
    (hyields : ¬ (0 ≤ b.count ∧ yieldsTo before b.length told a = true)) : 0 ≤ a.count := by
  by_contra hput
  refine hyields ⟨?_, ?_⟩
  · by_contra hbput
    exact hkept ⟨ha.eq_keptMark (Int.not_le.mp hput), hb.eq_keptMark (Int.not_le.mp hbput)⟩
  · simp [yieldsTo, Int.not_le.mp hput]

omit [Insertion α] in
/-- Behind a run that was told the other change keeps the next characters, and they are passed in
part at least. -/
theorem not_stalled (hmark : Span.keptMark ≤ b.count)
    (hyields : ¬ (0 ≤ b.count ∧ yieldsTo before b.length told a = true))
    (hpos : 0 < (passKept a.length (b :: bs)).left) :
    ¬ (told = true ∧ (passKept a.length (b :: bs)).spans.length = bs.length + 1) := by
  rintro ⟨rfl, hlength⟩
  have hkept : b.count = Span.keptMark := by
    have hput : ¬ 0 ≤ b.count := fun hput => hyields ⟨hput, by simp [yieldsTo]⟩
    simp only [Span.keptMark] at hmark ⊢
    omega
  rcases passKept_left_or_length a.length bs hkept with hzero | hle
  · omega
  · omega

/-- The walk over what is left of two marked changes takes turns to its end. -/
theorem turns_rebaseSpans (before : Bool) (as : List (Rest α)) (told : Bool) (bs : List (Rest β))
    (spans : List (Span α)) (has : ∀ a ∈ as, a.MarkedSecond) (htold : Told told as)
    (hbs : ∀ b ∈ bs, b.MarkedSecond) :
    Turns before as told bs spans (rebaseSpans before as told bs spans) := by
  -- The cases in which a mark ends the walk do not come up.
  fun_induction rebaseSpans before as told bs spans with
  | case1 told spans => exact .done
  | case2 told b bs spans hpos => exact .short hpos
  | case3 told b bs spans hzero hput ih =>
    exact .keepLast (Nat.eq_zero_of_not_pos hzero) hput
      (ih has htold (List.forall_mem_cons.mp hbs).2)
  | case4 told b bs spans hzero hput hend =>
    exact absurd ((hbs b List.mem_cons_self).kept (Int.not_le.mp hput)) hzero
  | case5 told b bs spans hzero hput hend =>
    exact absurd ((hbs b List.mem_cons_self).kept (Int.not_le.mp hput)) hzero
  | case6 a as told spans hpos => exact .long hpos
  | case7 a as told spans hzero hput ih =>
    have hlength : a.length = 0 := Nat.eq_zero_of_not_pos hzero
    obtain rfl : told = false := htold.eq_false_of_empty hlength
    exact .putLast hlength hput (ih (List.forall_mem_cons.mp has).2 Told.untold hbs)
  | case8 a as told spans hzero hput hend =>
    exact absurd ((has a List.mem_cons_self).kept (Int.not_le.mp hput)) hzero
  | case9 a as told spans hzero hput hend =>
    exact absurd ((has a List.mem_cons_self).kept (Int.not_le.mp hput)) hzero
  | case10 a as told b bs spans hend =>
    rcases hend with ⟨hend, -⟩ | ⟨hend, -⟩
    · exact absurd hend (has a List.mem_cons_self).ne_endMark
    · exact absurd hend (hbs b List.mem_cons_self).ne_endMark
  | case11 a as told b bs spans hend hkept spans' hle ih =>
    obtain ⟨-, has⟩ := List.forall_mem_cons.mp has
    obtain ⟨hb, hbs⟩ := List.forall_mem_cons.mp hbs
    obtain rfl : told = false := htold.eq_false (hkept.1 ▸ by decide)
    have hall : Rest.forward a.length (a :: as) = as := if_pos rfl
    refine .keep hkept.1 hkept.2 rfl ?_
    show Turns before _ false _ spans' _
    rw [Nat.min_eq_left hle, hall]
    exact ih has Told.untold (hb.forward hbs hle)
  | case12 a as told b bs spans hend hkept spans' hlt ih =>
    obtain ⟨ha, has⟩ := List.forall_mem_cons.mp has
    obtain rfl : told = false := htold.eq_false (hkept.1 ▸ by decide)
    have hle : b.length ≤ a.length := Nat.le_of_not_le hlt
    have hall : Rest.forward b.length (b :: bs) = bs := if_pos rfl
    refine .keep hkept.1 hkept.2 rfl ?_
    show Turns before _ false _ spans' _
    rw [Nat.min_eq_right hle, hall]
    exact ih (ha.forward has hle) Told.untold (List.forall_mem_cons.mp hbs).2
  | case13 a as told b bs spans hend hkept hyields as' told' spans' habsorb ih =>
    obtain ⟨has', htold'⟩ := markedSecond_absorb habsorb has htold
    exact .yields hyields.1 hyields.2 habsorb (ih has' htold' (List.forall_mem_cons.mp hbs).2)
  | case14 a as told b bs spans hend hkept hyields habsorb =>
    exact .stalls (length_pos_of_yieldsTo (has a List.mem_cons_self) htold hyields.2
      (absorb_eq_none_iff.mp habsorb)) hyields.1 hyields.2 habsorb
  | case15 a as told b bs spans hend hkept hyields hput met spans' hleft ih =>
    exact .passes hyields hput rfl hleft
      (ih (List.forall_mem_cons.mp has).2 Told.untold (markedSecond_passKept _ _ hbs))
  | case16 a as told b bs spans hend hkept hyields hput met hleft hstall =>
    exact absurd hstall
      (not_stalled (hbs b List.mem_cons_self).mark hyields (Nat.pos_of_ne_zero hleft))
  | case17 a as told b bs spans hend hkept hyields hput met spans' hleft hstall ih =>
    obtain ⟨ha, has⟩ := List.forall_mem_cons.mp has
    have hpos : 0 < met.left := Nat.pos_of_ne_zero hleft
    exact .stops hyields hput rfl hpos (ih (ha.forward has (Nat.sub_le _ _))
      (Told.forward_left hput hpos (left_passKept_le _ _)) (markedSecond_passKept _ _ hbs))
  | case18 a as told b bs spans hend hkept hyields hput hends =>
    exact absurd (put_of_not_yieldsTo (has a List.mem_cons_self).toMarked
      (hbs b List.mem_cons_self).toMarked hkept hyields) hput
  | case19 a as told b bs spans hend hkept hyields hput hends =>
    exact absurd (put_of_not_yieldsTo (has a List.mem_cons_self).toMarked
      (hbs b List.mem_cons_self).toMarked hkept hyields) hput

/-- Over changes of one length the walk takes turns to a result. -/
theorem Turns.exists_finished {walk : Walk (List (Span α))}
    (h : Turns before as told bs spans walk) (htotal : Rest.total as = Rest.total bs) :
    ∃ out, walk = .finished out := by
  -- Each turn takes as many characters off the one change as off the other.
  induction h with
  | done => exact ⟨_, rfl⟩
  | short hpos =>
    rw [total_nil, total_cons] at htotal
    omega
  | long hpos =>
    rw [total_nil, total_cons] at htotal
    omega
  | stalls _ _ _ habsorb =>
    have hless := absorb_eq_none_iff.mp habsorb
    rw [htotal, total_cons] at hless
    omega
  | keepLast hzero _ _ ih =>
    rw [total_cons, hzero, Nat.zero_add] at htotal
    exact ih htotal
  | putLast hzero _ _ ih =>
    rw [total_cons, hzero, Nat.zero_add] at htotal
    exact ih htotal
  | @keep a as b bs spans walk len _ _ hlen _ ih =>
    have has := Rest.total_forward as (hlen.trans_le (Nat.min_le_left _ _))
    have hbs := Rest.total_forward bs (hlen.trans_le (Nat.min_le_right _ _))
    exact ih (by omega)
  | @yields a as as' told told' b bs spans spans' walk _ _ habsorb _ ih =>
    have has := total_absorb habsorb
    rw [htotal, total_cons, Nat.add_comm] at has
    exact ih (Nat.add_left_cancel has)
  | @passes a as told b bs spans walk met _ _ hmet hleft _ ih =>
    have hbs := total_passKept a.length (b :: bs)
    rw [hmet, hleft] at hbs
    rw [total_cons] at htotal
    exact ih (by omega)
  | @stops a as told b bs spans walk met _ _ hmet _ _ ih =>
    have has := Rest.total_forward as (Nat.sub_le a.length met.left)
    have hbs := total_passKept a.length (b :: bs)
    rw [hmet] at hbs
    exact ih (by omega)

theorem exists_turns (before : Bool) (as : List (Rest α)) (told : Bool) (bs : List (Rest β))
    (spans : List (Span α)) (has : ∀ a ∈ as, a.MarkedSecond) (htold : Told told as)
    (hbs : ∀ b ∈ bs, b.MarkedSecond) (htotal : Rest.total as = Rest.total bs) :
    ∃ out, rebaseSpans before as told bs spans = .finished out
      ∧ Turns before as told bs spans (.finished out) := by
  have hturns := turns_rebaseSpans before as told bs spans has htold hbs
  obtain ⟨out, hout⟩ := hturns.exists_finished htotal
  exact ⟨out, hout, hout ▸ hturns⟩

end Turns

section Rebase

variable [Insertion β] {c : Change α} {d : Change β}

omit [Insertion α] [Insertion β] in
theorem total_ofSpan (ss : List (Span α)) :
    Rest.total (ss.map Rest.ofSpan) = sumBy Span.length ss := by
  rw [Rest.total, sumBy_map]
  rfl

/-- Of two changes of one document, one that keeps everything is left out; otherwise what results is
found by turns. -/
theorem rebase_turns (hc : ∀ s ∈ c.spans, s.Marked) (hd : ∀ s ∈ d.spans, s.Marked)
    (hfits : d.length = c.length) (before : Bool) :
    (d.isEmpty = true ∧ c.rebase d before = .ok c)
      ∨ ∃ out, c.rebase d before = .ok ⟨out⟩ ∧ Turns before (c.spans.map Rest.ofSpan) false
          (d.spans.map Rest.ofSpan) [] (.finished out) := by
  rw [rebase_eq, if_pos hfits]
  by_cases hempty : d.isEmpty = true
  · exact Or.inl ⟨hempty, if_pos hempty⟩
  · have htotal : Rest.total (c.spans.map Rest.ofSpan) = Rest.total (d.spans.map Rest.ofSpan) := by
      rw [total_ofSpan, total_ofSpan]
      exact hfits.symm
    obtain ⟨out, hout, hturns⟩ := exists_turns before _ false _ [] (markedSecond_of_mem hc)
      Told.untold (markedSecond_of_mem hd) htotal
    exact Or.inr ⟨out, by rw [if_neg hempty, hout], hturns⟩

end Rebase

end Change

end TextRevision
