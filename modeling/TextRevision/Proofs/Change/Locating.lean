import TextRevision.Change.Position
import TextRevision.Proofs.Change.Sequence

/-!
# Where places go

A place is looked for span by span, and the first span at which it settles says where it goes. A
place that does not settle at a span lies behind it, and a place in front of one that settles there
settles there too. So no place overtakes another one, and none leaves the new document. Where words
hold the lengths of both documents, a search that is held to words finds the same.

## Main definitions

- `Span.Settles`, `Span.settle`: whether a place settles at a span, and where it goes then
- `Span.Loses`: whether tracking takes a place to be deleted at a span

## Main statements

- `Change.locateFrom_cons`: one span of the search
- `Change.newPlace?_eq`: a search held to words
- `Change.newPlace?_monotone`
-/

namespace TextRevision

variable {α : Type}

section Settling

/-- A place from `start` on settles at a span that starts there: it lies in the span, or right at
an insertion that it keeps before. -/
def Span.Settles (s : Span α) (pos : Nat) (side : Side) (start : Nat) : Prop :=
  pos < start + s.length
    ∨ (s.isKept = false ∧ pos = start + s.length ∧ side = .before ∧ s.length = 0)

instance (s : Span α) (pos : Nat) (side : Side) (start : Nat) :
    Decidable (s.Settles pos side start) :=
  inferInstanceAs (Decidable (_ ∨ _))

/-- Where a place goes that settles at a span. -/
def Span.settle (s : Span α) (pos : Nat) (side : Side) (start newStart : Nat) : Nat :=
  if s.isKept then newStart + (pos - start)
  else if pos = start ∨ side = .before then newStart else newStart + s.newLength

/-- A replaced run that tracking sees and that takes a place along. -/
def Span.Loses (s : Span α) (mode : Tracking) (pos start : Nat) : Prop :=
  s.isKept = false ∧ pos ≤ start + s.length ∧ mode.loses pos start (start + s.length) = true

instance (s : Span α) (mode : Tracking) (pos start : Nat) : Decidable (s.Loses mode pos start) :=
  inferInstanceAs (Decidable (_ ∧ _))

/-- One span of the search: it takes the place along, the place settles there, or goes on. -/
theorem Change.locateFrom_cons (pos : Nat) (side : Side) (mode : Tracking) (start newStart : Nat)
    (s : Span α) (rest : List (Span α)) :
    locateFrom pos side mode start newStart (s :: rest)
      = if s.Loses mode pos start then .ok none
        else if s.Settles pos side start then .ok (some (s.settle pos side start newStart))
        else locateFrom pos side mode (start + s.length) (newStart + s.newLength) rest := by
  rw [locateFrom]
  by_cases hkept : s.isKept = true
  · simp [Span.Loses, Span.Settles, Span.settle, hkept]
  · have hput : s.isKept = false := by simpa using hkept
    simp only [Span.Loses, Span.Settles, Span.settle, hput, Bool.false_eq_true, if_false, true_and]
    split
    · rfl
    · split
      · split <;> rfl
      · rfl

variable {s : Span α} {pos p q start newStart : Nat} {side : Side}

/-- A place behind a span does not settle there. -/
theorem Span.Settles.le (h : s.Settles pos side start) : pos ≤ start + s.length := by
  rcases h with h | h <;> omega

/-- A place that does not settle at a span lies behind it. -/
theorem Span.le_of_not_settles (h : ¬ s.Settles pos side start) : start + s.length ≤ pos := by
  rw [Settles, not_or] at h
  omega

/-- A place in front of one that settles at a span settles there too. -/
theorem Span.Settles.of_le (h : s.Settles q side start) (hpos : start ≤ p) (hle : p ≤ q) :
    s.Settles p side start := by
  rcases h with h | ⟨hput, hstop, hside, hzero⟩
  · exact Or.inl (by omega)
  · exact Or.inr ⟨hput, by omega, hside, hzero⟩

/-- A place that goes behind insertions settles at no other spans than one that keeps before
them. -/
theorem Span.Settles.before (h : s.Settles pos .after start) : s.Settles pos .before start := by
  rcases h with h | ⟨-, -, hside, -⟩
  · exact Or.inl h
  · cases hside

theorem Span.newLength_of_isKept (h : s.isKept = true) : s.newLength = s.length := by
  rw [newLength, if_pos h]

/-- A place that settles at a span goes to what the span makes. -/
theorem Span.Settles.bounds (h : s.Settles pos side start) (hpos : start ≤ pos) (newStart : Nat) :
    newStart ≤ s.settle pos side start newStart
      ∧ s.settle pos side start newStart ≤ newStart + s.newLength := by
  have hle := h.le
  rw [settle]
  split
  · next hkept =>
    rw [newLength_of_isKept hkept]
    omega
  · split <;> omega

/-- Places that settle at one span keep their order. -/
theorem Span.settle_le_settle (hpos : start ≤ p) (hle : p ≤ q) :
    s.settle p side start newStart ≤ s.settle q side start newStart := by
  rw [settle, settle]
  by_cases hkept : s.isKept = true
  · rw [if_pos hkept, if_pos hkept]
    omega
  · rw [if_neg hkept, if_neg hkept]
    -- The later place goes in front of the insertion only if the earlier one does.
    by_cases hq : q = start ∨ side = .before
    · have hp : p = start ∨ side = .before := hq.imp_left fun h => by omega
      rw [if_pos hq, if_pos hp]
    · rw [if_neg hq]
      split <;> omega

theorem Span.settle_before_le (pos start newStart : Nat) :
    s.settle pos .before start newStart ≤ s.settle pos .after start newStart := by
  rw [settle, settle]
  by_cases hkept : s.isKept = true
  · rw [if_pos hkept, if_pos hkept]
  · rw [if_neg hkept, if_neg hkept, if_pos (Or.inr rfl)]
    split <;> omega

end Settling

namespace Change

section Bounds

variable {pos start : Nat} {spans : List (Span α)}

/-- Without tracking, no run takes a place along. -/
@[simp] theorem not_loses_nowhere (s : Span α) (pos start : Nat) :
    ¬ s.Loses .nowhere pos start := by
  rintro ⟨-, -, hloses⟩
  cases hloses

/-- A place up to the end of the document is found, unless it is lost, and goes to a place of the
new document. -/
theorem exists_locateFrom (hpos : start ≤ pos) (hle : pos ≤ start + sumBy Span.length spans)
    (side : Side) (mode : Tracking) (newStart : Nat) :
    ∃ place, locateFrom pos side mode start newStart spans = .ok place
      ∧ (mode = .nowhere → place ≠ none)
      ∧ ∀ q, place = some q → newStart ≤ q ∧ q ≤ newStart + sumBy Span.newLength spans := by
  induction spans generalizing start newStart with
  | nil =>
    have hend : ¬ start < pos := Nat.not_lt.mpr hle
    refine ⟨some newStart, by rw [locateFrom, if_neg hend], fun _ => nofun, ?_⟩
    rintro _ ⟨⟩
    exact ⟨Nat.le_refl _, Nat.le_add_right _ _⟩
  | cons s spans ih =>
    rw [sumBy_cons] at hle
    rw [locateFrom_cons, sumBy_cons]
    by_cases hlost : s.Loses mode pos start
    · rw [if_pos hlost]
      refine ⟨none, rfl, ?_, nofun⟩
      rintro rfl
      exact absurd hlost (not_loses_nowhere s pos start)
    · rw [if_neg hlost]
      by_cases hsettles : s.Settles pos side start
      · rw [if_pos hsettles]
        refine ⟨_, rfl, fun _ => nofun, ?_⟩
        rintro _ ⟨⟩
        have hbounds := hsettles.bounds hpos newStart
        omega
      · rw [if_neg hsettles]
        obtain ⟨place, hplace, hfound, hbounds⟩ :=
          ih (Span.le_of_not_settles hsettles) (by omega) (newStart + s.newLength)
        refine ⟨place, hplace, hfound, fun q hq => ?_⟩
        have hq := hbounds q hq
        omega

/-- A place behind the end of the document is refused. -/
theorem locateFrom_eq_error (h : start + sumBy Span.length spans < pos) (side : Side)
    (mode : Tracking) (newStart : Nat) :
    locateFrom pos side mode start newStart spans
      = .error (.position pos (start + sumBy Span.length spans)) := by
  induction spans generalizing start newStart with
  | nil =>
    rw [sumBy_nil, Nat.add_zero] at h ⊢
    rw [locateFrom, if_pos h]
  | cons s spans ih =>
    rw [sumBy_cons, ← Nat.add_assoc] at h ⊢
    have hlost : ¬ s.Loses mode pos start := by
      rintro ⟨-, hstop, -⟩
      omega
    have hsettles : ¬ s.Settles pos side start := by
      intro hsettles
      have := hsettles.le
      omega
    rw [locateFrom_cons, if_neg hlost, if_neg hsettles, ih h]

/-- One span of the search without tracking. -/
theorem locateFrom_nowhere_cons (pos : Nat) (side : Side) (start newStart : Nat) (s : Span α)
    (rest : List (Span α)) :
    locateFrom pos side .nowhere start newStart (s :: rest)
      = if s.Settles pos side start then .ok (some (s.settle pos side start newStart))
        else locateFrom pos side .nowhere (start + s.length) (newStart + s.newLength) rest := by
  rw [locateFrom_cons, if_neg (not_loses_nowhere s pos start)]

end Bounds

section Order

variable {start newStart m n : Nat} {spans : List (Span α)}

/-- What is found behind some spans lies behind what they make. -/
theorem le_of_locateFrom {pos : Nat} {side : Side} (hpos : start ≤ pos)
    (h : locateFrom pos side .nowhere start newStart spans = .ok (some n)) : newStart ≤ n := by
  rcases Nat.lt_or_ge (start + sumBy Span.length spans) pos with hlt | hle
  · cases (locateFrom_eq_error hlt side .nowhere newStart).symm.trans h
  · obtain ⟨place, hplace, -, hbounds⟩ := exists_locateFrom hpos hle side .nowhere newStart
    obtain rfl := Except.ok.inj (hplace.symm.trans h)
    exact (hbounds n rfl).1

/-- Behind all spans, a place goes to the end. -/
theorem eq_of_locateFrom_nil {pos : Nat} {side : Side} {mode : Tracking}
    (h : locateFrom pos side mode start newStart ([] : List (Span α)) = .ok (some n)) :
    newStart = n := by
  rw [locateFrom] at h
  split at h
  · cases h
  · exact Option.some.inj (Except.ok.inj h)

/-- No place overtakes another. -/
theorem locateFrom_mono {p q : Nat} {side : Side} (hpos : start ≤ p) (hle : p ≤ q)
    (hp : locateFrom p side .nowhere start newStart spans = .ok (some m))
    (hq : locateFrom q side .nowhere start newStart spans = .ok (some n)) : m ≤ n := by
  induction spans generalizing start newStart with
  | nil =>
    exact Nat.le_of_eq ((eq_of_locateFrom_nil hp).symm.trans (eq_of_locateFrom_nil hq))
  | cons s spans ih =>
    rw [locateFrom_nowhere_cons] at hp hq
    by_cases hpSettles : s.Settles p side start
    · rw [if_pos hpSettles] at hp
      obtain rfl := Option.some.inj (Except.ok.inj hp)
      have hbounds := hpSettles.bounds hpos newStart
      by_cases hqSettles : s.Settles q side start
      · rw [if_pos hqSettles] at hq
        obtain rfl := Option.some.inj (Except.ok.inj hq)
        exact Span.settle_le_settle hpos hle
      · rw [if_neg hqSettles] at hq
        have hbehind := le_of_locateFrom (Span.le_of_not_settles hqSettles) hq
        omega
    · have hqSettles : ¬ s.Settles q side start := fun h => hpSettles (h.of_le hpos hle)
      rw [if_neg hpSettles] at hp
      rw [if_neg hqSettles] at hq
      exact ih (Span.le_of_not_settles hpSettles) hp hq

/-- A place that keeps before insertions does not overtake itself where it goes behind them. -/
theorem locateFrom_before_le {pos : Nat} (hpos : start ≤ pos)
    (hbefore : locateFrom pos .before .nowhere start newStart spans = .ok (some m))
    (hafter : locateFrom pos .after .nowhere start newStart spans = .ok (some n)) : m ≤ n := by
  induction spans generalizing start newStart with
  | nil =>
    exact Nat.le_of_eq ((eq_of_locateFrom_nil hbefore).symm.trans (eq_of_locateFrom_nil hafter))
  | cons s spans ih =>
    rw [locateFrom_nowhere_cons] at hbefore hafter
    by_cases hsettles : s.Settles pos .after start
    · rw [if_pos hsettles] at hafter
      rw [if_pos hsettles.before] at hbefore
      obtain rfl := Option.some.inj (Except.ok.inj hbefore)
      obtain rfl := Option.some.inj (Except.ok.inj hafter)
      exact Span.settle_before_le pos start newStart
    · rw [if_neg hsettles] at hafter
      have hbehind := le_of_locateFrom (Span.le_of_not_settles hsettles) hafter
      by_cases hearly : s.Settles pos .before start
      · rw [if_pos hearly] at hbefore
        obtain rfl := Option.some.inj (Except.ok.inj hbefore)
        have hbounds := hearly.bounds hpos newStart
        omega
      · rw [if_neg hearly] at hbefore
        exact ih (Span.le_of_not_settles hsettles) hbefore hafter

end Order

theorem locate_eq_error {c : Change α} {pos : Nat} (h : c.length < pos) (side : Side)
    (mode : Tracking) : c.locate pos side mode = .error (.position pos c.length) := by
  have hpast : 0 + sumBy Span.length c.spans < pos := (Nat.zero_add c.length).trans_lt h
  have herror := locateFrom_eq_error hpast side mode 0
  rwa [Nat.zero_add] at herror

theorem exists_locate {c : Change α} {pos : Nat} (h : pos ≤ c.length) (side : Side)
    (mode : Tracking) : ∃ place, c.locate pos side mode = .ok place
      ∧ (mode = .nowhere → place ≠ none) ∧ ∀ q, place = some q → q ≤ c.newLength := by
  obtain ⟨place, hplace, hfound, hbounds⟩ := exists_locateFrom (Nat.zero_le pos)
    (h.trans_eq (Nat.zero_add c.length).symm) side mode 0
  refine ⟨place, hplace, hfound, fun q hq => ?_⟩
  exact (hbounds q hq).2.trans_eq (Nat.zero_add c.newLength)

/-- What is found without tracking is the new place. -/
theorem newPlace_of_locate {c : Change α} {pos q : Nat} {side : Side}
    (h : c.locate pos side .nowhere = .ok (some q)) : c.newPlace pos side = .ok q := by
  rw [newPlace, h]
  rfl

theorem newPlace_eq_error {c : Change α} {pos : Nat} (h : c.length < pos) (side : Side) :
    c.newPlace pos side = .error (.position pos c.length) := by
  rw [newPlace, locate_eq_error h]
  rfl

theorem exists_newPlace {c : Change α} {pos : Nat} (h : pos ≤ c.length) (side : Side) :
    ∃ q, c.locate pos side .nowhere = .ok (some q) ∧ c.newPlace pos side = .ok q
      ∧ q ≤ c.newLength := by
  obtain ⟨place, hplace, hfound, hle⟩ := exists_locate h side .nowhere
  obtain ⟨q, rfl⟩ := Option.ne_none_iff_exists'.mp (hfound rfl)
  exact ⟨q, hplace, newPlace_of_locate hplace, hle q rfl⟩

section Words

variable {c : Change α} {pos start newStart : Nat} {side : Side} {mode : Tracking}
  {spans : List (Span α)}

/-- Where words hold both documents up to the end, no number of a search leaves its word. -/
theorem locateFrom?_eq (hlength : start + sumBy Span.length spans < wordCount)
    (hnew : newStart + sumBy Span.newLength spans < wordCount) :
    locateFrom? pos side mode start newStart spans
      = .ofExcept (locateFrom pos side mode start newStart spans) := by
  induction spans generalizing start newStart with
  | nil =>
    rw [locateFrom?, locateFrom]
    split <;> rfl
  | cons s spans ih =>
    rw [sumBy_cons, ← Nat.add_assoc] at hlength hnew
    have hstop : word? (start + s.length) = some (start + s.length) := word?_of_lt (by omega)
    have hnewStop : word? (newStart + s.newLength) = some (newStart + s.newLength) :=
      word?_of_lt (by omega)
    have hrest := ih hlength hnew
    rw [locateFrom?, locateFrom, hstop, hnewStop]
    simp only [Checked.lift_some, Checked.done_bind]
    by_cases hkept : s.isKept = true
    · rw [if_pos hkept, if_pos hkept, hrest]
      by_cases hlt : pos < start + s.length
      · have hplace : newStart + (pos - start) < wordCount := by
          rw [Span.newLength_of_isKept hkept] at hnew
          omega
        rw [if_pos hlt, if_pos hlt, word?_of_lt hplace]
        rfl
      · rw [if_neg hlt, if_neg hlt]
    · rw [if_neg hkept, if_neg hkept, hrest]
      split
      · rfl
      · split
        · split <;> rfl
        · rfl

theorem locate?_eq (hlength : c.length < wordCount) (hnew : c.newLength < wordCount) :
    c.locate? pos side mode = .ofExcept (c.locate pos side mode) :=
  locateFrom?_eq ((Nat.zero_add c.length).trans_lt hlength)
    ((Nat.zero_add c.newLength).trans_lt hnew)

/-- Where words hold the lengths of both documents, they hold every place that is found. -/
theorem newPlace?_eq (hlength : c.length < wordCount) (hnew : c.newLength < wordCount) :
    c.newPlace? pos side = .ofExcept (c.newPlace pos side) := by
  rw [newPlace?, newPlace, locate?_eq hlength hnew]
  cases c.locate pos side .nowhere <;> rfl

end Words

/-- Places of the old document keep their order in the new one, and do not leave it. Where a place
goes behind insertions, it does not stand in front of where it goes before them. With and without
tracking, exactly the places behind the end of the old document are refused, and its length is
told. All this is for changes with two lengths that words hold. -/
theorem newPlace?_monotone {c : Change α} (hlength : c.length < wordCount)
    (hnew : c.newLength < wordCount) (side : Side) :
    (∀ p q, p ≤ q → q ≤ c.length →
        ∃ m n, c.newPlace? p side = .done m ∧ c.newPlace? q side = .done n ∧ m ≤ n)
      ∧ (∀ p ≤ c.length,
        ∃ m n, c.newPlace? p .before = .done m ∧ c.newPlace? p .after = .done n ∧ m ≤ n)
      ∧ (∃ bound, c.newLength? = some bound
        ∧ ∀ p ≤ c.length, (∃ m, c.newPlace? p side = .done m ∧ m ≤ bound)
          ∧ ∀ mode, ∃ place, c.locate? p side mode = .done place
            ∧ ∀ m, place = some m → m ≤ bound)
      ∧ c.length? = some c.length
      ∧ ∀ p, c.length < p → c.newPlace? p side = .refused (.position p c.length)
        ∧ ∀ mode, c.locate? p side mode = .refused (.position p c.length) := by
  have htold : c.newLength? = some c.newLength := (sumBy?_eq _ _).trans (word?_of_lt hnew)
  have htold' : c.length? = some c.length := (sumBy?_eq _ _).trans (word?_of_lt hlength)
  simp only [newPlace?_eq hlength hnew, locate?_eq hlength hnew]
  refine ⟨fun p q hle hq => ?_, fun p hp => ?_,
    ⟨c.newLength, htold, fun p hp => ⟨?_, fun mode => ?_⟩⟩, htold', fun p hp => ?_⟩
  · obtain ⟨m, hm, hmPlace, -⟩ := exists_newPlace (hle.trans hq) side
    obtain ⟨n, hn, hnPlace, -⟩ := exists_newPlace hq side
    rw [hmPlace, hnPlace]
    exact ⟨m, n, rfl, rfl, locateFrom_mono (Nat.zero_le p) hle hm hn⟩
  · obtain ⟨m, hm, hmPlace, -⟩ := exists_newPlace hp .before
    obtain ⟨n, hn, hnPlace, -⟩ := exists_newPlace hp .after
    rw [hmPlace, hnPlace]
    exact ⟨m, n, rfl, rfl, locateFrom_before_le (Nat.zero_le p) hm hn⟩
  · obtain ⟨m, -, hm, hbound⟩ := exists_newPlace hp side
    rw [hm]
    exact ⟨m, rfl, hbound⟩
  · obtain ⟨place, hplace, -, hbound⟩ := exists_locate hp side mode
    rw [hplace]
    exact ⟨place, rfl, hbound⟩
  · rw [newPlace_eq_error hp]
    refine ⟨rfl, fun mode => ?_⟩
    rw [locate_eq_error hp]
    rfl

/-- Places in front of an insertion behind two characters, right at it, and behind the end. -/
theorem newPlace?_monotone_at_insertion :
    (insertBehind 2).length < wordCount ∧ (insertBehind 2).newLength < wordCount
      ∧ (∃ m n, (insertBehind 2).newPlace? 1 .after = .done m
        ∧ (insertBehind 2).newPlace? 2 .after = .done n ∧ m ≤ n)
      ∧ (∃ m n, (insertBehind 2).newPlace? 2 .before = .done m
        ∧ (insertBehind 2).newPlace? 2 .after = .done n ∧ m ≤ n)
      ∧ (insertBehind 2).newPlace? 3 .after = .refused (.position 3 2) := by
  have hlength : (insertBehind 2).length < wordCount := by decide
  have hnew : (insertBehind 2).newLength < wordCount := by decide
  obtain ⟨hmono, hsides, -, -, hrefused⟩ := newPlace?_monotone hlength hnew .after
  exact ⟨hlength, hnew, hmono 1 2 (by decide) (by decide), hsides 2 (by decide),
    (hrefused 3 (by decide)).1⟩

/-- An insertion behind as many characters as a word can count leads to a document whose length no
word holds, and neither does one hold the place behind that insertion. -/
theorem not_newPlace?_monotone :
    Outline.Obtainable (fun _ => True) (insertBehind 18446744073709551615).outline
      ∧ (insertBehind 18446744073709551615).outline.length? = some 18446744073709551615
      ∧ (insertBehind 18446744073709551615).outline.newPlace? 18446744073709551614 .after
        = .done 18446744073709551614
      ∧ (insertBehind 18446744073709551615).outline.newPlace? 18446744073709551615 .after
        = .nothing
      ∧ (insertBehind 18446744073709551615).outline.newLength? = none :=
  ⟨.outline (obtainable_insertBehind (by decide) fun _ _ => trivial), by decide, by decide,
    by decide, by decide⟩

end Change

end TextRevision
