import TextRevision.Proofs.Change.Keeping
import TextRevision.Proofs.Change.Locating
import TextRevision.Proofs.Change.Undoing

/-!
# Characters followed through a change

The place of a kept character goes to where the change keeps it, and the place behind the character
goes right behind it. The character itself is found there in the document that the change leads to.
What undoes the change keeps the same characters, with the two places changed about. So a place can
be followed to the new document and back.

## Main definitions

- `Change.KeepsFrom`: spans that start at two places keep a character

## Main statements

- `Change.keepsFrom_cons`: one span
- `Change.locateFrom_of_keeps`, `Change.KeepsFrom.inverse`, `Reading.getElem?_run_of_keeps`
- `Revision.Obtainable.newPlace_follows`
-/

namespace TextRevision

variable {α β : Type}

/-- Spans that start at two places keep the character at place `p`, which is at place `q` then. -/
def Change.KeepsFrom (start newStart : Nat) (spans : List (Span α)) (p q : Nat) : Prop :=
  ∃ g ∈ gapsFrom start newStart spans,
    g.start ≤ p ∧ p < g.start + g.length ∧ q = g.newStart + (p - g.start)

/-- A span keeps the character at place `p` if it is a kept run in which the place lies. -/
def Span.KeepsAt (s : Span α) (start newStart p q : Nat) : Prop :=
  s.isKept = true ∧ start ≤ p ∧ p < start + s.length ∧ q = newStart + (p - start)

namespace Change

section Places

variable {s : Span α} {spans : List (Span α)} {start newStart p q : Nat}

@[simp] theorem not_keepsFrom_nil : ¬ KeepsFrom start newStart ([] : List (Span α)) p q := by
  rintro ⟨g, hg, -⟩
  cases hg

theorem keepsFrom_cons : KeepsFrom start newStart (s :: spans) p q
    ↔ s.KeepsAt start newStart p q
      ∨ KeepsFrom (start + s.length) (newStart + s.newLength) spans p q := by
  rw [KeepsFrom, gapsFrom]
  by_cases hkept : s.isKept = true
  · rw [if_pos hkept, List.exists_mem_cons_iff]
    refine or_congr_left ?_
    rw [Span.KeepsAt, and_iff_right hkept]
  · rw [if_neg hkept]
    refine (or_iff_right ?_).symm
    rintro ⟨hkept', -⟩
    exact hkept hkept'

/-- A kept character comes from behind the place where the spans start, and goes behind the one
where they start in the new document. -/
theorem KeepsFrom.le (h : KeepsFrom start newStart spans p q) : start ≤ p ∧ newStart ≤ q := by
  induction spans generalizing start newStart with
  | nil => exact absurd h not_keepsFrom_nil
  | cons s spans ih =>
    rcases keepsFrom_cons.mp h with ⟨-, hstart, -, rfl⟩ | hlater
    · exact ⟨hstart, Nat.le_add_right _ _⟩
    · have := ih hlater
      omega

/-- A place that keeps before insertions goes to where the spans lead that start at it. -/
theorem locateFrom_start (start newStart : Nat) (spans : List (Span α)) :
    locateFrom start .before .nowhere start newStart spans = .ok (some newStart) := by
  induction spans generalizing start newStart with
  | nil => rw [locateFrom, if_neg (Nat.lt_irrefl start)]
  | cons s spans ih =>
    rw [locateFrom_nowhere_cons]
    by_cases hsettles : s.Settles start .before start
    · have hplace : s.settle start .before start newStart = newStart := by simp [Span.settle]
      rw [if_pos hsettles, hplace]
    · have hzero : s.length = 0 := by
        have := Span.le_of_not_settles hsettles
        omega
      have hkept : s.isKept = true := by
        by_contra hput
        exact hsettles (.inr ⟨by simpa using hput, by omega, rfl, hzero⟩)
      rw [if_neg hsettles, Span.newLength_of_isKept hkept, hzero, Nat.add_zero, Nat.add_zero, ih]

/-- The place of a kept character goes to where it is kept, and the place behind it goes right
behind that. -/
theorem locateFrom_of_keeps (h : KeepsFrom start newStart spans p q) :
    locateFrom p .after .nowhere start newStart spans = .ok (some q)
      ∧ locateFrom (p + 1) .before .nowhere start newStart spans = .ok (some (q + 1)) := by
  induction spans generalizing start newStart with
  | nil => exact absurd h not_keepsFrom_nil
  | cons s spans ih =>
    rw [locateFrom_nowhere_cons, locateFrom_nowhere_cons]
    rcases keepsFrom_cons.mp h with ⟨hkept, hstart, hstop, rfl⟩ | hlater
    · have hhere : s.Settles p .after start := .inl hstop
      rw [if_pos hhere, Span.settle, if_pos hkept]
      refine ⟨rfl, ?_⟩
      -- The place behind the last character of the run is where the next span starts.
      rcases Nat.lt_or_eq_of_le (Nat.succ_le_of_lt hstop) with hlt | heq
      · have hbehind : s.Settles (p + 1) .before start := .inl hlt
        have hplace : newStart + (p + 1 - start) = newStart + (p - start) + 1 := by omega
        rw [if_pos hbehind, Span.settle, if_pos hkept, hplace]
      · have hbehind : ¬ s.Settles (p + 1) .before start := by
          rintro (hlt | ⟨hput, -⟩)
          · omega
          · simp [hkept] at hput
        have hnew : newStart + s.length = newStart + (p - start) + 1 := by omega
        rw [if_neg hbehind, Span.newLength_of_isKept hkept, ← heq, locateFrom_start, hnew]
    · have hle := hlater.le.1
      have hhere : ¬ s.Settles p .after start := by
        rintro (hlt | ⟨-, -, hside, -⟩)
        · omega
        · cases hside
      have hbehind : ¬ s.Settles (p + 1) .before start := by
        rintro (hlt | ⟨-, hstop, -, -⟩) <;> omega
      rw [if_neg hhere, if_neg hbehind]
      exact ih hlater

end Places

end Change

section Undoing

/-- What undoes a span leads from what the span makes to what it is made of. -/
theorem Span.inverse_turns {s : Span Unit} (h : s.length < signBound) :
    s.inverse.isKept = s.isKept ∧ s.inverse.length = s.newLength
      ∧ s.inverse.newLength = s.length := by
  rw [inverse]
  by_cases hkept : s.isKept = true
  · rw [if_pos hkept, newLength_of_isKept hkept]
    exact ⟨rfl, rfl, rfl⟩
  · have hput : 0 ≤ s.count := by simpa [isKept] using hkept
    have hword : (0 : Int) ≤ s.length := Int.natCast_nonneg _
    rw [if_neg hkept, signedWord_of_lt h, newLength_of_put hput]
    exact ⟨by simp [isKept, Int.not_lt.mpr hput], rfl, newLength_of_put hword⟩

/-- What undoes spans keeps the same characters, and the two places are changed about. -/
theorem Change.KeepsFrom.inverse {spans : List (Span Unit)} {start newStart p q : Nat}
    (h : KeepsFrom start newStart spans p q) (hsmall : ∀ s ∈ spans, s.length < signBound) :
    KeepsFrom newStart start (spans.map Span.inverse) q p := by
  induction spans generalizing start newStart with
  | nil => exact absurd h not_keepsFrom_nil
  | cons s spans ih =>
    obtain ⟨hs, hspans⟩ := List.forall_mem_cons.mp hsmall
    obtain ⟨hkept, hlength, hnewLength⟩ := Span.inverse_turns hs
    rw [List.map_cons, keepsFrom_cons, hlength, hnewLength]
    rcases keepsFrom_cons.mp h with ⟨hsKept, hstart, hstop, rfl⟩ | hlater
    · refine .inl ⟨hkept.trans hsKept, Nat.le_add_right _ _, ?_, by omega⟩
      rw [hlength, Span.newLength_of_isKept hsKept]
      omega
    · exact .inr (ih hlater hspans)

end Undoing

/-- What a change keeps is found where it is kept. -/
theorem Reading.getElem?_run_of_keeps [Insertion α] {I : Reading α β} {spans : List (Span α)}
    (hsound : ∀ s ∈ spans, I.Sound s) {start newStart p q : Nat}
    (h : Change.KeepsFrom start newStart spans p q) {doc : List β}
    (hdoc : doc.length = sumBy Span.length spans) :
    (I.run spans doc)[q - newStart]? = doc[p - start]? := by
  induction spans generalizing start newStart doc with
  | nil => exact absurd h Change.not_keepsFrom_nil
  | cons s spans ih =>
    obtain ⟨hs, hspans⟩ := List.forall_mem_cons.mp hsound
    rw [sumBy_cons] at hdoc
    have hlength : (I.step s doc).length = s.newLength := length_step hs (by omega)
    rw [run_cons]
    rcases Change.keepsFrom_cons.mp h with ⟨hkept, hstart, hstop, rfl⟩ | hlater
    · have hhere : p - start < s.length := by omega
      rw [Nat.add_sub_cancel_left, List.getElem?_append_left
        (by rw [hlength, Span.newLength_of_isKept hkept]; exact hhere),
        step_kept (by simpa [Span.isKept] using hkept), List.getElem?_take_of_lt hhere]
    · have hle := hlater.le
      have hdrop : (doc.drop s.length).length = sumBy Span.length spans := by
        rw [List.length_drop]
        omega
      have hplace := ih hspans hlater hdrop
      rw [List.getElem?_drop] at hplace
      rw [List.getElem?_append_right (by rw [hlength]; omega), hlength, Nat.sub_sub, hplace]
      congr 1
      omega

/-- A revision can be made to any document of its length, and the places of its characters follow
them: the place of a kept character goes to where the new document holds it, the place behind the
character goes right behind that, and the outline of what undoes the revision leads back. All this
is for lengths up to the limit of written changes. -/
theorem Revision.Obtainable.newPlace_follows {fits : Nat → Prop} {c : Revision} {doc : Rope}
    (hc : Revision.Obtainable (· ≤ lengthLimit) c) (hdoc : Rope.Reachable fits doc)
    (hlength : doc.length = c.length) :
    ∃ r, c.apply doc = .ok r ∧ ∀ p, (∃ q, c.Keeps p q) → ∃ q x, c.newPlace p .after = .ok q
      ∧ c.Keeps p q ∧ doc.items[p]? = some x ∧ r.items[q]? = some x
      ∧ c.newPlace (p + 1) .before = .ok (q + 1)
      ∧ c.outline.inverse.newPlace q .after = .ok p := by
  have hobeys := hdoc.obeys
  have hitems : doc.items.length = c.length := hobeys.length_items.trans hlength
  obtain ⟨r, hr, hrObeys, hrItems⟩ := Revision.apply_spec hc.sound hobeys hlength.symm
  refine ⟨r, hr, ?_⟩
  rintro p ⟨q, hkeeps⟩
  have hlt : p < doc.items.length := hitems ▸ Reading.lt_length_of_keeps hc.sound hkeeps
  have hfound : r.items[q]? = doc.items[p]? := by
    rw [hrItems]
    exact Reading.getElem?_run_of_keeps hc.sound hkeeps hitems
  obtain ⟨hplace, hbehind⟩ := Change.locateFrom_of_keeps hkeeps
  have hback : c.outline.inverse.Keeps q p := by
    have hkeeps' : c.outline.Keeps p q := (Change.keeps_outline c p q).mpr hkeeps
    refine Change.KeepsFrom.inverse hkeeps' fun s hs => lt_signBound ?_
    have hwithin := (Outline.Obtainable.outline hc).within.1
    exact (le_sumBy Span.length hs).trans hwithin
  exact ⟨q, doc.items[p], Change.newPlace_of_locate hplace, hkeeps, List.getElem?_eq_getElem hlt,
    hfound.trans (List.getElem?_eq_getElem hlt), Change.newPlace_of_locate hbehind,
    Change.newPlace_of_locate (Change.locateFrom_of_keeps hback).1⟩

/-- The first of three characters, the last of which is removed. -/
theorem Revision.Obtainable.newPlace_follows_first_character :
    Rope.ofLines? ["abc"] = .ok (Rope.ofBlock ["abc"])
      ∧ ∃ r q x, (removeBehind 2).apply (Rope.ofBlock ["abc"]) = .ok r
        ∧ (removeBehind 2).newPlace 0 .after = .ok q ∧ (removeBehind 2).Keeps 0 q
        ∧ (Rope.ofBlock ["abc"]).items[0]? = some x ∧ r.items[q]? = some x
        ∧ (removeBehind 2).newPlace 1 .before = .ok (q + 1)
        ∧ (removeBehind 2).outline.inverse.newPlace q .after = .ok 0 := by
  have hfits : ∀ m ≤ 2 + 1, m ≤ lengthLimit := fun _ hm => Nat.le_trans hm (by decide)
  have hlines : Rope.ofLines? ["abc"] = .ok (Rope.ofBlock ["abc"]) := rfl
  have hdoc : Rope.Reachable (fun _ => True) (Rope.ofBlock ["abc"]) := .ofLines hlines
  have hkept : (removeBehind 2).Keeps 0 0 :=
    ⟨⟨0, 0, 2⟩, List.mem_cons_self, Nat.le_refl 0, Nat.two_pos, rfl⟩
  obtain ⟨r, hr, hfollows⟩ := Revision.Obtainable.newPlace_follows
    (obtainable_removeBehind (by decide) hfits) hdoc rfl
  obtain ⟨q, x, hplaces⟩ := hfollows 0 ⟨0, hkept⟩
  exact ⟨hlines, r, q, x, hr, hplaces⟩

/-- A revision that tells of one character in the place of the first, and inserts two. -/
def replaceFirst : Revision :=
  ⟨[⟨1, 1, Rope.ofBlock ["xy"]⟩, ⟨1, Span.keptMark, Rope.empty⟩]⟩

theorem obtainable_replaceShort : Revision.Obtainable (fun _ => True) (replaceShort 1) := by
  have hjoined : Revision.Obtainable (fun _ => True) (replaceShort 9223372036854775809) :=
    .andThen (obtainable_removeBehind (n := 9223372036854775808) (by decide) fun _ _ => trivial)
      (obtainable_insertPairBehind (by decide))
      (removeBehind_andThen_insertPairBehind (by decide) (by decide)) ⟨trivial, trivial⟩
  exact .rebase false hjoined
    (.outline (obtainable_keepLast (n := 9223372036854775808) (by decide)))
    (replaceShort_rebase_keepLast (by decide)) ⟨trivial, trivial⟩

/-- Rebased over an insertion behind its character, it keeps what is inserted there. -/
theorem obtainable_replaceFirst : Revision.Obtainable (fun _ => True) replaceFirst := by
  have hmake : (replaceShort 1).rebase (insertBehind 1).outline true = .ok replaceFirst := by cbv
  exact .rebase true obtainable_replaceShort
    (.outline (obtainable_insertBehind Nat.one_pos fun _ _ => trivial)) hmake ⟨trivial, trivial⟩

/-- A wrong count, which comes from 2⁶³ characters, leads to the character in front of the one that
is kept. -/
theorem Revision.Obtainable.not_newPlace_follows :
    ∃ doc, Rope.ofLines? ["pq"] = .ok doc ∧ doc.length = replaceFirst.length
      ∧ Revision.Obtainable (fun _ => True) replaceFirst ∧ replaceFirst.Keeps 1 1
      ∧ ∃ r, replaceFirst.apply doc = .ok r ∧ replaceFirst.newPlace 1 .after = .ok 1
        ∧ doc.items[1]? = some (some 'q') ∧ r.items[1]? = some (some 'y')
        ∧ r.items[2]? = some (some 'q') := by
  refine ⟨Rope.ofBlock ["pq"], rfl, rfl, obtainable_replaceFirst, ?_,
    Rope.ofBlock ["xyq"], by cbv, rfl, by cbv, by cbv, by cbv⟩
  exact ⟨⟨1, 1, 1⟩, List.mem_cons_self, Nat.le_refl 1, Nat.one_lt_two, rfl⟩

end TextRevision
