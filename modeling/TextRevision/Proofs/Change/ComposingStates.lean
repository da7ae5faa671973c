import Mathlib.Logic.Relation
import TextRevision.Proofs.Change.Moves

/-!
# The states of composition

The walk that puts one change behind another goes from state to state, each of its moves being one
step. Where all lengths of two changes are within a bound, every number in every state is: what is
left of the first change is made to a part of its document, and what the walk has found, together
with what it still has to find, leads from one document within the bound to another.

## Main definitions

- `Rest.Within`, `Span.Within`: numbers within a bound
- `Composing`, `Composing.Step`: the states of the walk, and its steps
- `Composing.Within`: a state of small numbers
- `Composing.Bounded`: what every state has in common

## Main statements

- `Change.Moves.steps`: moves are steps to the end of a walk
- `Composing.Step.bounded`: one step
- `Composing.bounded_of_reaches`: every state that steps lead to
-/

namespace TextRevision

variable {α : Type}

/-- All numbers of a span are within a bound, and its count is a mark or that of an insertion. -/
structure Span.Within (n : Nat) (s : Span α) : Prop where
  mark : keptMark ≤ s.count
  length : s.length ≤ n
  count : s.count ≤ n

/-- All numbers of what is left of a span are within a bound, and its count is a mark or that of an
insertion. -/
structure Rest.Within (n : Nat) (r : Rest α) : Prop where
  mark : Span.keptMark ≤ r.count
  length : r.length ≤ n
  count : r.count ≤ n
  passed : r.passed ≤ n

/-- A span among others that have few characters is within the bound. -/
theorem Span.Marked.within {n : Nat} {spans : List (Span α)} {s : Span α} (hs : s ∈ spans)
    (hmarked : s.Marked) (hlength : sumBy Span.length spans ≤ n)
    (hvolume : sumBy Span.volume spans ≤ n) : s.Within n where
  mark := hmarked.mark
  length := (le_sumBy Span.length hs).trans hlength
  count := by
    have hle : s.count.toNat ≤ n := (le_sumBy Span.volume hs).trans hvolume
    omega

/-- The walk that puts one change behind another, at one moment. -/
structure Composing (α : Type) where
  /-- What is left of the first change. -/
  first : List (Rest α)
  /-- What is left of the second change. -/
  second : List (Rest α)
  /-- Whether what comes next belongs to the run of the newest span. -/
  joined : Bool
  /-- The spans found, newest first. -/
  spans : List (Span α)

namespace Composing

variable [Insertion α]

/-- The start of a walk. -/
def start (c d : Change α) : Composing α :=
  ⟨c.spans.map Rest.ofSpan, d.spans.map Rest.ofSpan, false, []⟩

/-- One step of a walk: a deletion of the first change or an insertion of the second goes through,
or the two changes meet in as many characters as both have left. -/
inductive Step : Composing α → Composing α → Prop
  | deletion {a : Rest α} {as bs : List (Rest α)} {joined : Bool} {spans : List (Span α)} :
    a.count = 0 →
    Step ⟨a :: as, bs, joined, spans⟩
      ⟨as, bs, joined, Span.push joined spans ⟨a.length, 0, Insertion.empty⟩⟩
  | insertion {as : List (Rest α)} {b : Rest α} {bs : List (Rest α)} {joined : Bool}
    {spans : List (Span α)} :
    (∀ a ∈ as.head?, a.count ≠ 0) → b.length = 0 →
    Step ⟨as, b :: bs, joined, spans⟩
      ⟨as, bs, joined, Span.push joined spans ⟨0, b.count, b.text⟩⟩
  | meeting {a : Rest α} {as : List (Rest α)} {b : Rest α} {bs : List (Rest α)} {joined : Bool}
    {spans : List (Span α)} {len : Nat} :
    a.count ≠ 0 → 0 < b.length → len = min a.newLength b.length → 0 < len →
    Step ⟨a :: as, b :: bs, joined, spans⟩
      ⟨Rest.forwardNew len (a :: as), Rest.forward len (b :: bs),
        Change.staysOpen len a b
          && (joined || spans.length < (Span.push joined spans (Change.meet len a b)).length),
        Span.push joined spans (Change.meet len a b)⟩

/-- All numbers of a state are within a bound, and so is each place in a span where what the walk
takes of it ends. -/
structure Within (n : Nat) (w : Composing α) : Prop where
  first : ∀ a ∈ w.first, a.Within n ∧ a.passed + a.newLength ≤ n
  second : ∀ b ∈ w.second, b.Within n ∧ b.passed + b.length ≤ n
  spans : ∀ s ∈ w.spans, s.Within n

/-- A state that steps lead to. -/
abbrev Reaches : Composing α → Composing α → Prop :=
  Relation.ReflTransGen Step

/-- The number of characters of the last document that are still to be made of what is left of a
span of the second change. -/
def share (b : Rest α) : Nat :=
  if b.count < 0 then b.length else b.remainder.toNat

/-- What is left of a span of the first change, in documents of at most `n` characters. -/
structure First (n : Nat) (a : Rest α) : Prop extends a.MarkedFirst where
  length : a.length ≤ n
  passed : a.passed + a.newLength ≤ n

/-- What is left of a span of the second change, in documents of at most `n` characters. -/
structure Second (n : Nat) (b : Rest α) : Prop extends b.MarkedSecond where
  passed : b.passed + b.length ≤ n
  count : b.count ≤ n

/-- What all states of a walk between documents of at most `n` characters have in common. -/
structure Bounded (n : Nat) (w : Composing α) : Prop where
  first : ∀ a ∈ w.first, First n a
  second : ∀ b ∈ w.second, Second n b
  marked : ∀ s ∈ w.spans, s.Marked
  /-- The first document has the characters passed and the ones that are left. -/
  length : sumBy Span.length w.spans + sumBy (fun a => a.first.length) w.first ≤ n
  /-- The last document has the insertions found and the characters that are still to be made. -/
  volume : sumBy Span.volume w.spans + sumBy share w.second ≤ n

omit [Insertion α] in
theorem share_of_kept {b : Rest α} (h : b.count < 0) : share b = b.length :=
  if_pos h

omit [Insertion α] in
theorem share_of_put {b : Rest α} (h : 0 ≤ b.count) : share b = b.remainder.toNat :=
  if_neg (Int.not_lt.mpr h)

omit [Insertion α] in
theorem share_ofSpan (s : Span α) : share (Rest.ofSpan s) = s.newLength := by
  by_cases hkept : s.count < 0
  · exact (share_of_kept hkept).trans (Span.newLength_of_kept hkept).symm
  · have hput : 0 ≤ s.count := Int.not_lt.mp hkept
    rw [share_of_put hput, Reading.remainder_ofSpan, Span.newLength_of_put hput]

section Rests

variable {n len : Nat} {r : Rest α} {rs : List (Rest α)}

/-- Characters of the new document that are passed were left before. -/
theorem First.forwardNew (h : First n r) (hrs : ∀ t ∈ rs, First n t) (hpos : 0 < len)
    (hlen : len ≤ r.newLength) : ∀ t ∈ Rest.forwardNew len (r :: rs), First n t := by
  obtain ⟨hmarked, -⟩ :=
    h.toMarkedFirst.forwardNew (fun t ht => (hrs t ht).toMarkedFirst) hpos hlen
  have hlength := h.length
  have hpassed := h.passed
  rw [Rest.forwardNew] at hmarked ⊢
  split at hmarked
  · next hkept =>
    have hneg : r.count < 0 := hkept.trans_lt (by decide)
    rw [if_pos hkept]
    rw [Rest.newLength_of_kept hneg] at hlen hpassed
    rw [Rest.forward] at hmarked ⊢
    split at hmarked
    · next hall =>
      rw [if_pos hall]
      exact hrs
    · next hpart =>
      rw [if_neg hpart]
      have hrest : (Rest.mk (r.length - len) r.count r.text (r.passed + len)).count < 0 := hneg
      refine List.forall_mem_cons.mpr ⟨⟨hmarked _ List.mem_cons_self, ?_, ?_⟩, hrs⟩
      · exact (Nat.sub_le _ _).trans hlength
      · rw [Rest.newLength_of_kept hrest]
        dsimp only
        omega
  · next hkept =>
    rw [if_neg hkept]
    have hput : 0 ≤ r.count := by
      by_contra hneg
      exact hkept (h.toMarked.eq_keptMark (Int.not_le.mp hneg))
    rw [Rest.newLength_of_put hput] at hlen hpassed
    have hword : signedWord len = len := signedWord_of_lt (by have := h.small; omega)
    split at hmarked
    · next hall =>
      rw [if_pos hall]
      exact hrs
    · next hpart =>
      rw [if_neg hpart]
      refine List.forall_mem_cons.mpr ⟨⟨hmarked _ List.mem_cons_self, hlength, ?_⟩, hrs⟩
      rw [Rest.newLength_of_put (by dsimp only; omega)]
      dsimp only
      omega

omit [Insertion α] in
/-- Characters of the old document that are passed were left before. -/
theorem Second.forward (h : Second n r) (hrs : ∀ t ∈ rs, Second n t) (hlen : len ≤ r.length) :
    ∀ t ∈ Rest.forward len (r :: rs), Second n t := by
  have hmarked := h.toMarkedSecond.forward (fun t ht => (hrs t ht).toMarkedSecond) hlen
  have hpassed := h.passed
  rw [Rest.forward] at hmarked ⊢
  split at hmarked
  · next hall =>
    rw [if_pos hall]
    exact hrs
  · next hpart =>
    rw [if_neg hpart]
    refine List.forall_mem_cons.mpr ⟨⟨hmarked _ List.mem_cons_self, ?_, h.count⟩, hrs⟩
    dsimp only
    omega

/-- A meeting inserts no more than what the second change has left to make. -/
theorem volume_meet_share {a b : Rest α} (bs : List (Rest α)) (ha : a.MarkedFirst)
    (hb : b.MarkedSecond) (hpos : 0 < len) (hlenA : len ≤ a.newLength) (hlenB : len ≤ b.length) :
    (Change.meet len a b).volume + sumBy share (Rest.forward len (b :: bs))
      ≤ sumBy share (b :: bs) := by
  rw [Rest.forward, sumBy_cons]
  by_cases hkept : b.count < 0
  · -- A kept run makes the characters in which it is met.
    have hvolume : (Change.meet len a b).volume ≤ len := by
      have hle := Change.volume_meet_le ha hb hlenA
      rw [Reading.remainder_of_kept (hb.toMarked.eq_keptMark hkept)] at hle
      split at hle
      · exact hle.trans (Nat.zero_le _)
      · exact hle
    rw [share_of_kept hkept]
    split
    · omega
    · have hrest : (Rest.mk (b.length - len) b.count b.text (b.passed + len)).count < 0 := hkept
      rw [sumBy_cons, share_of_kept hrest]
      dsimp only
      omega
  · -- A replaced run makes all of its insertion at the first meeting.
    have hput : 0 ≤ b.count := Int.not_lt.mp hkept
    have hvolume : (Change.meet len a b).volume ≤ b.remainder.toNat := by
      by_cases hakept : a.count < 0
      · rw [Reading.meet_of_kept (ha.toMarked.eq_keptMark hakept)]
        exact Nat.le_refl _
      · rw [Reading.meet_of_put_put (Int.not_lt.mp hakept) hput]
        exact Nat.le_refl _
    rw [share_of_put hput]
    split
    · omega
    · have hrest : 0 ≤ (Rest.mk (b.length - len) b.count b.text (b.passed + len)).count := hput
      have hnothing : share ⟨b.length - len, b.count, b.text, b.passed + len⟩ = 0 := by
        rw [share_of_put hrest, Reading.remainder_passed (Nat.add_pos_right _ hpos),
          if_neg (Reading.count_ne_keptMark hrest)]
        rfl
      rw [sumBy_cons, hnothing]
      omega

end Rests

variable {n : Nat} {v w : Composing α}

/-- One step leaves all numbers within the bound. -/
theorem Step.bounded (h : Step v w) (hv : v.Bounded n) : w.Bounded n := by
  obtain ⟨hfirst, hsecond, hmarked, hlength, hvolume⟩ := hv
  cases h with
  | @deletion a as bs joined spans hzero =>
    obtain ⟨hahead, has⟩ := List.forall_mem_cons.mp hfirst
    have hpushing := Span.pushing joined spans (⟨a.length, 0, Insertion.empty⟩ : Span α)
    have hpushedVolume := hpushing.volume_le
    have hpassed : ¬ 0 < a.passed := fun hopen => by
      have := hahead.left (by omega) hopen
      omega
    have hwhole : a.first.length = a.length := if_neg fun h => hpassed h.2
    rw [sumBy_cons, hwhole] at hlength
    refine ⟨has, hsecond, hpushing.marked hmarked (show Span.keptMark ≤ 0 by decide), ?_, ?_⟩
    · rw [hpushing.length_eq]
      dsimp only at hlength ⊢
      omega
    · exact (Nat.add_le_add_right hpushedVolume _).trans hvolume
  | @insertion as b bs joined spans hhead hzero =>
    obtain ⟨hbhead, hbs⟩ := List.forall_mem_cons.mp hsecond
    have hpushing := Span.pushing joined spans (⟨0, b.count, b.text⟩ : Span α)
    have hpushedVolume := hpushing.volume_le
    have hmakes : share b = b.count.toNat := by
      rw [share]
      split
      · next hkept => rw [hzero, Int.toNat_of_nonpos (Int.le_of_lt hkept)]
      · rw [hbhead.remainder_eq hzero]
    rw [sumBy_cons, hmakes] at hvolume
    refine ⟨hfirst, hbs, hpushing.marked hmarked hbhead.mark, ?_, ?_⟩
    · rw [hpushing.length_eq]
      exact hlength
    · simp only [Span.volume] at hpushedVolume hvolume ⊢
      omega
  | @meeting a as b bs joined spans len hcount hlengthB hlen hpos =>
    obtain ⟨hahead, has⟩ := List.forall_mem_cons.mp hfirst
    obtain ⟨hbhead, hbs⟩ := List.forall_mem_cons.mp hsecond
    have hlenA : len ≤ a.newLength := hlen ▸ Nat.min_le_left _ _
    have hlenB : len ≤ b.length := hlen ▸ Nat.min_le_right _ _
    have hpushing := Span.pushing joined spans (Change.meet len a b)
    have hpushedVolume := hpushing.volume_le
    obtain ⟨-, -, hold, -⟩ := hahead.toMarkedFirst.forwardNew
      (fun t ht => (has t ht).toMarkedFirst) hpos hlenA
    have hmade := volume_meet_share bs hahead.toMarkedFirst hbhead.toMarkedSecond hpos hlenA hlenB
    refine ⟨hahead.forwardNew has hpos hlenA, hbhead.forward hbs hlenB,
      hpushing.marked hmarked
        (Change.keptMark_le_meet hahead.toMarkedFirst hbhead.toMarkedSecond hlenA), ?_, ?_⟩
    · rw [hpushing.length_eq, Change.length_meet hahead.toMarkedFirst]
      dsimp only at hlength ⊢
      omega
    · dsimp only at hvolume ⊢
      omega

/-- Every state that steps lead to has its numbers within the bound. -/
theorem bounded_of_reaches (h : Reaches v w) (hv : v.Bounded n) : w.Bounded n := by
  induction h with
  | refl => exact hv
  | tail _ hstep ih => exact hstep.bounded ih

theorem bounded_start {c d : Change α} (hc : ∀ s ∈ c.spans, s.Marked)
    (hd : ∀ s ∈ d.spans, s.Marked) (hn : n < signBound) (hlength : c.length ≤ n)
    (hmiddle : c.newLength ≤ n) (hmiddle' : d.length ≤ n) (hnew : d.newLength ≤ n) :
    (start c d).Bounded n where
  first a ha := by
    obtain ⟨s, hs, rfl⟩ := List.mem_map.mp ha
    have hnewLength : s.newLength ≤ n := (le_sumBy Span.newLength hs).trans hmiddle
    have hsmall : s.count < signBound := by
      have hvolume := s.volume_le_newLength
      simp only [Span.volume] at hvolume
      omega
    refine ⟨(hc s hs).first hsmall, (le_sumBy Span.length hs).trans hlength, ?_⟩
    rw [Reading.newLength_ofSpan]
    exact (Nat.zero_add _).trans_le hnewLength
  second b hb := by
    obtain ⟨s, hs, rfl⟩ := List.mem_map.mp hb
    have hle : s.length ≤ n := (le_sumBy Span.length hs).trans hmiddle'
    have hnewLength : s.newLength ≤ n := (le_sumBy Span.newLength hs).trans hnew
    have hvolume := s.volume_le_newLength
    refine ⟨(hd s hs).second, (Nat.zero_add _).trans_le hle, ?_⟩
    change s.count ≤ n
    simp only [Span.volume] at hvolume
    omega
  marked s hs := absurd hs List.not_mem_nil
  length := by
    rw [start, sumBy_nil, Nat.zero_add, Reading.sumBy_length_first]
    exact hlength
  volume := by
    rw [start, sumBy_nil, Nat.zero_add, sumBy_map, sumBy_congr _ fun s _ => share_ofSpan s]
    exact hnew

/-- What all states have in common leaves no number of a state outside the bound. -/
theorem Bounded.within (h : w.Bounded n) : w.Within n := by
  refine ⟨fun a ha => ?_, fun b hb => ?_, fun s hs => ?_⟩
  · have hfirst := h.first a ha
    have hpassed := hfirst.passed
    refine ⟨⟨hfirst.mark, hfirst.length, ?_, (Nat.le_add_right _ _).trans hpassed⟩, hpassed⟩
    by_cases hkept : a.count < 0
    · omega
    · rw [Rest.newLength_of_put (Int.not_lt.mp hkept)] at hpassed
      omega
  · have hsecond := h.second b hb
    have hpassed := hsecond.passed
    exact ⟨⟨hsecond.mark, by omega, hsecond.count, by omega⟩, hpassed⟩
  · exact (h.marked s hs).within hs ((Nat.le_add_right _ _).trans h.length)
      ((Nat.le_add_right _ _).trans h.volume)


end Composing

/-- The moves of a walk are steps to its end. -/
theorem Change.Moves.steps [Insertion α] {as bs : List (Rest α)} {joined : Bool}
    {spans out : List (Span α)} (h : Moves as bs joined spans out) :
    ∃ last, Composing.Reaches ⟨as, bs, joined, spans⟩ ⟨[], [], last, out.reverse⟩ := by
  induction h with
  | done =>
    rw [List.reverse_reverse]
    exact ⟨_, .refl⟩
  | deletion hzero _ ih =>
    obtain ⟨last, hrest⟩ := ih
    exact ⟨last, .head (.deletion hzero) hrest⟩
  | insertion hhead hzero _ ih =>
    obtain ⟨last, hrest⟩ := ih
    exact ⟨last, .head (.insertion hhead hzero) hrest⟩
  | meeting hcount hlength hlen hpos _ ih =>
    obtain ⟨last, hrest⟩ := ih
    exact ⟨last, .head (.meeting hcount hlength hlen hpos) hrest⟩

end TextRevision
