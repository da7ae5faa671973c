import TextRevision.Proofs.Change.ComposingStates
import TextRevision.Proofs.Change.Turns

/-!
# The states of rebasing

The walk that rebases one change over another goes from state to state. Between two runs it takes
kept characters off both changes, or goes on with a replaced run of one of them: behind a run of the
other change it takes off what that one removes, and with a run of its own it passes what the other
change keeps. Every number in every state is within a bound that the lengths of both changes are
within. What the walk has found is made to a part of the document that the other change leads to,
and inserts no more than the first change does.

That is so also where there is no room for both changes: the numbers of the spans that are found are
small, and only their sum may be too large.

## Main definitions

- `Rebasing`, `Rebasing.Step`: the states of the walk, and its steps
- `Rebasing.Within`: a state of small numbers
- `Rebasing.Bounded`: what every state has in common

## Main statements

- `Rebasing.Step.bounded`: one step
- `Rebasing.bounded_of_reaches`: every state that steps lead to
- `Rebasing.exists_steps`: the turns of the walk are steps to its end
-/

namespace TextRevision

variable {α β : Type}

/-- What the walk that rebases a change is at. -/
inductive Rebasing.Stage where
  /-- Between two runs. -/
  | between
  /-- Behind a replaced run of the other change, of which `len` characters are to be taken off. -/
  | absorbing (len : Nat)
  /-- In a replaced run of the change, which has `left` characters left and of which the other
  change keeps `kept` so far. -/
  | passing (kept left : Nat)
  deriving DecidableEq, Repr

/-- The walk that rebases a change over another, at one moment. -/
structure Rebasing (α β : Type) where
  /-- What is left of the change. -/
  first : List (Rest α)
  /-- Whether the insertion of the first run that is left was told. -/
  told : Bool
  /-- What is left of the other change. -/
  second : List (Rest β)
  /-- The spans found, newest first. -/
  spans : List (Span α)
  stage : Rebasing.Stage

namespace Rebasing

section Walk

variable [Insertion α]

/-- The start of a walk. -/
def start (c : Change α) (d : Change β) : Rebasing α β :=
  ⟨c.spans.map Rest.ofSpan, false, d.spans.map Rest.ofSpan, [], .between⟩

/-- What a replaced run comes to of which the other change keeps `kept` characters. -/
def replaced (told : Bool) (kept : Nat) (a : Rest α) : Span α :=
  if told then ⟨kept, 0, Insertion.empty⟩ else ⟨kept, a.count, a.text⟩

/-- One step of a walk. -/
inductive Step (before : Bool) : Rebasing α β → Rebasing α β → Prop
  /-- An insertion of the other change at the end of the document. -/
  | keepLast {told : Bool} {b : Rest β} {bs : List (Rest β)} {spans : List (Span α)} :
    b.length = 0 → 0 ≤ b.count →
    Step before ⟨[], told, b :: bs, spans, .between⟩
      ⟨[], told, bs, Span.push false spans (.keep b.count.toNat), .between⟩
  /-- An insertion of the change at the end of the document. -/
  | putLast {a : Rest α} {as : List (Rest α)} {told : Bool} {spans : List (Span α)} :
    a.length = 0 → 0 ≤ a.count →
    Step before ⟨a :: as, told, [], spans, .between⟩
      ⟨as, false, [], if told then spans else Span.push false spans ⟨0, a.count, a.text⟩, .between⟩
  /-- Both changes keep the next characters, to the end of the run of the first. -/
  | keepFirst {a : Rest α} {as : List (Rest α)} {told : Bool} {b : Rest β} {bs : List (Rest β)}
    {spans : List (Span α)} :
    a.count = Span.keptMark → b.count = Span.keptMark → a.length ≤ b.length →
    Step before ⟨a :: as, told, b :: bs, spans, .between⟩
      ⟨as, false, Rest.forward a.length (b :: bs), Span.push false spans (.keep a.length), .between⟩
  /-- Both changes keep the next characters, to the end of the run of the other. -/
  | keepSecond {a : Rest α} {as : List (Rest α)} {told : Bool} {b : Rest β} {bs : List (Rest β)}
    {spans : List (Span α)} :
    a.count = Span.keptMark → b.count = Span.keptMark → b.length < a.length →
    Step before ⟨a :: as, told, b :: bs, spans, .between⟩
      ⟨Rest.forward b.length (a :: as), told, bs, Span.push false spans (.keep b.length), .between⟩
  /-- A replaced run of the other change comes first, and its insertion is kept. -/
  | yields {a : Rest α} {as : List (Rest α)} {told : Bool} {b : Rest β} {bs : List (Rest β)}
    {spans : List (Span α)} :
    0 ≤ b.count → Change.yieldsTo before b.length told a = true →
    Step before ⟨a :: as, told, b :: bs, spans, .between⟩
      ⟨a :: as, told, bs, Span.push false spans (.keep b.count.toNat), .absorbing b.length⟩
  /-- A run ends among the characters that the other change removed. -/
  | absorbAll {a : Rest α} {as : List (Rest α)} {told : Bool} {bs : List (Rest β)}
    {spans : List (Span α)} {len : Nat} :
    0 < len → a.length ≤ len →
    Step before ⟨a :: as, told, bs, spans, .absorbing len⟩
      ⟨as, false, bs,
        if 0 ≤ a.count ∧ !told then Span.push false spans ⟨0, a.count, a.text⟩ else spans,
        .absorbing (len - a.length)⟩
  /-- The characters that the other change removed end in a run. -/
  | absorbPart {a : Rest α} {as : List (Rest α)} {told : Bool} {bs : List (Rest β)}
    {spans : List (Span α)} {len : Nat} :
    0 < len → len < a.length →
    Step before ⟨a :: as, told, bs, spans, .absorbing len⟩
      ⟨Rest.forward len (a :: as), told, bs, spans, .between⟩
  | absorbed {as : List (Rest α)} {told : Bool} {bs : List (Rest β)} {spans : List (Span α)} :
    Step before ⟨as, told, bs, spans, .absorbing 0⟩ ⟨as, told, bs, spans, .between⟩
  /-- A replaced run of the change comes first. -/
  | replaces {a : Rest α} {as : List (Rest α)} {told : Bool} {b : Rest β} {bs : List (Rest β)}
    {spans : List (Span α)} :
    ¬ (0 ≤ b.count ∧ Change.yieldsTo before b.length told a = true) → 0 ≤ a.count →
    Step before ⟨a :: as, told, b :: bs, spans, .between⟩
      ⟨a :: as, told, b :: bs, spans, .passing 0 a.length⟩
  | passKept {as : List (Rest α)} {told : Bool} {b : Rest β} {bs : List (Rest β)}
    {spans : List (Span α)} {kept left : Nat} :
    0 < left → b.count = Span.keptMark →
    Step before ⟨as, told, b :: bs, spans, .passing kept left⟩
      ⟨as, told, Rest.forward (min left b.length) (b :: bs), spans,
        .passing (kept + min left b.length) (left - min left b.length)⟩
  | passDeletion {as : List (Rest α)} {told : Bool} {b : Rest β} {bs : List (Rest β)}
    {spans : List (Span α)} {kept left : Nat} :
    0 < left → b.count = 0 → b.length < left →
    Step before ⟨as, told, b :: bs, spans, .passing kept left⟩
      ⟨as, told, bs, spans, .passing kept (left - b.length)⟩
  /-- A replaced run was passed to its end. -/
  | passed {a : Rest α} {as : List (Rest α)} {told : Bool} {bs : List (Rest β)}
    {spans : List (Span α)} {kept : Nat} :
    Step before ⟨a :: as, told, bs, spans, .passing kept 0⟩
      ⟨as, false, bs, Span.push false spans (replaced told kept a), .between⟩
  /-- A replaced run was passed to one of the other change. -/
  | stopped {a : Rest α} {as : List (Rest α)} {told : Bool} {bs : List (Rest β)}
    {spans : List (Span α)} {kept left : Nat} :
    0 < left → (∀ b ∈ bs.head?, b.count ≠ Span.keptMark ∧ ¬ (b.count = 0 ∧ b.length < left)) →
    Step before ⟨a :: as, told, bs, spans, .passing kept left⟩
      ⟨Rest.forward (a.length - left) (a :: as), true, bs,
        Span.push false spans (replaced told kept a), .between⟩

/-- A state that steps lead to. -/
abbrev Reaches (before : Bool) : Rebasing α β → Rebasing α β → Prop :=
  Relation.ReflTransGen (Step before)

end Walk

/-- How many characters the other change keeps of the run that is being passed. -/
def Stage.kept : Stage → Nat
  | passing kept _ => kept
  | _ => 0

/-- How many characters are still to be taken off or to be passed. -/
def Stage.left : Stage → Nat
  | between => 0
  | absorbing len => len
  | passing _ left => left

/-- All numbers of a state are within a bound, and so is each place in a span where what the walk
takes of it ends. -/
structure Within (n : Nat) (w : Rebasing α β) : Prop where
  first : ∀ a ∈ w.first, a.Within n ∧ a.passed + a.length ≤ n
  second : ∀ b ∈ w.second, b.Within n ∧ b.passed + b.length ≤ n
  spans : ∀ s ∈ w.spans, s.Within n
  kept : w.stage.kept ≤ n
  left : w.stage.left ≤ n

/-- A run that is being passed has as many characters as are left of it. -/
def Stage.Fits (as : List (Rest α)) : Stage → Prop
  | passing _ left => ∀ a ∈ as.head?, left ≤ a.length
  | _ => True

/-- The number of characters that are still to be inserted. -/
def untold (told : Bool) : List (Rest α) → Nat
  | [] => 0
  | a :: as => (if told then 0 else a.count.toNat) + sumBy (fun a => a.count.toNat) as

/-- What is left of a span, in documents of at most `n` characters. -/
structure Part (n : Nat) (r : Rest α) : Prop where
  mark : Span.keptMark ≤ r.count
  count : r.count ≤ n
  passed : r.passed + r.length ≤ n

/-- What all states of a walk over changes of documents of at most `n` characters have in common. -/
structure Bounded (n : Nat) (w : Rebasing α β) : Prop where
  first : ∀ a ∈ w.first, Part n a
  second : ∀ b ∈ w.second, Part n b
  marked : ∀ s ∈ w.spans, s.Marked
  left : w.stage.left ≤ n
  fits : w.stage.Fits w.first
  /-- The document that the other change leads to has the characters passed and the ones left. -/
  length : sumBy Span.length w.spans + w.stage.kept + sumBy Rest.newLength w.second ≤ n
  /-- The insertions found and the ones that are left are those of the change. -/
  volume : sumBy Span.volume w.spans + untold w.told w.first ≤ n

section Rests

variable {n len : Nat} {r : Rest α} {rs : List (Rest α)}

theorem untold_false (rs : List (Rest α)) :
    untold false rs = sumBy (fun a => a.count.toNat) rs := by
  cases rs with
  | nil => rfl
  | cons r rs => rfl

theorem untold_true (r : Rest α) (rs : List (Rest α)) :
    untold true (r :: rs) = sumBy (fun a => a.count.toNat) rs :=
  Nat.zero_add _

/-- The runs behind the first one insert no more than all of them. -/
theorem untold_tail_le (told : Bool) (r : Rest α) (rs : List (Rest α)) :
    untold false rs ≤ untold told (r :: rs) := by
  rw [untold_false, untold]
  exact Nat.le_add_left _ _

/-- A run of which some characters are left has the insertion that it had. -/
theorem untold_forward (told : Bool) (hlen : len ≠ r.length) :
    untold told (Rest.forward len (r :: rs)) = untold told (r :: rs) := by
  rw [Rest.forward, if_neg hlen]
  rfl

theorem Part.forward (h : Part n r) (hrs : ∀ t ∈ rs, Part n t) (hlen : len ≤ r.length) :
    ∀ t ∈ Rest.forward len (r :: rs), Part n t := by
  have hpassed := h.passed
  rw [Rest.forward]
  split
  · exact hrs
  · refine List.forall_mem_cons.mpr ⟨⟨h.mark, h.count, ?_⟩, hrs⟩
    dsimp only
    omega

/-- Kept characters that are taken off a change are not made any more. -/
theorem newLength_forward (rs : List (Rest α)) (hkept : r.count = Span.keptMark)
    (hlen : len ≤ r.length) :
    sumBy Rest.newLength (Rest.forward len (r :: rs)) + len = sumBy Rest.newLength (r :: rs) := by
  have hneg : r.count < 0 := hkept.trans_lt (by decide)
  rw [Rest.forward, sumBy_cons, Rest.newLength_of_kept hneg]
  split
  · omega
  · have hrest : (Rest.mk (r.length - len) r.count r.text (r.passed + len)).count < 0 := hneg
    rw [sumBy_cons, Rest.newLength_of_kept hrest]
    dsimp only
    omega

/-- The insertion of the first run and those behind it are the ones of all runs. -/
theorem volume_add_untold (r : Rest α) (rs : List (Rest α)) :
    (⟨0, r.count, r.text⟩ : Span α).volume + untold false rs = untold false (r :: rs) := by
  rw [untold_false, untold_false, sumBy_cons]
  rfl

theorem volume_replaced [Insertion α] (told : Bool) (kept : Nat) (a : Rest α) :
    (replaced told kept a).volume = if told then 0 else a.count.toNat := by
  cases told with
  | true => rfl
  | false => rfl

theorem length_replaced [Insertion α] (told : Bool) (kept : Nat) (a : Rest α) :
    (replaced told kept a).length = kept := by
  cases told with
  | true => rfl
  | false => rfl

theorem keptMark_le_replaced [Insertion α] (told : Bool) (kept : Nat) {a : Rest α}
    (ha : Span.keptMark ≤ a.count) : Span.keptMark ≤ (replaced told kept a).count := by
  cases told with
  | true => exact show Span.keptMark ≤ 0 by decide
  | false => exact ha

end Rests

section Steps

variable [Insertion α] {n : Nat} {before : Bool} {v w : Rebasing α β}

/-- One span more, as far as its numbers go. -/
theorem Bounded.push {as : List (Rest α)} {told : Bool} {bs : List (Rest β)} {spans : List (Span α)}
    {s : Span α} {stage : Stage} (hfirst : ∀ a ∈ as, Part n a) (hsecond : ∀ b ∈ bs, Part n b)
    (hmarked : ∀ t ∈ spans, t.Marked) (hs : Span.keptMark ≤ s.count) (hleft : stage.left ≤ n)
    (hfits : stage.Fits as)
    (hlength : sumBy Span.length spans + s.length + stage.kept + sumBy Rest.newLength bs ≤ n)
    (hvolume : sumBy Span.volume spans + s.volume + untold told as ≤ n) :
    Bounded n ⟨as, told, bs, Span.push false spans s, stage⟩ where
  first := hfirst
  second := hsecond
  marked := (Span.pushing false spans s).marked hmarked hs
  left := hleft
  fits := hfits
  length := by
    dsimp only
    rw [(Span.pushing false spans s).length_eq]
    exact hlength
  volume := (Nat.add_le_add_right (Span.pushing false spans s).volume_le _).trans hvolume

/-- One kept run more. -/
theorem Bounded.keep {as : List (Rest α)} {told : Bool} {bs : List (Rest β)} {spans : List (Span α)}
    {k : Nat} {stage : Stage} (hfirst : ∀ a ∈ as, Part n a) (hsecond : ∀ b ∈ bs, Part n b)
    (hmarked : ∀ t ∈ spans, t.Marked) (hleft : stage.left ≤ n) (hfits : stage.Fits as)
    (hlength : sumBy Span.length spans + k + stage.kept + sumBy Rest.newLength bs ≤ n)
    (hvolume : sumBy Span.volume spans + untold told as ≤ n) :
    Bounded n ⟨as, told, bs, Span.push false spans (.keep k), stage⟩ :=
  .push hfirst hsecond hmarked (Int.le_refl _) hleft hfits hlength hvolume

/-- One step leaves all numbers within the bound. -/
theorem Step.bounded (h : Step before v w) (hv : v.Bounded n) : w.Bounded n := by
  obtain ⟨hfirst, hsecond, hmarked, hleft, hfits, hlength, hvolume⟩ := hv
  cases h with
  | @keepLast told b bs spans hzero hput =>
    obtain ⟨-, hbs⟩ := List.forall_mem_cons.mp hsecond
    rw [sumBy_cons, Rest.newLength_of_put hput] at hlength
    refine Bounded.keep hfirst hbs hmarked (Nat.zero_le n) trivial ?_ hvolume
    simp only [Stage.kept] at hlength ⊢
    omega
  | @putLast a as told spans hzero hput =>
    obtain ⟨hahead, has⟩ := List.forall_mem_cons.mp hfirst
    cases told with
    | true =>
      refine ⟨has, hsecond, hmarked, Nat.zero_le n, trivial, hlength, ?_⟩
      exact (Nat.add_le_add_left (untold_tail_le true a as) _).trans hvolume
    | false =>
      refine Bounded.push has hsecond hmarked hahead.mark (Nat.zero_le n) trivial hlength ?_
      rw [Nat.add_assoc, volume_add_untold]
      exact hvolume
  | @keepFirst a as told b bs spans hkept hbkept hle =>
    obtain ⟨-, has⟩ := List.forall_mem_cons.mp hfirst
    obtain ⟨hbhead, hbs⟩ := List.forall_mem_cons.mp hsecond
    have hmade := newLength_forward bs hbkept hle
    refine Bounded.keep has (hbhead.forward hbs hle) hmarked (Nat.zero_le n) trivial ?_
      ((Nat.add_le_add_left (untold_tail_le told a as) _).trans hvolume)
    simp only [Stage.kept] at hlength ⊢
    omega
  | @keepSecond a as told b bs spans hkept hbkept hlt =>
    obtain ⟨hahead, has⟩ := List.forall_mem_cons.mp hfirst
    obtain ⟨hbhead, hbs⟩ := List.forall_mem_cons.mp hsecond
    have hneg : b.count < 0 := hbkept.trans_lt (by decide)
    rw [sumBy_cons, Rest.newLength_of_kept hneg] at hlength
    refine Bounded.keep (hahead.forward has (Nat.le_of_lt hlt)) hbs hmarked (Nat.zero_le n) trivial
      ?_ ?_
    · simp only [Stage.kept] at hlength ⊢
      omega
    · rw [untold_forward told (Nat.ne_of_lt hlt)]
      exact hvolume
  | @yields a as told b bs spans hput hyields =>
    obtain ⟨hbhead, hbs⟩ := List.forall_mem_cons.mp hsecond
    rw [sumBy_cons, Rest.newLength_of_put hput] at hlength
    refine Bounded.keep hfirst hbs hmarked ((Nat.le_add_left _ _).trans hbhead.passed) trivial ?_
      hvolume
    simp only [Stage.kept] at hlength ⊢
    omega
  | @absorbAll a as told bs spans len hpos hle =>
    obtain ⟨hahead, has⟩ := List.forall_mem_cons.mp hfirst
    have hless : len - a.length ≤ n := (Nat.sub_le _ _).trans hleft
    split
    · next hputs =>
      obtain rfl : told = false := by simpa using hputs.2
      refine Bounded.push has hsecond hmarked hahead.mark hless trivial hlength ?_
      rw [Nat.add_assoc, volume_add_untold]
      exact hvolume
    · refine ⟨has, hsecond, hmarked, hless, trivial, hlength, ?_⟩
      exact (Nat.add_le_add_left (untold_tail_le told a as) _).trans hvolume
  | @absorbPart a as told bs spans len hpos hlt =>
    obtain ⟨hahead, has⟩ := List.forall_mem_cons.mp hfirst
    refine ⟨hahead.forward has (Nat.le_of_lt hlt), hsecond, hmarked, Nat.zero_le n, trivial,
      hlength, ?_⟩
    dsimp only
    rw [untold_forward told (Nat.ne_of_lt hlt)]
    exact hvolume
  | absorbed => exact ⟨hfirst, hsecond, hmarked, Nat.zero_le n, trivial, hlength, hvolume⟩
  | @replaces a as told b bs spans hyields hput =>
    have hahead := hfirst a List.mem_cons_self
    refine ⟨hfirst, hsecond, hmarked, (Nat.le_add_left _ _).trans hahead.passed, ?_, hlength,
      hvolume⟩
    rintro _ ⟨⟩
    exact Nat.le_refl _
  | @passKept as told b bs spans kept left hpos hbkept =>
    obtain ⟨hbhead, hbs⟩ := List.forall_mem_cons.mp hsecond
    have hmade := newLength_forward bs hbkept (Nat.min_le_right left b.length)
    refine ⟨hfirst, hbhead.forward hbs (Nat.min_le_right _ _), hmarked,
      (Nat.sub_le _ _).trans hleft, ?_, ?_, hvolume⟩
    · exact fun a ha => (Nat.sub_le _ _).trans (hfits a ha)
    · simp only [Stage.kept] at hlength ⊢
      omega
  | @passDeletion as told b bs spans kept left hpos hzero hlt =>
    obtain ⟨hbhead, hbs⟩ := List.forall_mem_cons.mp hsecond
    rw [sumBy_cons, Reading.newLength_deletion hzero, Nat.zero_add] at hlength
    exact ⟨hfirst, hbs, hmarked, (Nat.sub_le _ _).trans hleft,
      fun a ha => (Nat.sub_le _ _).trans (hfits a ha), hlength, hvolume⟩
  | @passed a as told bs spans kept =>
    obtain ⟨hahead, has⟩ := List.forall_mem_cons.mp hfirst
    refine Bounded.push has hsecond hmarked (keptMark_le_replaced told kept hahead.mark)
      (Nat.zero_le n) trivial ?_ ?_
    · rw [length_replaced]
      exact hlength
    · rw [volume_replaced, untold_false, Nat.add_assoc]
      exact hvolume
  | @stopped a as told bs spans kept left hpos hstop =>
    obtain ⟨hahead, has⟩ := List.forall_mem_cons.mp hfirst
    have hle : left ≤ a.length := hfits a rfl
    refine Bounded.push (hahead.forward has (Nat.sub_le _ _)) hsecond hmarked
      (keptMark_le_replaced told kept hahead.mark) (Nat.zero_le n) trivial ?_ ?_
    · rw [length_replaced]
      exact hlength
    · rw [untold_forward true (by omega), untold_true, volume_replaced, Nat.add_assoc]
      exact hvolume

/-- Every state that steps lead to has its numbers within the bound. -/
theorem bounded_of_reaches (h : Reaches before v w) (hv : v.Bounded n) : w.Bounded n := by
  induction h with
  | refl => exact hv
  | tail _ hstep ih => exact hstep.bounded ih

omit [Insertion α] in
theorem bounded_start {c : Change α} {d : Change β} (hlength : c.length ≤ n)
    (hvolume : c.volume ≤ n) (hlength' : d.length ≤ n) (hnew : d.newLength ≤ n)
    (hc : ∀ s ∈ c.spans, s.Marked) (hd : ∀ s ∈ d.spans, s.Marked) : (start c d).Bounded n where
  first a ha := by
    obtain ⟨s, hs, rfl⟩ := List.mem_map.mp ha
    have hle : s.length ≤ n := (le_sumBy Span.length hs).trans hlength
    have hcount : s.count.toNat ≤ n := (le_sumBy Span.volume hs).trans hvolume
    exact ⟨(hc s hs).mark, Int.toNat_le.mp hcount, (Nat.zero_add _).trans_le hle⟩
  second b hb := by
    obtain ⟨s, hs, rfl⟩ := List.mem_map.mp hb
    have hle : s.length ≤ n := (le_sumBy Span.length hs).trans hlength'
    have hcount : s.count.toNat ≤ n :=
      s.volume_le_newLength.trans ((le_sumBy Span.newLength hs).trans hnew)
    exact ⟨(hd s hs).mark, Int.toNat_le.mp hcount, (Nat.zero_add _).trans_le hle⟩
  marked s hs := absurd hs List.not_mem_nil
  left := Nat.zero_le n
  fits := trivial
  length := by
    rw [start, sumBy_nil, Change.sumBy_newLength_ofSpan]
    exact (Nat.zero_add _).trans_le hnew
  volume := by
    rw [start, sumBy_nil, untold_false, sumBy_map]
    exact (Nat.zero_add _).trans_le hvolume

theorem Part.within {γ : Type} {r : Rest γ} (h : Part n r) :
    r.Within n ∧ r.passed + r.length ≤ n := by
  have hpassed := h.passed
  exact ⟨⟨h.mark, by omega, h.count, by omega⟩, hpassed⟩

omit [Insertion α] in
/-- What all states have in common leaves no number of a state outside the bound. -/
theorem Bounded.within (h : w.Bounded n) : w.Within n where
  first a ha := (h.first a ha).within
  second b hb := (h.second b hb).within
  spans s hs := by
    have hlength := h.length
    have hvolume := h.volume
    exact (h.marked s hs).within hs (by omega) (by omega)
  kept := by
    have hlength := h.length
    omega
  left := h.left

/-- Taking characters off a change that the other removed is a run of steps. -/
theorem absorb_steps {as as' : List (Rest α)} {told told' : Bool} {len : Nat}
    {spans spans' : List (Span α)} (bs : List (Rest β))
    (h : Change.absorb as told len spans = some (as', told', spans')) :
    Reaches before ⟨as, told, bs, spans, .absorbing len⟩ ⟨as', told', bs, spans', .between⟩ := by
  fun_induction Change.absorb as told len spans with
  | case1 as told spans =>
    obtain ⟨rfl, rfl, rfl⟩ : as = as' ∧ told = told' ∧ spans = spans' := by simpa using h
    exact .single .absorbed
  | case2 => cases h
  | case3 a as told len spans hle ih => exact .head (.absorbAll (Nat.succ_pos len) hle) (ih h)
  | case4 a as told len spans hlt =>
    obtain ⟨rfl, rfl, rfl⟩ :
        Rest.forward (len + 1) (a :: as) = as' ∧ told = told' ∧ spans = spans' := by
      simpa using h
    exact .single (.absorbPart (Nat.succ_pos len) (Nat.not_le.mp hlt))

/-- Passing what the other change keeps is a run of steps to where a replaced run stops it. -/
theorem passKept_steps (before : Bool) (as : List (Rest α)) (told : Bool) (spans : List (Span α))
    (kept left : Nat) (bs : List (Rest β)) :
    Reaches before ⟨as, told, bs, spans, .passing kept left⟩
        ⟨as, told, (Change.passKept left bs).spans, spans,
          .passing (kept + (Change.passKept left bs).kept) (Change.passKept left bs).left⟩
      ∧ (0 < (Change.passKept left bs).left →
        ∀ b ∈ (Change.passKept left bs).spans.head?, b.count ≠ Span.keptMark
          ∧ ¬ (b.count = 0 ∧ b.length < (Change.passKept left bs).left)) := by
  fun_induction Change.passKept left bs generalizing kept with
  | case1 left => exact ⟨.refl, fun _ b hb => by cases hb⟩
  | case2 b bs => exact ⟨.refl, fun hpos => absurd hpos (Nat.lt_irrefl 0)⟩
  | case3 left b bs hpos hkept hle later ih =>
    obtain ⟨hrest, hstop⟩ := ih (kept + b.length)
    refine ⟨.head (.passKept (Nat.pos_of_ne_zero hpos) hkept) ?_, hstop⟩
    rw [Nat.min_eq_right hle, Rest.forward, if_pos rfl]
    rwa [Nat.add_assoc] at hrest
  | case4 left b bs hpos hkept hlt =>
    refine ⟨.single ?_, fun hpos => absurd hpos (Nat.lt_irrefl 0)⟩
    have hstep : Step before ⟨as, told, b :: bs, spans, .passing kept left⟩ _ :=
      .passKept (Nat.pos_of_ne_zero hpos) hkept
    rwa [Nat.min_eq_left (Nat.le_of_not_le hlt), Nat.sub_self] at hstep
  | case5 left b bs hpos hkept hdeletion ih =>
    obtain ⟨hrest, hstop⟩ := ih kept
    exact ⟨.head (.passDeletion (Nat.pos_of_ne_zero hpos) hdeletion.1 hdeletion.2) hrest, hstop⟩
  | case6 left b bs hpos hkept hdeletion =>
    refine ⟨.refl, fun _ t ht => ?_⟩
    obtain rfl := Option.some.inj ht
    exact ⟨hkept, hdeletion⟩

section Turns

variable {a : Rest α} {as : List (Rest α)} {told : Bool} {b : Rest β} {bs : List (Rest β)}
  {spans : List (Span α)}

/-- What both changes keep is passed in a step. -/
theorem keep_steps {len : Nat} (hkept : a.count = Span.keptMark) (hbkept : b.count = Span.keptMark)
    (hlen : len = min a.length b.length) :
    Reaches before ⟨a :: as, false, b :: bs, spans, .between⟩
      ⟨Rest.forward len (a :: as), false, Rest.forward len (b :: bs),
        Span.push false spans (.keep len), .between⟩ := by
  refine .single ?_
  by_cases hle : a.length ≤ b.length
  · have hall : Rest.forward a.length (a :: as) = as := if_pos rfl
    rw [hlen, Nat.min_eq_left hle, hall]
    exact .keepFirst hkept hbkept hle
  · have hlt : b.length < a.length := Nat.not_le.mp hle
    have hall : Rest.forward b.length (b :: bs) = bs := if_pos rfl
    rw [hlen, Nat.min_eq_right (Nat.le_of_lt hlt), hall]
    exact .keepSecond hkept hbkept hlt

variable {met : Passage β}
  (hyields : ¬ (0 ≤ b.count ∧ Change.yieldsTo before b.length told a = true)) (hput : 0 ≤ a.count)
  (hmet : Change.passKept a.length (b :: bs) = met)
include hyields hput hmet

/-- A replaced run of the change that is passed to its end. -/
theorem passes_steps (hleft : met.left = 0) :
    Reaches before ⟨a :: as, told, b :: bs, spans, .between⟩
      ⟨as, false, met.spans, Span.push false spans (replaced told met.kept a), .between⟩ := by
  obtain ⟨hpass, -⟩ := passKept_steps before (a :: as) told spans 0 a.length (b :: bs)
  rw [hmet, hleft, Nat.zero_add] at hpass
  exact .head (.replaces hyields hput) (hpass.trans (.single .passed))

/-- A replaced run of the change that is stopped. -/
theorem stops_steps (hpos : 0 < met.left) :
    Reaches before ⟨a :: as, told, b :: bs, spans, .between⟩
      ⟨Rest.forward (a.length - met.left) (a :: as), true, met.spans,
        Span.push false spans (replaced told met.kept a), .between⟩ := by
  obtain ⟨hpass, hstop⟩ := passKept_steps before (a :: as) told spans 0 a.length (b :: bs)
  rw [hmet] at hpass hstop
  rw [Nat.zero_add] at hpass
  exact .head (.replaces hyields hput) (hpass.trans (.single (.stopped hpos (hstop hpos))))

end Turns

/-- The turns of the walk are steps to its end. -/
theorem exists_steps {as : List (Rest α)} {told : Bool} {bs : List (Rest β)}
    {spans out : List (Span α)} {walk : Walk (List (Span α))}
    (h : Change.Turns before as told bs spans walk) (hout : walk = .finished out) :
    ∃ last, Reaches before ⟨as, told, bs, spans, .between⟩
      ⟨[], last, [], out.reverse, .between⟩ := by
  induction h with
  | short | long | stalls => cases hout
  | @done told spans =>
    obtain rfl := Walk.finished.inj hout
    rw [List.reverse_reverse]
    exact ⟨told, .refl⟩
  | keepLast hzero hput _ ih =>
    obtain ⟨last, hrest⟩ := ih hout
    exact ⟨last, .head (.keepLast hzero hput) hrest⟩
  | putLast hzero hput _ ih =>
    obtain ⟨last, hrest⟩ := ih hout
    exact ⟨last, .head (.putLast hzero hput) hrest⟩
  | keep hkept hbkept hlen _ ih =>
    obtain ⟨last, hrest⟩ := ih hout
    exact ⟨last, (keep_steps hkept hbkept hlen).trans hrest⟩
  | @yields a as as' told told' b bs spans spans' walk hput hyields habsorb _ ih =>
    obtain ⟨last, hrest⟩ := ih hout
    exact ⟨last, .head (.yields hput hyields) ((absorb_steps bs habsorb).trans hrest)⟩
  | passes hyields hput hmet hleft _ ih =>
    obtain ⟨last, hrest⟩ := ih hout
    exact ⟨last, (passes_steps hyields hput hmet hleft).trans hrest⟩
  | stops hyields hput hmet hpos _ ih =>
    obtain ⟨last, hrest⟩ := ih hout
    exact ⟨last, (stops_steps hyields hput hmet hpos).trans hrest⟩

end Steps

end Rebasing

end TextRevision
