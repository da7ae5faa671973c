import TextRevision.Change.Divide
import TextRevision.Proofs.Change.Additions
import TextRevision.Proofs.Change.Normal
import TextRevision.Proofs.Change.Piecewise

/-!
# Changes divided by ranges

Dividing a change cuts its spans into parcels, each of which goes to one of the two parts. The other
part keeps the characters of the parcel. A span is cut where a range starts or ends, and what it
adds goes along with the first parcel of it, so that nothing is lost and nothing is done twice.
Where the ranges are sorted, the parcels that lie in a range go to the inner part, and so does what
is added there, but for an insertion right where a range starts.

## Main definitions

- `Parcel`: a piece of a span that goes to one of the two parts
- `Span.Refines`: spans cut into pieces
- `Dealt`: a stretch of the walk, told by the parcels that it deals out
- `SortedRanges`, `Located`: ranges in order, and parcels that go where they lie

## Main statements

- `Dealt.leaveOutside`, `Dealt.takeInside`, `Dealt.passRanges`: what a stretch of the walk deals out
- `Change.exists_parcels`: a divided change is what the parcels of its spans make
- `Revision.Obtainable.divide_splits`
-/

namespace TextRevision

variable {α : Type} [Insertion α]

namespace Span

/-- A span cut in two: what it inserts goes along with the first piece. -/
structure CutInto (s front back : Span α) : Prop where
  front_pos : 0 < front.length
  back_pos : 0 < back.length
  length : front.length + back.length = s.length
  count : front.count = s.count
  text : front.text = s.text
  isKept : back.isKept = s.isKept
  back_count : back.count ≤ 0
  back_text : back.text = Insertion.empty

/-- Spans cut into pieces. -/
inductive Refines : List (Span α) → List (Span α) → Prop
  | nil : Refines [] []
  | whole {s : Span α} {spans pieces : List (Span α)} :
    Refines spans pieces → Refines (s :: spans) (s :: pieces)
  | cut {s front back : Span α} {spans pieces : List (Span α)} :
    s.CutInto front back → Refines (back :: spans) pieces → Refines (s :: spans) (front :: pieces)

namespace Refines

variable {s : Span α} {spans pieces : List (Span α)}

theorem refl (spans : List (Span α)) : Refines spans spans := by
  induction spans with
  | nil => exact .nil
  | cons s spans ih => exact .whole ih

theorem eq_nil (h : Refines [] pieces) : pieces = [] := by
  cases h
  rfl

/-- The pieces decide alike for each character. -/
theorem fatesOf_eq (h : Refines spans pieces) : fatesOf pieces = fatesOf spans := by
  induction h with
  | nil => rfl
  | whole _ ih => rw [fatesOf_cons, fatesOf_cons, ih]
  | @cut s front back spans pieces hcut _ ih =>
    have hfront : front.isKept = s.isKept := by rw [Span.isKept, Span.isKept, hcut.count]
    rw [fatesOf_cons, ih, fatesOf_cons, fatesOf_cons, hfront, hcut.isKept, ← List.append_assoc,
      List.replicate_append_replicate, hcut.length]

/-- The pieces add the same at the same places. -/
theorem additionsFrom_eq (h : Refines spans pieces) (pos : Nat) :
    additionsFrom pos pieces = additionsFrom pos spans := by
  induction h generalizing pos with
  | nil => rfl
  | whole _ ih => rw [additionsFrom, additionsFrom, ih]
  | @cut s front back spans pieces hcut _ ih =>
    have hfront := hcut.front_pos
    have hlength := hcut.length
    have hpure : decide (front.length = 0) = decide (s.length = 0) := by
      rw [decide_eq_decide]
      omega
    have hback : additionsFrom (pos + front.length) (back :: spans)
        = additionsFrom (pos + s.length) spans := by
      rw [additionsFrom, Nat.add_assoc, hlength]
      exact if_neg (Int.not_lt.mpr hcut.back_count)
    rw [additionsFrom, additionsFrom, ih, hback, hcut.count, hcut.text, hpure]

theorem unmixed (h : Refines spans pieces) (hspans : Unmixed spans) : Unmixed pieces := by
  -- The first piece has characters of the old document if the first span has.
  have hhead : ∀ {spans pieces : List (Span α)}, Refines spans pieces →
      ∀ t ∈ pieces.head?, t.length = 0 → ∃ s ∈ spans.head?, s.length = 0 := by
    intro spans pieces h t ht hzero
    cases h with
    | nil => cases ht
    | whole => exact ⟨t, ht, hzero⟩
    | cut hcut =>
      obtain rfl := Option.some.inj ht
      exact absurd hcut.front_pos (by omega)
  induction h with
  | nil => exact .nil
  | @whole s spans pieces hrest ih =>
    obtain ⟨hnext, hspans⟩ := List.isChain_cons.mp hspans
    refine List.isChain_cons.mpr ⟨?_, ih hspans⟩
    rintro t ht ⟨hs, hzero⟩
    obtain ⟨u, hu, huzero⟩ := hhead hrest t ht hzero
    exact hnext u hu ⟨hs, huzero⟩
  | @cut s front back spans pieces hcut _ ih =>
    obtain ⟨-, hspans⟩ := List.isChain_cons.mp hspans
    have hfront := hcut.front_pos
    have hback := hcut.back_pos
    refine List.isChain_cons.mpr ⟨fun t _ hzero => by omega, ih ?_⟩
    exact List.isChain_cons.mpr ⟨fun t _ hzero => by omega, hspans⟩

/-- The pieces are plain if the spans are. -/
theorem plain (h : Refines spans pieces)
    (hempty : Insertion.isEmpty (Insertion.empty : α) = true) (hspans : ∀ s ∈ spans, s.Plain) :
    ∀ t ∈ pieces, t.Plain := by
  induction h with
  | nil => exact hspans
  | whole _ ih =>
    obtain ⟨hs, hspans⟩ := List.forall_mem_cons.mp hspans
    exact List.forall_mem_cons.mpr ⟨hs, ih hspans⟩
  | @cut s front back spans pieces hcut _ ih =>
    obtain ⟨hs, hspans⟩ := List.forall_mem_cons.mp hspans
    have hfront : front.Plain :=
      ⟨by rw [hcut.text, hs.join],
        fun hcount => by rw [hcut.text, hs.isEmpty (hcut.count ▸ hcount)]⟩
    have hback : back.Plain :=
      ⟨by rw [hcut.back_text]; exact if_pos hempty, fun _ => by rw [hcut.back_text, hempty]⟩
    exact List.forall_mem_cons.mpr ⟨hfront, ih (List.forall_mem_cons.mpr ⟨hback, hspans⟩)⟩

end Refines

end Span

namespace Rest

/-- The next characters of a span in a walk, with what goes along with them. -/
def piece (r : Rest α) (len : Nat) : Span α :=
  ⟨len, r.remainder, if 0 < r.remainder then r.text else Insertion.empty⟩

/-- All that is left of a span in a walk. -/
def whole (r : Rest α) : Span α :=
  r.piece r.length

omit [Insertion α] in
/-- What is left of a span is kept if the span is marked so. -/
theorem remainder_neg_iff {r : Rest α} (hmark : Span.keptMark ≤ r.count) :
    r.remainder < 0 ↔ r.count = Span.keptMark := by
  by_cases hkept : r.count = Span.keptMark
  · simp [remainder, hkept, Span.keptMark]
  · by_cases hpassed : r.passed = 0
    · simp only [remainder, hpassed, if_true, Span.keptMark] at hmark hkept ⊢
      omega
    · simp [remainder, hkept, hpassed]

omit [Insertion α] in
/-- Nothing is inserted behind the first characters of a span. -/
theorem remainder_nonpos {r : Rest α} (hpassed : r.passed ≠ 0) : r.remainder ≤ 0 := by
  rw [remainder, if_neg hpassed]
  split <;> simp [Span.keptMark]

omit [Insertion α] in
/-- Behind all characters of a span come the other spans. -/
theorem forward_all {r : Rest α} {len : Nat} (hall : len = r.length) (rs : List (Rest α)) :
    forward len (r :: rs) = rs := by
  rw [forward, if_pos hall]

/-- The next characters are a piece of the spans in front of what is left behind them. -/
theorem refines_forward {r : Rest α} {rs : List (Rest α)} {pieces : List (Span α)} {len : Nat}
    (hmark : Span.keptMark ≤ r.count) (hle : len ≤ r.length) (hpos : len < r.length → 0 < len)
    (h : Span.Refines ((forward len (r :: rs)).map whole) pieces) :
    Span.Refines ((r :: rs).map whole) (r.piece len :: pieces) := by
  rw [forward] at h
  split at h
  · next heq =>
    subst heq
    exact .whole h
  · next hne =>
    have hlt : len < r.length := Nat.lt_of_le_of_ne hle hne
    have hcount : remainder { r with length := r.length - len, passed := r.passed + len } ≤ 0 := by
      have hlen := hpos hlt
      exact remainder_nonpos (show r.passed + len ≠ 0 by omega)
    have hcut : r.whole.CutInto (r.piece len)
        (whole { r with length := r.length - len, passed := r.passed + len }) := by
      refine ⟨hpos hlt, Nat.sub_pos_of_lt hlt, Nat.add_sub_cancel' hle, rfl, rfl, ?_, hcount,
        if_neg (Int.not_lt.mpr hcount)⟩
      exact decide_eq_decide.mpr ((remainder_neg_iff
        (r := { r with length := r.length - len, passed := r.passed + len }) hmark).trans
          (remainder_neg_iff hmark).symm)
    exact .cut hcut h

end Rest

/-- A piece of a span, from a place of the old document on, that goes to one of the two parts. -/
structure Parcel (α : Type) where
  start : Nat
  span : Span α
  inside : Bool

namespace Parcel

/-- What a parcel is to the outer part. -/
def outer (p : Parcel α) : Span α :=
  if p.inside then .keep p.span.length else p.span

/-- What a parcel is to the inner part. -/
def inner (p : Parcel α) : Span Unit :=
  if p.inside then p.span.shape else .keep p.span.length

omit [Insertion α] in
/-- Parcels from a place on, each from where the one in front of it ends. -/
def RunFrom : Nat → List (Parcel α) → Prop
  | _, [] => True
  | pos, p :: ps => p.start = pos ∧ RunFrom (pos + p.span.length) ps

end Parcel

open Change (Divider)

/-- A stretch of the walk through a change that is being divided: it starts in front of some spans,
comes in front of some others, and deals the parcels out that lie between. -/
structure Dealt (rs : List (Rest α)) (w : Divider α) (parcels : List (Parcel α))
    (rs' : List (Rest α)) (w' : Divider α) : Prop where
  outside : w'.outside = (parcels.map Parcel.outer).foldl (Span.push false) w.outside
  inside : w'.inside = (parcels.map Parcel.inner).foldl (Span.push false) w.inside
  pos : w'.pos = w.pos + sumBy (fun p => p.span.length) parcels
  run : Parcel.RunFrom w.pos parcels
  refines : ∀ pieces, Span.Refines (rs'.map Rest.whole) pieces →
    Span.Refines (rs.map Rest.whole) (parcels.map Parcel.span ++ pieces)
  mark : ∀ r ∈ rs', Span.keptMark ≤ r.count

/-- A walk that goes on up to a place, as long as there are spans. -/
structure Reaches (stop : Nat) (w w' : Divider α) : Prop where
  pos_le : w'.pos ≤ max w.pos stop
  le_pos : ∀ r ∈ w'.spans.head?, stop ≤ w'.pos

namespace Parcel

variable {p : Parcel α} {ps qs : List (Parcel α)} {pos : Nat}

omit [Insertion α] in
theorem runFrom_append :
    RunFrom pos (ps ++ qs)
      ↔ RunFrom pos ps ∧ RunFrom (pos + sumBy (fun p => p.span.length) ps) qs := by
  induction ps generalizing pos with
  | nil => simp [RunFrom]
  | cons p ps ih => simp [RunFrom, ih, and_assoc, Nat.add_assoc]

omit [Insertion α] in
/-- Parcels lie between the place where they start and the one where they end. -/
theorem RunFrom.bounds (h : RunFrom pos ps) (hp : p ∈ ps) :
    pos ≤ p.start ∧ p.start + p.span.length ≤ pos + sumBy (fun p => p.span.length) ps := by
  induction ps generalizing pos with
  | nil => cases hp
  | cons q ps ih =>
    obtain ⟨hq, hlater⟩ := h
    rw [sumBy_cons]
    rcases List.mem_cons.mp hp with rfl | hp
    · omega
    · have := ih hlater hp
      omega

end Parcel

namespace Dealt

variable {r : Rest α} {rs rs' rs'' : List (Rest α)} {w w' w'' : Divider α}
  {parcels parcels' : List (Parcel α)} {stop : Nat}

theorem nothing (hmark : ∀ r ∈ rs, Span.keptMark ≤ r.count) (w : Divider α) :
    Dealt rs w [] rs w where
  outside := rfl
  inside := rfl
  pos := rfl
  run := trivial
  refines := fun _ h => h
  mark := hmark

/-- What a walk does does not depend on the spans that it had before. -/
theorem withSpans (h : Dealt rs w parcels rs' w') :
    Dealt rs w parcels rs' { w' with spans := rs' } :=
  ⟨h.outside, h.inside, h.pos, h.run, h.refines, h.mark⟩

theorem trans (h : Dealt rs w parcels rs' w') (h' : Dealt rs' w' parcels' rs'' w'') :
    Dealt rs w (parcels ++ parcels') rs'' w'' where
  outside := by rw [h'.outside, h.outside, List.map_append, List.foldl_append]
  inside := by rw [h'.inside, h.inside, List.map_append, List.foldl_append]
  pos := by rw [h'.pos, h.pos, sumBy_append, Nat.add_assoc]
  run := Parcel.runFrom_append.mpr ⟨h.run, h.pos ▸ h'.run⟩
  refines := fun pieces hpieces => by
    rw [List.map_append, List.append_assoc]
    exact h.refines _ (h'.refines _ hpieces)
  mark := h'.mark

/-- Where no spans are left no parcels are dealt out. -/
theorem of_nil (h : Dealt [] w parcels rs' w') : parcels = [] ∧ rs' = [] := by
  have hnil := (h.refines _ (.refl _)).eq_nil
  obtain ⟨hparcels, hrest⟩ := List.append_eq_nil_iff.mp hnil
  exact ⟨List.map_eq_nil_iff.mp hparcels, List.map_eq_nil_iff.mp hrest⟩

/-- Where a parcel is dealt out there are spans. -/
theorem exists_head_of_mem {p : Parcel α} (h : Dealt rs w parcels rs' w') (hp : p ∈ parcels) :
    ∃ t, t ∈ rs.head? := by
  cases rs with
  | nil =>
    rw [h.of_nil.1] at hp
    cases hp
  | cons t rs => exact ⟨t, rfl⟩

/-- Where spans are left there were some. -/
theorem exists_head_of_head {t : Rest α} (h : Dealt rs w parcels rs' w') (ht : t ∈ rs'.head?) :
    ∃ u, u ∈ rs.head? := by
  cases rs with
  | nil =>
    rw [h.of_nil.2] at ht
    cases ht
  | cons u rs => exact ⟨u, rfl⟩

/-- The next characters of a span go to the outer part. -/
theorem putOutside {len : Nat} (hmark : ∀ t ∈ r :: rs, Span.keptMark ≤ t.count)
    (hle : len ≤ r.length) (hpos : len < r.length → 0 < len) :
    Dealt (r :: rs) w [⟨w.pos, r.piece len, false⟩] (Rest.forward len (r :: rs))
      (w.putOutside len r) where
  outside := rfl
  inside := rfl
  pos := rfl
  run := ⟨rfl, trivial⟩
  refines := fun _ h => Rest.refines_forward (hmark r List.mem_cons_self) hle hpos h
  mark := Change.mark_forward len hmark

/-- They go to the inner part. -/
theorem putInside {len : Nat} (hmark : ∀ t ∈ r :: rs, Span.keptMark ≤ t.count)
    (hle : len ≤ r.length) (hpos : len < r.length → 0 < len) :
    Dealt (r :: rs) w [⟨w.pos, r.piece len, true⟩] (Rest.forward len (r :: rs))
      (w.putInside len r) where
  outside := rfl
  inside := rfl
  pos := rfl
  run := ⟨rfl, trivial⟩
  refines := fun _ h => Rest.refines_forward (hmark r List.mem_cons_self) hle hpos h
  mark := Change.mark_forward len hmark

/-- Up to a place all goes to the outer part, and so does an insertion right at the place. -/
theorem leaveOutside (stop : Nat) (hmark : ∀ t ∈ rs, Span.keptMark ≤ t.count) (w : Divider α) :
    ∃ parcels, Dealt rs w parcels (Change.leaveOutside stop rs w).spans
        (Change.leaveOutside stop rs w)
      ∧ Reaches stop w (Change.leaveOutside stop rs w)
      ∧ (∀ p ∈ parcels, p.inside = false)
      ∧ ∀ r ∈ (Change.leaveOutside stop rs w).spans.head?,
        (Change.leaveOutside stop rs w).pos = stop → r.length ≠ 0 := by
  fun_induction Change.leaveOutside stop rs w with
  | case1 w =>
    exact ⟨[], (nothing hmark w).withSpans, ⟨Nat.le_max_left _ _, by simp⟩, by simp, by simp⟩
  | case2 r rs w hreach hend =>
    have hr := hmark r List.mem_cons_self
    rw [hend] at hr
    exact absurd hr (by decide)
  | case3 r rs w hreach hend len hall ih =>
    have hput := putOutside (w := w) hmark hall.le fun hlt => absurd hall hlt.ne
    rw [Rest.forward_all hall] at hput
    obtain ⟨parcels, hdealt, hreaches, hinside, hhead⟩ := ih hput.mark
    have hpos : (w.putOutside len r).pos = w.pos + len := rfl
    have hpos_le := hreaches.pos_le
    exact ⟨_, hput.trans hdealt, ⟨by omega, hreaches.le_pos⟩,
      List.forall_mem_cons.mpr ⟨rfl, hinside⟩, hhead⟩
  | case4 r rs w hreach hend len hpart =>
    have hlt : len < r.length := Nat.lt_of_le_of_ne (Nat.min_le_left _ _) hpart
    have hput := putOutside (w := w) hmark hlt.le fun _ => by omega
    have hpos : (w.putOutside len r).pos = stop := by
      have hpos : (w.putOutside len r).pos = w.pos + len := rfl
      omega
    refine ⟨_, hput.withSpans, ⟨?_, fun _ _ => hpos.ge⟩, List.forall_mem_singleton.mpr rfl, ?_⟩
    · exact hpos.le.trans (Nat.le_max_right _ _)
    · rw [Rest.forward, if_neg hpart]
      rintro t ⟨⟩ -
      exact Nat.sub_ne_zero_of_lt hlt
  | case5 r rs w hreach =>
    refine ⟨[], (nothing hmark w).withSpans, ⟨Nat.le_max_left _ _, fun _ _ => ?_⟩, by simp, ?_⟩
    · dsimp only
      omega
    · rintro t ⟨⟩ hpos hzero
      exact hreach (.inr ⟨hpos, hzero⟩)

/-- Up to a place all goes to the inner part. -/
theorem takeInside (stop : Nat) (hmark : ∀ t ∈ rs, Span.keptMark ≤ t.count) (w : Divider α) :
    ∃ parcels, Dealt rs w parcels (Change.takeInside stop rs w).spans (Change.takeInside stop rs w)
      ∧ Reaches stop w (Change.takeInside stop rs w)
      ∧ ∀ p ∈ parcels, p.inside = true ∧ p.start < stop
        ∧ (p.span.length = 0 → w.pos < p.start ∨ ∃ r ∈ rs.head?, r.length = 0) := by
  fun_induction Change.takeInside stop rs w with
  | case1 w =>
    exact ⟨[], (nothing hmark w).withSpans, ⟨Nat.le_max_left _ _, by simp⟩, by simp⟩
  | case2 r rs w hreach hend =>
    have hr := hmark r List.mem_cons_self
    rw [hend] at hr
    exact absurd hr (by decide)
  | case3 r rs w hreach hend len hall ih =>
    have hput := putInside (w := w) hmark hall.le fun hlt => absurd hall hlt.ne
    rw [Rest.forward_all hall] at hput
    obtain ⟨parcels, hdealt, hreaches, hparcels⟩ := ih hput.mark
    have hpos : (w.putInside len r).pos = w.pos + len := rfl
    have hpos_le := hreaches.pos_le
    refine ⟨_, hput.trans hdealt, ⟨by omega, hreaches.le_pos⟩, List.forall_mem_cons.mpr ⟨?_, ?_⟩⟩
    · exact ⟨rfl, hreach, fun hzero => .inr ⟨r, rfl, hall.symm.trans hzero⟩⟩
    · intro p hp
      obtain ⟨hinside, hstart, hpure⟩ := hparcels p hp
      refine ⟨hinside, hstart, fun hzero => ?_⟩
      have hbounds := (hdealt.run.bounds hp).1
      rcases Nat.eq_zero_or_pos len with hnone | hsome
      · exact .inr ⟨r, rfl, hall.symm.trans hnone⟩
      · exact .inl (by omega)
  | case4 r rs w hreach hend len hpart =>
    have hlt : len < r.length := Nat.lt_of_le_of_ne (Nat.min_le_left _ _) hpart
    have hput := putInside (w := w) hmark hlt.le fun _ => by omega
    have hpos : (w.putInside len r).pos = stop := by
      have hpos : (w.putInside len r).pos = w.pos + len := rfl
      omega
    refine ⟨_, hput.withSpans, ⟨hpos.le.trans (Nat.le_max_right _ _), fun _ _ => hpos.ge⟩,
      List.forall_mem_singleton.mpr ⟨rfl, hreach, fun hzero => ?_⟩⟩
    exact absurd (show len = 0 from hzero) (by omega)
  | case5 r rs w hreach =>
    exact ⟨[], (nothing hmark w).withSpans,
      ⟨Nat.le_max_left _ _, fun _ _ => Nat.not_lt.mp hreach⟩, by simp⟩

end Dealt

/-- Ranges in order that do not overlap. -/
structure SortedRanges (ranges : List (Nat × Nat)) : Prop where
  le : ∀ range ∈ ranges, range.1 ≤ range.2
  apart : ranges.Pairwise fun range later => range.2 ≤ later.1

/-- A parcel of the inner part lies in a range, and is no insertion where that starts. -/
structure Parcel.LiesIn (range : Nat × Nat) (p : Parcel α) : Prop where
  le : range.1 ≤ p.start
  lt : p.start < range.2
  stop : p.start + p.span.length ≤ range.2
  pure : p.span.length = 0 → range.1 < p.start

/-- A parcel of the inner part lies in one of the ranges, and one of the outer part in none. -/
structure Parcel.Located (ranges : List (Nat × Nat)) (p : Parcel α) : Prop where
  inside : p.inside = true → ∃ range ∈ ranges, p.LiesIn range
  outside : p.inside = false → ∀ range ∈ ranges,
    p.start + p.span.length ≤ range.1 ∨ range.2 ≤ p.start

omit [Insertion α] in
/-- If the parcels go where they lie, those of the inner part are told by where they start. -/
theorem Parcel.Located.inside_iff {ranges : List (Nat × Nat)} {p : Parcel α}
    (h : p.Located ranges) :
    p.inside = true ↔ ∃ range ∈ ranges, range.1 ≤ p.start ∧ p.start < range.2
      ∧ ¬ (p.span.length = 0 ∧ p.start = range.1) := by
  constructor
  · intro hinside
    obtain ⟨range, hrange, hlies⟩ := h.inside hinside
    refine ⟨range, hrange, hlies.le, hlies.lt, fun ⟨hzero, hstart⟩ => ?_⟩
    exact absurd (hlies.pure hzero) (hstart ▸ Nat.lt_irrefl _)
  · rintro ⟨range, hrange, hle, hlt, hpure⟩
    by_contra hinside
    have := h.outside (by simpa using hinside) range hrange
    omega

namespace Dealt

variable {rs : List (Rest α)} {w : Divider α}

/-- One range and what lies in front of it. -/
theorem passRange (range : Nat × Nat) (hmark : ∀ t ∈ w.spans, Span.keptMark ≤ t.count) :
    ∃ parcels, Dealt w.spans w parcels (w.passRange range).spans (w.passRange range)
      ∧ (range.1 ≤ range.2 → w.pos ≤ range.1 → Reaches range.2 w (w.passRange range)
        ∧ ∀ p ∈ parcels, (p.inside = true → p.LiesIn range)
          ∧ (p.inside = false → p.start + p.span.length ≤ range.1)) := by
  obtain ⟨front, hfront, hfrontReaches, hfrontInside, hhead⟩ := leaveOutside range.1 hmark w
  obtain ⟨inner, hinner, hinnerReaches, hinnerInside⟩ :=
    takeInside range.2 hfront.mark (Change.leaveOutside range.1 w.spans w)
  refine ⟨front ++ inner, hfront.trans hinner, fun hle hpos => ?_⟩
  have hfrontPos := hfrontReaches.pos_le
  have hinnerPos := hinnerReaches.pos_le
  refine ⟨⟨?_, hinnerReaches.le_pos⟩, List.forall_mem_append.mpr ⟨fun p hp => ?_, fun p hp => ?_⟩⟩
  · simp only [Divider.passRange]
    omega
  · have hbounds := (hfront.run.bounds hp).2
    have hfrontEnd := hfront.pos
    refine ⟨fun hinside => ?_, fun _ => by omega⟩
    rw [hfrontInside p hp] at hinside
    cases hinside
  · obtain ⟨hinside, hlt, hpure⟩ := hinnerInside p hp
    have hbounds := hinner.run.bounds hp
    have hinnerEnd := hinner.pos
    -- There are parcels in the range, so the walk has come to where it starts.
    obtain ⟨r, hr⟩ := hinner.exists_head_of_mem hp
    have hreached := hfrontReaches.le_pos r hr
    refine ⟨fun _ => ⟨by omega, hlt, by omega, fun hzero => ?_⟩, fun houtside => ?_⟩
    · rcases hpure hzero with hbehind | ⟨t, ht, htzero⟩
      · omega
      · exact absurd htzero (hhead t ht (by omega))
    · rw [hinside] at houtside
      cases houtside

/-- Any number of ranges. If they are sorted, the parcels go where they lie. -/
theorem passRanges (ranges : List (Nat × Nat)) (hmark : ∀ t ∈ w.spans, Span.keptMark ≤ t.count) :
    ∃ parcels, Dealt w.spans w parcels (ranges.foldl Divider.passRange w).spans
        (ranges.foldl Divider.passRange w)
      ∧ (SortedRanges ranges → (∀ range ∈ ranges, w.pos ≤ range.1) →
        (∀ p ∈ parcels, p.Located ranges)
          ∧ ∀ r ∈ (ranges.foldl Divider.passRange w).spans.head?, ∀ range ∈ ranges,
            range.2 ≤ (ranges.foldl Divider.passRange w).pos) := by
  induction ranges generalizing w with
  | nil => exact ⟨[], nothing hmark w, fun _ _ => ⟨by simp, by simp⟩⟩
  | cons range ranges ih =>
    obtain ⟨front, hfront, hfrontLies⟩ := passRange range hmark
    obtain ⟨later, hlater, hlocated⟩ := ih hfront.mark
    refine ⟨front ++ later, hfront.trans hlater, fun hsorted hpos => ?_⟩
    obtain ⟨hle, hleLater⟩ := List.forall_mem_cons.mp hsorted.le
    obtain ⟨hbehind, hapart⟩ := List.pairwise_cons.mp hsorted.apart
    obtain ⟨hstart, -⟩ := List.forall_mem_cons.mp hpos
    obtain ⟨hreaches, hlies⟩ := hfrontLies hle hstart
    have hreach := hreaches.pos_le
    obtain ⟨hlaterLocated, hpast⟩ := hlocated ⟨hleLater, hapart⟩ fun other hother => by
      have := hbehind other hother
      omega
    -- As long as there are spans, the walk comes behind the range.
    have hbehindRange : (∃ r, r ∈ (w.passRange range).spans.head?)
        → range.2 ≤ (w.passRange range).pos := fun ⟨r, hr⟩ => hreaches.le_pos r hr
    refine ⟨List.forall_mem_append.mpr ⟨fun p hp => ?_, fun p hp => ?_⟩, fun r hr => ?_⟩
    · obtain ⟨hinside, houtside⟩ := hlies p hp
      refine ⟨fun h => ⟨range, List.mem_cons_self, hinside h⟩, fun h => ?_⟩
      have hfront := houtside h
      refine List.forall_mem_cons.mpr ⟨.inl hfront, fun other hother => .inl ?_⟩
      have := hbehind other hother
      omega
    · obtain ⟨hinside, houtside⟩ := hlaterLocated p hp
      have hreached := hbehindRange (hlater.exists_head_of_mem hp)
      refine ⟨fun h => ?_, fun h => ?_⟩
      · obtain ⟨other, hother, hlies⟩ := hinside h
        exact ⟨other, List.mem_cons_of_mem _ hother, hlies⟩
      · exact List.forall_mem_cons.mpr
          ⟨.inr (hreached.trans (hlater.run.bounds hp).1), houtside h⟩
    · have hreached := hbehindRange (hlater.exists_head_of_head hr)
      have hend := hlater.pos
      refine List.forall_mem_cons.mpr ⟨hreached.trans ?_, hpast r hr⟩
      rw [List.foldl_cons]
      omega

theorem putAllOutside (hmark : ∀ t ∈ rs, Span.keptMark ≤ t.count) (w : Divider α) :
    ∃ parcels, Dealt rs w parcels [] (rs.foldl (fun w r => w.putOutside r.length r) w)
      ∧ ∀ p ∈ parcels, p.inside = false := by
  induction rs generalizing w with
  | nil => exact ⟨[], nothing hmark w, by simp⟩
  | cons r rs ih =>
    have hput := putOutside (w := w) hmark (Nat.le_refl r.length) fun hlt => absurd rfl hlt.ne
    rw [Rest.forward_all rfl] at hput
    obtain ⟨parcels, hdealt, hinside⟩ := ih hput.mark (w.putOutside r.length r)
    exact ⟨_, hput.trans hdealt, List.forall_mem_cons.mpr ⟨rfl, hinside⟩⟩

/-- Behind all ranges everything goes to the outer part. -/
theorem finish (hmark : ∀ t ∈ w.spans, Span.keptMark ≤ t.count) :
    ∃ parcels, Dealt w.spans w parcels [] w.finish ∧ ∀ p ∈ parcels, p.inside = false := by
  have hall : w.spans.takeWhile (·.count != Span.endMark) = w.spans := by
    refine List.takeWhile_eq_self_iff.mpr fun r hr => ?_
    have hr := hmark r hr
    simp only [Span.keptMark, Span.endMark, bne_iff_ne] at hr ⊢
    omega
  rw [Divider.finish, hall]
  exact putAllOutside hmark w

end Dealt

/-- A divided change is what the parcels make that its spans are cut into, each part keeping the
parcels of the other. If the ranges are sorted, the parcels go where they lie. -/
theorem Change.exists_parcels {c : Change α} (hmark : ∀ s ∈ c.spans, Span.keptMark ≤ s.count)
    (ranges : List (Nat × Nat)) :
    ∃ parcels : List (Parcel α), Parcel.RunFrom 0 parcels
      ∧ Span.Refines (c.spans.map fun s => (Rest.ofSpan s).whole) (parcels.map Parcel.span)
      ∧ (c.divide ranges).outside.spans
        = ((parcels.map Parcel.outer).foldl (Span.push false) []).reverse
      ∧ (c.divide ranges).inside.spans
        = ((parcels.map Parcel.inner).foldl (Span.push false) []).reverse
      ∧ (SortedRanges ranges → ∀ p ∈ parcels, p.Located ranges) := by
  have hstart : ∀ t ∈ (⟨c.spans.map Rest.ofSpan, 0, [], []⟩ : Divider α).spans,
      Span.keptMark ≤ t.count := by
    intro t ht
    obtain ⟨s, hs, rfl⟩ := List.mem_map.mp ht
    exact hmark s hs
  obtain ⟨front, hfront, hlocated⟩ := Dealt.passRanges ranges hstart
  obtain ⟨later, hlater, houtside⟩ := Dealt.finish hfront.mark
  have hdealt := hfront.trans hlater
  refine ⟨front ++ later, hdealt.run, ?_, congrArg List.reverse hdealt.outside,
    congrArg List.reverse hdealt.inside, fun hsorted => ?_⟩
  · have hrefines := hdealt.refines [] .nil
    rw [List.append_nil, List.map_map] at hrefines
    exact hrefines
  · obtain ⟨hfrontLocated, hpast⟩ := hlocated hsorted fun range _ => Nat.zero_le range.1
    refine List.forall_mem_append.mpr ⟨hfrontLocated, fun p hp => ⟨fun h => ?_, fun _ => ?_⟩⟩
    · rw [houtside p hp] at h
      cases h
    · -- There are parcels behind the ranges, so the walk has come behind all of them.
      have hbounds := (hlater.run.bounds hp).1
      obtain ⟨r, hr⟩ := hlater.exists_head_of_mem hp
      exact fun range hrange => .inr ((hpast r hr range hrange).trans hbounds)

namespace Parcel

variable {parcels : List (Parcel α)}

omit [Insertion α] in
/-- The parcel that each character lies in. -/
def spread (parcels : List (Parcel α)) : List (Parcel α) :=
  parcels.flatMap fun p => List.replicate p.span.length p

omit [Insertion α] in
theorem fatesOf_map {β : Type} (f : Parcel α → Span β)
    (hf : ∀ p ∈ parcels, (f p).length = p.span.length) :
    Span.fatesOf (parcels.map f) = (spread parcels).map fun p => (f p).isKept := by
  induction parcels with
  | nil => rfl
  | cons p ps ih =>
    obtain ⟨hp, hps⟩ := List.forall_mem_cons.mp hf
    rw [List.map_cons, Span.fatesOf_cons, ih hps, hp]
    simp [spread]

omit [Insertion α] in
/-- A character lies in the parcel that is told. -/
theorem RunFrom.of_spread {pos n : Nat} {p : Parcel α} (h : RunFrom pos parcels)
    (hp : (spread parcels)[n]? = some p) :
    p ∈ parcels ∧ p.start ≤ pos + n ∧ pos + n < p.start + p.span.length := by
  induction parcels generalizing pos n with
  | nil => simp [spread] at hp
  | cons q ps ih =>
    obtain ⟨hq, hrest⟩ := h
    have hspread : spread (q :: ps) = List.replicate q.span.length q ++ spread ps := rfl
    rw [hspread] at hp
    rcases Nat.lt_or_ge n q.span.length with hlt | hge
    · rw [List.getElem?_append_left (by rwa [List.length_replicate]),
        List.getElem?_replicate_of_lt hlt, Option.some.injEq] at hp
      subst hp
      exact ⟨List.mem_cons_self, by omega, by omega⟩
    · rw [List.getElem?_append_right (by rwa [List.length_replicate]), List.length_replicate] at hp
      obtain ⟨hmem, hle, hlt⟩ := ih hrest hp
      exact ⟨List.mem_cons_of_mem _ hmem, by omega, by omega⟩

omit [Insertion α] in
/-- What a parcel adds, if it does. -/
def addition (p : Parcel α) : Addition α :=
  ⟨p.start, p.span.length = 0, p.span.count, p.span.text⟩

omit [Insertion α] in
/-- What parcels add, with whether it goes to the inner part. -/
def additions (parcels : List (Parcel α)) : List (Addition α × Bool) :=
  (parcels.filter (0 < ·.span.count)).map fun p => (p.addition, p.inside)

omit [Insertion α] in
theorem additions_cons (p : Parcel α) (ps : List (Parcel α)) :
    additions (p :: ps)
      = if 0 < p.span.count then (p.addition, p.inside) :: additions ps else additions ps := by
  rw [additions, List.filter_cons]
  by_cases hcount : 0 < p.span.count <;> simp [hcount, additions]

omit [Insertion α] in
theorem additionsFrom_span {pos : Nat} (h : RunFrom pos parcels) :
    Span.additionsFrom pos (parcels.map Parcel.span) = (additions parcels).map Prod.fst := by
  induction parcels generalizing pos with
  | nil => rfl
  | cons p ps ih =>
    obtain ⟨rfl, hrest⟩ := h
    rw [List.map_cons, Span.additionsFrom, ih hrest, additions_cons]
    split <;> rfl

theorem additionsFrom_outer {pos : Nat} (h : RunFrom pos parcels) :
    Span.additionsFrom pos (parcels.map Parcel.outer)
      = ((additions parcels).filter (!·.2)).map Prod.fst := by
  induction parcels generalizing pos with
  | nil => rfl
  | cons p ps ih =>
    obtain ⟨rfl, hrest⟩ := h
    rw [additions_cons]
    cases hinside : p.inside with
    | true =>
      have houter : p.outer = .keep p.span.length := if_pos hinside
      rw [List.map_cons, houter, Span.additionsFrom_keep_cons, ih hrest]
      split <;> simp
    | false =>
      have houter : p.outer = p.span := by simp [outer, hinside]
      rw [List.map_cons, houter, Span.additionsFrom, ih hrest]
      split <;> simp [addition]

omit [Insertion α] in
theorem additionsFrom_inner {pos : Nat} (h : RunFrom pos parcels) :
    Span.additionsFrom pos (parcels.map Parcel.inner)
      = ((additions parcels).filter (·.2)).map fun a => a.1.shape := by
  induction parcels generalizing pos with
  | nil => rfl
  | cons p ps ih =>
    obtain ⟨rfl, hrest⟩ := h
    rw [additions_cons]
    cases hinside : p.inside with
    | true =>
      have hinner : p.inner = p.span.shape := if_pos hinside
      have hshape : p.span.shape.count = p.span.count ∧ p.span.shape.length = p.span.length :=
        ⟨rfl, rfl⟩
      rw [List.map_cons, hinner, Span.additionsFrom, hshape.1, hshape.2, ih hrest]
      split <;> simp [addition, Addition.shape]
    | false =>
      have hinner : p.inner = .keep p.span.length := by simp [inner, hinside]
      rw [List.map_cons, hinner, Span.additionsFrom_keep_cons, ih hrest]
      split <;> simp

@[simp] theorem length_outer (p : Parcel α) : p.outer.length = p.span.length := by
  rw [outer]
  split <;> rfl

omit [Insertion α] in
@[simp] theorem length_inner (p : Parcel α) : p.inner.length = p.span.length := by
  rw [inner]
  split <;> rfl

/-- The outer part keeps the parcels of the inner one. -/
theorem isKept_outer (p : Parcel α) : p.outer.isKept = (p.inside || p.span.isKept) := by
  rw [outer]
  cases p.inside <;> rfl

omit [Insertion α] in
/-- The inner part keeps the parcels of the outer one. -/
theorem isKept_inner (p : Parcel α) : p.inner.isKept = (!p.inside || p.span.isKept) := by
  rw [inner]
  cases p.inside <;> rfl

end Parcel

/-- Spans in front of a walk are as they were. -/
theorem Span.fatesOf_whole (spans : List (Span α)) :
    fatesOf (spans.map fun s => (Rest.ofSpan s).whole) = fatesOf spans := by
  induction spans with
  | nil => rfl
  | cons s spans ih =>
    have hkept : (Rest.ofSpan s).whole.isKept = s.isKept := by
      rw [Span.isKept, Span.isKept, Rest.whole, Rest.piece, Reading.remainder_ofSpan]
    rw [List.map_cons, fatesOf_cons, fatesOf_cons, ih, hkept]
    rfl

theorem Span.additionsFrom_whole (pos : Nat) (spans : List (Span α)) :
    additionsFrom pos (spans.map fun s => (Rest.ofSpan s).whole) = additionsFrom pos spans := by
  induction spans generalizing pos with
  | nil => rfl
  | cons s spans ih =>
    have hwhole : (Rest.ofSpan s).whole
        = ⟨s.length, s.count, if 0 < s.count then s.text else Insertion.empty⟩ := by
      rw [Rest.whole, Rest.piece, Reading.remainder_ofSpan]
      rfl
    rw [List.map_cons, additionsFrom, additionsFrom, hwhole, ih]
    split
    · simp
    · rfl

/-- A change of which no two runs insert at one place, and which counts what it inserts. -/
structure Change.Divisible (c : Change α) : Prop where
  empty : Insertion.isEmpty (Insertion.empty : α) = true
  mark : ∀ s ∈ c.spans, Span.keptMark ≤ s.count
  join : ∀ s ∈ c.spans, 0 < s.count → Insertion.join Insertion.empty s.text = s.text
  unmixed : Span.Unmixed c.spans

namespace Change

variable {c : Change α}

theorem Divisible.plain (h : c.Divisible) :
    ∀ t ∈ c.spans.map fun s => (Rest.ofSpan s).whole, t.Plain := by
  intro t ht
  obtain ⟨s, hs, rfl⟩ := List.mem_map.mp ht
  rw [Rest.whole, Rest.piece, Reading.remainder_ofSpan]
  refine ⟨?_, fun hcount => ?_⟩
  · dsimp only
    split
    · next hcount => exact h.join s hs hcount
    · exact if_pos h.empty
  · dsimp only at hcount ⊢
    rw [if_neg (Int.not_lt.mpr hcount), h.empty]

theorem Divisible.unmixed_whole (h : c.Divisible) :
    Span.Unmixed (c.spans.map fun s => (Rest.ofSpan s).whole) := by
  rw [Span.Unmixed, List.isChain_map]
  exact h.unmixed

/-- Both parts of a divided change are told by the parcels that its spans are cut into. -/
theorem Divisible.divide_spec (h : c.Divisible) (ranges : List (Nat × Nat)) :
    ∃ parcels : List (Parcel α), Parcel.RunFrom 0 parcels
      ∧ c.fates = (Parcel.spread parcels).map (·.span.isKept)
      ∧ (c.divide ranges).outside.fates
        = (Parcel.spread parcels).map (fun p => p.inside || p.span.isKept)
      ∧ (c.divide ranges).inside.fates
        = (Parcel.spread parcels).map (fun p => !p.inside || p.span.isKept)
      ∧ c.additions = (Parcel.additions parcels).map Prod.fst
      ∧ (c.divide ranges).outside.additions
        = ((Parcel.additions parcels).filter (!·.2)).map Prod.fst
      ∧ (c.divide ranges).inside.additions
        = ((Parcel.additions parcels).filter (·.2)).map (fun a => a.1.shape)
      ∧ (SortedRanges ranges → ∀ p ∈ parcels, p.Located ranges) := by
  obtain ⟨parcels, hrun, hrefines, houtside, hinside, hlocated⟩ := exists_parcels h.mark ranges
  have hplain := hrefines.plain h.empty h.plain
  have hunmixed := hrefines.unmixed h.unmixed_whole
  rw [Span.Unmixed, List.isChain_map] at hunmixed
  refine ⟨parcels, hrun, ?_, ?_, ?_, ?_, ?_, ?_, hlocated⟩
  · rw [fates, ← Span.fatesOf_whole, ← hrefines.fatesOf_eq,
      Parcel.fatesOf_map Parcel.span fun _ _ => rfl]
  · rw [fates, houtside, Span.fatesOf_foldl_push, List.reverse_nil, List.nil_append,
      Parcel.fatesOf_map Parcel.outer fun p _ => p.length_outer]
    simp only [Parcel.isKept_outer]
  · rw [fates, hinside, Span.fatesOf_foldl_push, List.reverse_nil, List.nil_append,
      Parcel.fatesOf_map Parcel.inner fun p _ => p.length_inner]
    simp only [Parcel.isKept_inner]
  · rw [additions, ← Span.additionsFrom_whole, ← hrefines.additionsFrom_eq,
      Parcel.additionsFrom_span hrun]
  · have houter : ∀ s ∈ parcels.map Parcel.outer, s.Plain := by
      intro s hs
      obtain ⟨p, hp, rfl⟩ := List.mem_map.mp hs
      rw [Parcel.outer]
      split
      · exact Span.plain_keep h.empty _
      · exact hplain _ (List.mem_map_of_mem hp)
    have hapart : Span.Unmixed (parcels.map Parcel.outer) := by
      rw [Span.Unmixed, List.isChain_map]
      simpa using hunmixed
    rw [additions, houtside, Span.additionsFrom_foldl_push houter hapart (by simp),
      List.reverse_nil, List.nil_append, Parcel.additionsFrom_outer hrun]
  · have hinner : ∀ s ∈ parcels.map Parcel.inner, s.Plain := fun s _ => ⟨rfl, fun _ => rfl⟩
    have hapart : Span.Unmixed (parcels.map Parcel.inner) := by
      rw [Span.Unmixed, List.isChain_map]
      simpa using hunmixed
    rw [additions, hinside, Span.additionsFrom_foldl_push hinner hapart (by simp),
      List.reverse_nil, List.nil_append, Parcel.additionsFrom_inner hrun]

end Change

theorem Revision.ObtainableBy.divisible {c : Revision}
    (hc : Revision.Obtainable (· ≤ lengthLimit) c) : Change.Divisible c where
  empty := rfl
  mark := fun s hs => (hc.normalSpans.marked s hs).mark
  join := by
    intro s hs hcount
    have hlength : s.text.length = s.count.toNat := (hc.sound s hs).proper.2
    have hsome : Insertion.isEmpty s.text = false := decide_eq_false (by omega)
    rw [Insertion.join, hsome]
    rfl
  unmixed := hc.normalSpans.separate.imp fun s t hapart => hapart.inserted

/-- Dividing a revision by ranges, in whatever order they are, loses nothing. Both parts are about
the same document and keep what the revision keeps, and what it removes exactly one of them removes.
What a replaced run inserts goes whole to one of them, to the inner part without its text. If the
ranges are sorted and do not overlap, the outer part removes nothing in them and the inner part
nothing outside, and an insertion goes to the inner part if and only if it starts in a range, but
not if it is one that removes nothing right where the range starts. All this is for lengths up to
the limit of written changes. -/
theorem Revision.Obtainable.divide_splits {c : Revision}
    (hc : Revision.Obtainable (· ≤ lengthLimit) c) (ranges : List (Nat × Nat)) :
    let d := c.divide ranges
    d.outside.length = c.length ∧ d.inside.length = c.length
      ∧ (∀ p, (∃ q, c.Keeps p q) → (∃ q, d.outside.Keeps p q) ∧ ∃ q, d.inside.Keeps p q)
      ∧ (∀ p, c.Removes p → Xor (d.outside.Removes p) (d.inside.Removes p))
      ∧ ∃ dealt : List (Addition Rope × Bool), c.additions = dealt.map Prod.fst
        ∧ d.outside.additions = (dealt.filter (!·.2)).map Prod.fst
        ∧ d.inside.additions = (dealt.filter (·.2)).map (fun a => a.1.shape)
        ∧ (SortedRanges ranges →
          (∀ p, d.outside.Removes p → ∀ range ∈ ranges, ¬ (range.1 ≤ p ∧ p < range.2))
          ∧ (∀ p, d.inside.Removes p → ∃ range ∈ ranges, range.1 ≤ p ∧ p < range.2)
          ∧ ∀ a ∈ dealt, a.2 = true ↔ ∃ range ∈ ranges, range.1 ≤ a.1.place
            ∧ a.1.place < range.2 ∧ ¬ (a.1.isPure = true ∧ a.1.place = range.1)) := by
  intro d
  obtain ⟨parcels, hrun, hfates, houtside, hinside, hadditions, houter, hinner, hlocated⟩ :=
    hc.divisible.divide_spec ranges
  refine ⟨?_, ?_, fun p hp => ?_, fun p hp => ?_, Parcel.additions parcels, hadditions, houter,
    hinner, fun hsorted => ⟨fun p hp => ?_, fun p hp => ?_, fun a ha => ?_⟩⟩
  · rw [Change.length_of_fates houtside, Change.length_of_fates hfates]
  · rw [Change.length_of_fates hinside, Change.length_of_fates hfates]
  · obtain ⟨q, hq, hkept⟩ := (Change.exists_keeps_iff_of_fates hfates).mp hp
    rw [Change.exists_keeps_iff_of_fates houtside, Change.exists_keeps_iff_of_fates hinside]
    exact ⟨⟨q, hq, by simp [hkept]⟩, ⟨q, hq, by simp [hkept]⟩⟩
  · obtain ⟨q, hq, hremoved⟩ := (Change.removes_iff_of_fates hfates).mp hp
    rw [Change.removes_iff_of_fates houtside, Change.removes_iff_of_fates hinside]
    simp only [hq, Option.some.injEq, exists_eq_left', hremoved, Bool.or_false]
    cases q.inside
    · exact .inl ⟨rfl, by decide⟩
    · exact .inr ⟨rfl, by decide⟩
  · obtain ⟨q, hq, hfate⟩ := (Change.removes_iff_of_fates houtside).mp hp
    obtain ⟨hmem, hle, hlt⟩ := hrun.of_spread hq
    obtain ⟨hqOutside, -⟩ := Bool.or_eq_false_iff.mp hfate
    intro range hrange
    have := (hlocated hsorted q hmem).outside hqOutside range hrange
    omega
  · obtain ⟨q, hq, hfate⟩ := (Change.removes_iff_of_fates hinside).mp hp
    obtain ⟨hmem, hle, hlt⟩ := hrun.of_spread hq
    obtain ⟨hqInside, -⟩ := Bool.or_eq_false_iff.mp hfate
    obtain ⟨range, hrange, hlies⟩ := (hlocated hsorted q hmem).inside (by simpa using hqInside)
    have := hlies.le
    have := hlies.stop
    exact ⟨range, hrange, by omega⟩
  · obtain ⟨q, hq, rfl⟩ := List.mem_map.mp ha
    have hmem := (List.mem_filter.mp hq).1
    simpa [Parcel.addition] using (hlocated hsorted q hmem).inside_iff

/-- One range lies within the characters removed, and another starts where two are inserted. -/
theorem Revision.Obtainable.divide_splits_six_characters :
    Revision.Obtainable (· ≤ lengthLimit) removeThenInsert ∧ SortedRanges [(2, 3), (4, 6)]
      ∧ ((removeThenInsert.divide [(2, 3), (4, 6)]).outside.Removes 1
        ∧ ¬ (removeThenInsert.divide [(2, 3), (4, 6)]).inside.Removes 1)
      ∧ ((removeThenInsert.divide [(2, 3), (4, 6)]).inside.Removes 2
        ∧ ¬ (removeThenInsert.divide [(2, 3), (4, 6)]).outside.Removes 2)
      ∧ (removeThenInsert.divide [(2, 3), (4, 6)]).outside.additions
        = [⟨4, true, 2, Rope.ofBlock ["xy"]⟩]
      ∧ (removeThenInsert.divide [(2, 3), (4, 6)]).inside.additions = [] := by
  have hc := obtainable_removeThenInsert
  have hsorted : SortedRanges [(2, 3), (4, 6)] := ⟨by decide, by decide⟩
  have hadditions : removeThenInsert.additions = [⟨4, true, 2, Rope.ofBlock ["xy"]⟩] := rfl
  obtain ⟨-, -, -, hremoved, dealt, hdealt, houter, hinner, hlocated⟩ :=
    Revision.Obtainable.divide_splits hc [(2, 3), (4, 6)]
  obtain ⟨houtside, hinside, hside⟩ := hlocated hsorted
  have hfirst : ¬ (removeThenInsert.divide [(2, 3), (4, 6)]).inside.Removes 1 := by
    intro hremoves
    obtain ⟨range, hrange, hle, hlt⟩ := hinside 1 hremoves
    simp only [List.mem_cons, List.not_mem_nil, or_false] at hrange
    rcases hrange with rfl | rfl
    · omega
    · omega
  have hsecond : ¬ (removeThenInsert.divide [(2, 3), (4, 6)]).outside.Removes 2 :=
    fun hremoves => houtside 2 hremoves (2, 3) List.mem_cons_self (by decide)
  rw [hadditions] at hdealt
  obtain ⟨side, rfl⟩ : ∃ side, dealt = [(⟨4, true, 2, Rope.ofBlock ["xy"]⟩, side)] := by
    match dealt, hdealt with
    | [(a, side)], hdealt =>
      obtain rfl : _ = a := (List.cons.inj hdealt).1
      exact ⟨side, rfl⟩
  obtain rfl : side = false := by
    refine Bool.eq_false_iff.mpr fun hin => ?_
    obtain ⟨range, hrange, hle, hlt, hstart⟩ := (hside _ List.mem_cons_self).mp hin
    simp only [List.mem_cons, List.not_mem_nil, or_false] at hrange
    rcases hrange with rfl | rfl
    · exact absurd hlt (by simp)
    · exact hstart ⟨rfl, rfl⟩
  refine ⟨hc, hsorted, ⟨?_, hfirst⟩, ⟨?_, hsecond⟩, houter, hinner⟩
  · exact (hremoved 1 (Change.removes_iff.mpr rfl)).or.resolve_right hfirst
  · exact (hremoved 2 (Change.removes_iff.mpr rfl)).or.resolve_left hsecond

/-- A text that is not counted, which comes from 2⁶³ characters, goes to neither part. -/
theorem Revision.Obtainable.not_divide_splits :
    Revision.Obtainable (fun _ => True) removeFilled
      ∧ removeFilled.spans = [⟨1, 0, Rope.ofBlock ["x"]⟩]
      ∧ (removeFilled.divide []).outside.spans = [⟨1, 0, Rope.empty⟩]
      ∧ (removeFilled.divide []).inside.spans = [⟨1, -1, ()⟩] :=
  ⟨obtainable_removeFilled, rfl, rfl, rfl⟩

end TextRevision
