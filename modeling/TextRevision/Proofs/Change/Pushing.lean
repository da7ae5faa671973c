import TextRevision.Proofs.Change.Run

/-!
# Putting spans behind others

A span that is put behind others is dropped, merged into the newest one or put alone. Whatever it
inserts, marks stay those of kept runs and no run without characters comes up. Where the next span
is not joined in any case, runs of one kind do not stand next to each other.

## Main definitions

- `Span.Pushing`: what putting a span behind others can do
- `Span.Marked`: a kept run or a replaced one, with characters
- `Span.Apart`, `Span.Separate`: spans that are not runs of one kind

## Main statements

- `Span.pushing`
- `Span.Pushing.marked`, `Span.Pushing.separate`: what is true of the spans that result
-/

namespace TextRevision

variable {α β : Type}

namespace Span

section Pushing

variable [Insertion α]

/-- What putting a span behind others can do. -/
inductive Pushing (join : Bool) (s : Span α) : List (Span α) → List (Span α) → Prop
  | none : s.isVoid = true → Pushing join s [] []
  /-- Of a span without characters only the insertion is put to the newest one's. -/
  | void {last : Span α} {rest : List (Span α)} : s.isVoid = true →
    Pushing join s (last :: rest)
      (⟨last.length, last.count, Insertion.join last.text s.text⟩ :: rest)
  | alone {spans : List (Span α)} : s.isVoid = false →
    (∀ last ∈ spans.head?, ¬ (s.count ≤ 0 ∧ s.count = last.count)
      ∧ ¬ (s.length = 0 ∧ last.length = 0) ∧ join = false) →
    Pushing join s spans
      (⟨s.length, s.count, Insertion.join Insertion.empty s.text⟩ :: spans)
  /-- Two kept runs or two deletions are one. -/
  | same {last : Span α} {rest : List (Span α)} : s.isVoid = false → s.count ≤ 0 →
    s.count = last.count →
    Pushing join s (last :: rest)
      (⟨last.length + s.length, last.count, Insertion.join last.text s.text⟩ :: rest)
  /-- Two insertions at one place are one, and any two runs that are joined. -/
  | merged {last : Span α} {rest : List (Span α)} : s.isVoid = false →
    ¬ (s.count ≤ 0 ∧ s.count = last.count) → (s.length = 0 ∧ last.length = 0) ∨ join = true →
    Pushing join s (last :: rest)
      (⟨last.length + s.length, last.count + s.count, Insertion.join last.text s.text⟩ :: rest)

theorem pushing (join : Bool) (spans : List (Span α)) (s : Span α) :
    Pushing join s spans (push join spans s) := by
  rw [push]
  unfold pushRun
  split
  · next hvoid =>
    cases spans with
    | nil => exact .none hvoid
    | cons last rest => exact .void hvoid
  · next hvoid =>
    have hvoid : s.isVoid = false := by simpa using hvoid
    cases spans with
    | nil => exact .alone hvoid (by simp)
    | cons last rest =>
      dsimp only
      split
      · next hsame => exact .same hvoid hsame.1 hsame.2
      · next hsame =>
        split
        · next hmerge => exact .merged hvoid hsame hmerge
        · next hmerge =>
          rw [not_or] at hmerge
          refine .alone hvoid ?_
          rintro _ ⟨⟩
          exact ⟨hsame, hmerge.1, by simpa using hmerge.2⟩

end Pushing

/-- A span with the count of an insertion or the mark of a kept run, and with characters. -/
structure Marked (s : Span α) : Prop where
  mark : keptMark ≤ s.count
  not_void : s.isVoid = false

/-- The insertion of a span says nothing about its marks. -/
theorem Marked.of_eq {s : Span α} {t : Span β} (h : s.Marked) (hlength : t.length = s.length)
    (hcount : t.count = s.count) : t.Marked where
  mark := hcount ▸ h.mark
  not_void := by
    have hvoid := h.not_void
    rw [isVoid_eq_false_iff] at hvoid ⊢
    rwa [hlength, hcount]

namespace Pushing

variable [Insertion α] {join : Bool} {s : Span α} {spans spans' : List (Span α)}

/-- A span put behind marked ones leaves marked ones, also where it is joined to a kept run. -/
theorem marked (h : Pushing join s spans spans') (hspans : ∀ t ∈ spans, t.Marked)
    (hs : keptMark ≤ s.count) : ∀ t ∈ spans', t.Marked := by
  cases h with
  | none => exact hspans
  | void =>
    obtain ⟨hlast, hrest⟩ := List.forall_mem_cons.mp hspans
    exact List.forall_mem_cons.mpr ⟨hlast.of_eq rfl rfl, hrest⟩
  | alone hvoid =>
    exact List.forall_mem_cons.mpr ⟨Marked.of_eq (s := s) ⟨hs, hvoid⟩ rfl rfl, hspans⟩
  | same hvoid hcount hsame =>
    obtain ⟨hlast, hrest⟩ := List.forall_mem_cons.mp hspans
    refine List.forall_mem_cons.mpr ⟨⟨hlast.mark, ?_⟩, hrest⟩
    have hlastVoid := hlast.not_void
    rw [isVoid_eq_false_iff] at hlastVoid ⊢
    dsimp only
    omega
  | merged hvoid hdiffer =>
    obtain ⟨hlast, hrest⟩ := List.forall_mem_cons.mp hspans
    have hmark := hlast.mark
    have hlastVoid := hlast.not_void
    -- Two kept runs are told by the same mark, so that one of the two counts is no mark.
    rw [isVoid_eq_false_iff] at hvoid hlastVoid
    refine List.forall_mem_cons.mpr ⟨⟨?_, ?_⟩, hrest⟩
    · simp only [keptMark] at hs hmark ⊢
      omega
    · rw [isVoid_eq_false_iff]
      simp only [keptMark] at hs hmark ⊢
      omega

theorem length_eq (h : Pushing join s spans spans') :
    sumBy length spans' = sumBy length spans + s.length := by
  cases h with
  | none hvoid => rw [sumBy_nil, (isVoid_iff.mp hvoid).1]
  | void hvoid => rw [sumBy_cons, sumBy_cons, (isVoid_iff.mp hvoid).1, Nat.add_zero]
  | alone => rw [sumBy_cons, Nat.add_comm]
  | same =>
    rw [sumBy_cons, sumBy_cons]
    dsimp only
    omega
  | merged =>
    rw [sumBy_cons, sumBy_cons]
    dsimp only
    omega

/-- Where runs are merged only if they are of one kind, all their characters are kept count of. -/
theorem newLength_eq (h : Pushing false s spans spans') (hspans : ∀ t ∈ spans, t.Marked) :
    sumBy newLength spans' = sumBy newLength spans + s.newLength := by
  have hvoidNew : s.isVoid = true → s.newLength = 0 := by
    intro hvoid
    obtain ⟨hlength, hcount⟩ := isVoid_iff.mp hvoid
    by_cases hkept : s.count < 0
    · rw [newLength_of_kept hkept, hlength]
    · rw [newLength_of_put (Int.not_lt.mp hkept)]
      omega
  cases h with
  | none hvoid => rw [sumBy_nil, hvoidNew hvoid]
  | void hvoid =>
    rw [sumBy_cons, sumBy_cons, hvoidNew hvoid, Nat.add_zero]
    rfl
  | alone =>
    rw [sumBy_cons, Nat.add_comm]
    rfl
  | @same last rest hvoid hcount hsame =>
    have hmerged : (⟨last.length + s.length, last.count, Insertion.join last.text s.text⟩
        : Span α).newLength = last.newLength + s.newLength := by
      by_cases hkept : last.count < 0
      · have hsKept : s.count < 0 := by omega
        rw [newLength_of_kept hkept, newLength_of_kept hsKept]
        exact newLength_of_kept hkept
      · have hput : 0 ≤ last.count := Int.not_lt.mp hkept
        have hsPut : 0 ≤ s.count := by omega
        have hzero : s.count.toNat = 0 := by omega
        rw [newLength_of_put hput, newLength_of_put hsPut, hzero, Nat.add_zero]
        exact newLength_of_put hput
    rw [sumBy_cons, sumBy_cons, hmerged]
    omega
  | @merged last rest hvoid hdiffer hmerge =>
    obtain ⟨hlast, -⟩ := List.forall_mem_cons.mp hspans
    have hlastVoid := hlast.not_void
    -- Two runs of no old characters are insertions.
    rw [isVoid_eq_false_iff] at hvoid hlastVoid
    have hinserted : s.length = 0 ∧ last.length = 0 := by simpa using hmerge
    have hmerged : (⟨last.length + s.length, last.count + s.count,
        Insertion.join last.text s.text⟩ : Span α).newLength = last.newLength + s.newLength := by
      have hput : 0 ≤ last.count := by omega
      have hsPut : 0 ≤ s.count := by omega
      rw [newLength_of_put hput, newLength_of_put hsPut]
      exact (newLength_of_put (Int.add_nonneg hput hsPut)).trans (Int.toNat_add hput hsPut)
    rw [sumBy_cons, sumBy_cons, hmerged]
    omega

theorem volume_le (h : Pushing join s spans spans') :
    sumBy volume spans' ≤ sumBy volume spans + s.volume := by
  cases h with
  | none => exact Nat.zero_le _
  | void =>
    rw [sumBy_cons, sumBy_cons]
    exact Nat.le_add_right _ _
  | alone =>
    rw [sumBy_cons, Nat.add_comm]
    exact Nat.le_refl _
  | same =>
    rw [sumBy_cons, sumBy_cons]
    exact Nat.le_add_right _ _
  | merged =>
    rw [sumBy_cons, sumBy_cons]
    simp only [volume]
    omega

end Pushing

/-- Two spans that are not both kept runs, both deletions or both insertions at one place. -/
structure Apart (s t : Span α) : Prop where
  kept : ¬ (s.count < 0 ∧ t.count < 0)
  deleted : ¬ (s.count = 0 ∧ t.count = 0)
  inserted : ¬ (s.length = 0 ∧ t.length = 0)

theorem Apart.symm {s t : Span α} (h : s.Apart t) : t.Apart s :=
  ⟨fun hkept => h.kept hkept.symm, fun hdeleted => h.deleted hdeleted.symm,
    fun hinserted => h.inserted hinserted.symm⟩

/-- No two neighbours are runs of one kind. -/
def Separate (spans : List (Span α)) : Prop :=
  spans.IsChain Apart

theorem Separate.reverse {spans : List (Span α)} (h : Separate spans) :
    Separate spans.reverse := by
  rw [Separate, List.isChain_reverse]
  exact List.IsChain.imp (fun s t hst => hst.symm) h

/-- The newest span may be another one that is apart from all that it was apart from. -/
theorem Separate.replace_head {last merged : Span α} {rest : List (Span α)}
    (h : Separate (last :: rest))
    (hmerged : ∀ t : Span α, last.Apart t → merged.Apart t) : Separate (merged :: rest) := by
  rw [Separate, List.isChain_cons] at h ⊢
  exact ⟨fun t ht => hmerged t (h.1 t ht), h.2⟩

/-- Runs of one kind are not put next to each other. Where a span is joined in any case, both runs
have to be replaced ones. -/
theorem Pushing.separate [Insertion α] {join : Bool} {s : Span α} {spans spans' : List (Span α)}
    (h : Pushing join s spans spans') (hsep : Separate spans) (hspans : ∀ t ∈ spans, t.Marked)
    (hs : keptMark ≤ s.count)
    (hjoin : join = true → 0 ≤ s.count ∧ ∀ last ∈ spans.head?, 0 ≤ last.count) :
    Separate spans' := by
  cases h with
  | none => exact hsep
  | void =>
    refine hsep.replace_head fun t ht => ?_
    exact ⟨ht.kept, ht.deleted, ht.inserted⟩
  | alone hvoid hdiffer =>
    rw [Separate, List.isChain_cons]
    refine ⟨fun last hlast => ?_, hsep⟩
    obtain ⟨hcount, hlength, -⟩ := hdiffer last hlast
    have hmark := (hspans last (List.mem_of_mem_head? hlast)).mark
    simp only [keptMark] at hs hmark
    constructor
    · dsimp only
      omega
    · dsimp only
      omega
    · exact hlength
  | same hvoid hcount hsame =>
    have hlastVoid := (hspans _ List.mem_cons_self).not_void
    refine hsep.replace_head fun t ht => ?_
    have hinserted := ht.inserted
    rw [isVoid_eq_false_iff] at hlastVoid
    refine ⟨ht.kept, ht.deleted, ?_⟩
    dsimp only
    omega
  | merged hvoid hdiffer hmerge =>
    have hlastVoid := (hspans _ List.mem_cons_self).not_void
    rw [isVoid_eq_false_iff] at hvoid hlastVoid
    refine hsep.replace_head fun t ht => ?_
    have hkept := ht.kept
    have hdeleted := ht.deleted
    have hinserted := ht.inserted
    -- Two insertions stay one; of two other replaced runs that are joined, one inserts and one
    -- removes, so that the run is apart from every other kind.
    rcases hmerge with hmerge | hmerge
    · constructor <;> dsimp only <;> omega
    · have hput := (hjoin hmerge).1
      have hlastPut := (hjoin hmerge).2 _ rfl
      constructor <;> dsimp only <;> omega

end Span

end TextRevision
