import TextRevision.Proofs.Change.Merging
import TextRevision.Proofs.Change.Shapes

/-!
# What a change keeps

Which characters a change keeps, and where, can be seen when it is made to a sequence that tells of
each character where it comes from. What is inserted comes from nowhere.

## Main definitions

- `Change.Keeps`: a change keeps a character at a new place
- `origins`: the sequence of the places of a document

## Main statements

- `Reading.keeps_iff`, `Reading.exists_keeps_iff`
-/

namespace TextRevision

variable {α β δ : Type}

/-- A change keeps the character at place `p`, which is at place `q` then. -/
def Change.Keeps (c : Change α) (p q : Nat) : Prop :=
  ∃ g ∈ c.gaps, g.start ≤ p ∧ p < g.start + g.length ∧ q = g.newStart + (p - g.start)

/-- A change removes the character at place `p` of its document: it keeps it nowhere. -/
def Change.Removes (c : Change α) (p : Nat) : Prop :=
  p < c.length ∧ ¬ ∃ q, c.Keeps p q

theorem Change.gapsFrom_outline (pos newPos : Nat) (spans : List (Span α)) :
    gapsFrom pos newPos (spans.map Span.shape) = gapsFrom pos newPos spans := by
  induction spans generalizing pos newPos with
  | nil => rfl
  | cons s spans ih =>
    rw [List.map_cons, gapsFrom, gapsFrom]
    have hlater := ih (pos + s.length) (newPos + s.newLength)
    exact congrArg (fun later => if s.isKept then _ :: later else later) hlater

/-- What a change keeps can be told from its outline. -/
@[simp] theorem Change.keeps_outline (c : Change α) (p q : Nat) :
    c.outline.Keeps p q ↔ c.Keeps p q := by
  rw [Keeps, Keeps, gaps, gaps, outline, gapsFrom_outline]

/-- The places of a document of `n` characters from place `pos` on. -/
def originsFrom (pos n : Nat) : List (Option Nat) :=
  (List.range' pos n).map some

/-- The places of a document of `n` characters. -/
def origins (n : Nat) : List (Option Nat) :=
  originsFrom 0 n

@[simp] theorem length_originsFrom (pos n : Nat) : (originsFrom pos n).length = n := by
  rw [originsFrom, List.length_map, List.length_range']

@[simp] theorem length_origins (n : Nat) : (origins n).length = n :=
  length_originsFrom 0 n

theorem nodup_originsFrom (pos n : Nat) : (originsFrom pos n).Nodup :=
  (List.nodup_range').map (Option.some_injective Nat)

theorem getElem?_originsFrom {pos n k p : Nat} :
    (originsFrom pos n)[k]? = some (some p) ↔ k < n ∧ p = pos + k := by
  rw [originsFrom, List.getElem?_map]
  rcases Nat.lt_or_ge k n with hlt | hge
  · simp only [List.getElem?_range', hlt, Option.map_some, Option.some.injEq, true_and]
    omega
  · simp [Nat.not_lt.mpr hge]

theorem originsFrom_add (pos m n : Nat) :
    originsFrom pos (m + n) = originsFrom pos m ++ originsFrom (pos + m) n := by
  rw [originsFrom, originsFrom, originsFrom, ← List.map_append, List.range'_append_1]

/-- The kept runs of spans come behind the place where the spans start. -/
theorem Change.newStart_le_of_mem_gapsFrom {pos newPos : Nat} {spans : List (Span α)} {g : Gap}
    (h : g ∈ gapsFrom pos newPos spans) : newPos ≤ g.newStart := by
  induction spans generalizing pos newPos with
  | nil => simp [gapsFrom] at h
  | cons s spans ih =>
    have hlater : g ∈ gapsFrom (pos + s.length) (newPos + s.newLength) spans →
        newPos ≤ g.newStart := by
      intro hmem
      exact Nat.le_trans (Nat.le_add_right _ _) (ih hmem)
    rw [gapsFrom] at h
    split at h
    · rcases List.mem_cons.mp h with rfl | h
      · exact Nat.le_refl _
      · exact hlater h
    · exact hlater h

namespace Reading

variable [Insertion α]

/-- Insertions that come from nowhere. -/
def nowhere (I : Reading α β) : Reading α (Option Nat) :=
  I.map fun _ => none

variable {I : Reading α β}

theorem Sound.map {s : Span α} (h : I.Sound s) (f : β → δ) : (I.map f).Sound s :=
  ⟨⟨h.mark, h.proper⟩, h.not_void⟩

/-- Nothing that is inserted comes from somewhere. -/
theorem getElem?_step_put {s : Span α} (hput : 0 ≤ s.count) (doc : List (Option Nat)) (k p : Nat) :
    (I.nowhere.step s doc)[k]? ≠ some (some p) := by
  rw [step_put hput]
  intro h
  obtain ⟨x, -, hx⟩ := List.mem_map.mp (List.mem_of_getElem? h)
  cases hx

/-- Spans keep a character if it is found where they lead. -/
theorem exists_gapsFrom_iff {ss : List (Span α)} (h : ∀ s ∈ ss, I.nowhere.Sound s)
    (pos newPos k p : Nat) :
    (∃ g ∈ Change.gapsFrom pos newPos ss,
        g.start ≤ p ∧ p < g.start + g.length ∧ newPos + k = g.newStart + (p - g.start))
      ↔ (I.nowhere.run ss (originsFrom pos (sumBy Span.length ss)))[k]? = some (some p) := by
  induction ss generalizing pos newPos k with
  | nil => simp [Change.gapsFrom]
  | cons s ss ih =>
    obtain ⟨hs, hss⟩ := List.forall_mem_cons.mp h
    have hsplit := originsFrom_add pos s.length (sumBy Span.length ss)
    have hdrop : (originsFrom pos (s.length + sumBy Span.length ss)).drop s.length
        = originsFrom (pos + s.length) (sumBy Span.length ss) := by
      rw [hsplit, List.drop_left' (length_originsFrom _ _)]
    have hlength : (I.nowhere.step s (originsFrom pos (s.length + sumBy Span.length ss))).length
        = s.newLength := length_step hs (by simp)
    have hbehind : ∀ g ∈ Change.gapsFrom (pos + s.length) (newPos + s.newLength) ss,
        newPos + s.newLength ≤ g.newStart :=
      fun g hg => Change.newStart_le_of_mem_gapsFrom hg
    -- The place lies in what the first span makes, or behind it. In the first case no later run can
    -- hold it, in the second the first one cannot.
    rw [sumBy_cons, run_cons, hdrop, Change.gapsFrom]
    rcases Nat.lt_or_ge k s.newLength with hlt | hge
    · rw [List.getElem?_append_left (by rw [hlength]; exact hlt)]
      by_cases hkept : s.count < 0
      · rw [Span.newLength_of_kept hkept] at hlt hbehind ⊢
        rw [step_kept hkept, hsplit, List.take_left' (length_originsFrom _ _), getElem?_originsFrom,
          if_pos (by simpa [Span.isKept] using hkept)]
        constructor
        · rintro ⟨g, hg, hstart, hstop, hplace⟩
          rcases List.mem_cons.mp hg with rfl | hg
          · dsimp only at hstart hplace
            omega
          · have := hbehind g hg
            omega
        · rintro ⟨-, rfl⟩
          exact ⟨_, List.mem_cons_self, Nat.le_add_right _ _, Nat.add_lt_add_left hlt pos,
            by dsimp only; omega⟩
      · have hput : 0 ≤ s.count := Int.not_lt.mp hkept
        rw [if_neg (by simpa [Span.isKept] using hput)]
        refine iff_of_false ?_ (getElem?_step_put hput _ k p)
        rintro ⟨g, hg, -, -, hplace⟩
        have := hbehind g hg
        omega
    · rw [List.getElem?_append_right (by rw [hlength]; exact hge), hlength,
        ← ih hss (pos + s.length) (newPos + s.newLength) (k - s.newLength),
        Nat.add_assoc newPos, Nat.add_sub_cancel' hge]
      by_cases hkept : s.isKept = true
      · rw [if_pos hkept, List.exists_mem_cons_iff]
        refine or_iff_right ?_
        rintro ⟨hstart, hstop, hplace⟩
        rw [Span.newLength_of_kept (by simpa [Span.isKept] using hkept)] at hge
        dsimp only at hstart hstop hplace
        omega
      · rw [if_neg hkept]

section Keeps

variable {a b c : Change α}

/-- A change keeps a character at a place if it is found there. -/
theorem keeps_iff (hc : ∀ s ∈ c.spans, I.Sound s) (p q : Nat) :
    c.Keeps p q ↔ (I.nowhere.run c.spans (origins c.length))[q]? = some (some p) := by
  have h := exists_gapsFrom_iff (fun s hs => (hc s hs).map fun _ => none) 0 0 q p
  rw [Nat.zero_add] at h
  exact h

theorem exists_keeps_iff (hc : ∀ s ∈ c.spans, I.Sound s) (p : Nat) :
    (∃ q, c.Keeps p q) ↔ some p ∈ I.nowhere.run c.spans (origins c.length) := by
  rw [List.mem_iff_getElem?]
  exact exists_congr fun q => keeps_iff hc p q

/-- What the acts of a change insert is the content of an insertion. -/
theorem exists_of_put_mem_acts {told : Bool} {rs : List (Rest α)} {k : Nat} {xs : List β}
    (h : Act.put k xs ∈ I.acts told rs) : ∃ r ∈ rs, xs = I.content r.text r.count.toNat := by
  induction rs generalizing told with
  | nil => cases h
  | cons r rs ih =>
    rw [acts_cons] at h
    rcases List.mem_append.mp h with h | h
    · refine ⟨r, List.mem_cons_self, ?_⟩
      by_cases hkept : r.count < 0
      · rw [actsOf_kept hkept] at h
        cases (List.eq_of_mem_replicate h)
      · cases told with
        | true =>
          rw [actsOf_told (Int.not_lt.mp hkept)] at h
          cases (List.eq_of_mem_replicate h)
        | false =>
          rw [actsOf_put (Int.not_lt.mp hkept)] at h
          rcases List.mem_cons.mp h with h | h
          · exact (Act.put.inj h).2
          · cases (List.eq_of_mem_replicate h)
    · obtain ⟨r', hr', hxs⟩ := ih h
      exact ⟨r', List.mem_cons_of_mem _ hr', hxs⟩

theorem some_not_mem_of_put_mem_actions {k : Nat} {xs : List (Option Nat)}
    (h : Act.put k xs ∈ I.nowhere.actions c) (p : Nat) : some p ∉ xs := by
  obtain ⟨r, -, rfl⟩ := exists_of_put_mem_acts h
  intro hp
  obtain ⟨x, -, hx⟩ := List.mem_map.mp hp
  cases hx

/-- Two changes together keep what both keep. -/
theorem some_mem_merge_iff (ha : ∀ s ∈ a.spans, I.Sound s) (hb : ∀ s ∈ b.spans, I.Sound s)
    (hlength : a.length = b.length) (before : Bool) (p : Nat) :
    some p ∈ Act.merge before (I.nowhere.actions a) (I.nowhere.actions b) (origins a.length)
      ↔ (∃ q, a.Keeps p q) ∧ ∃ q, b.Keeps p q := by
  have hperform : ∀ d : Change α, d.length = a.length →
      Act.perform (I.nowhere.actions d) (origins a.length)
        = I.nowhere.run d.spans (origins d.length) := by
    intro d hd
    rw [← hd]
    exact perform_acts (Nat.le_of_eq (length_origins d.length).symm)
  have hnodup : (origins a.length).Nodup := nodup_originsFrom 0 _
  rw [exists_keeps_iff ha, exists_keeps_iff hb,
    Act.mem_merge (fun k xs h => some_not_mem_of_put_mem_actions h p)
      (fun l ys h => some_not_mem_of_put_mem_actions h p) hnodup,
    hperform a rfl, hperform b hlength.symm]

/-- What a change makes of a sequence is found by looking up the places that it keeps. -/
theorem run_nowhere_map {γ : Type} (f : Option Nat → γ) (ss : List (Span α))
    (doc : List (Option Nat)) :
    (I.map fun _ => f none).run ss (doc.map f) = (I.nowhere.run ss doc).map f := by
  induction ss generalizing doc with
  | nil => rfl
  | cons s ss ih =>
    rw [run_cons, run_cons, List.map_append, ← List.map_drop, ih]
    congr 1
    by_cases hkept : s.count < 0
    · rw [step_kept hkept, step_kept hkept, List.map_take]
    · have hput : 0 ≤ s.count := Int.not_lt.mp hkept
      rw [step_put hput, step_put hput]
      exact (List.map_map ..).symm

/-- What is kept comes in order and only once. -/
theorem filterMap_run_nowhere (ss : List (Span α)) (doc : List (Option Nat)) :
    List.Sublist ((I.nowhere.run ss doc).filterMap id) (doc.filterMap id) := by
  induction ss generalizing doc with
  | nil => exact List.nil_sublist _
  | cons s ss ih =>
    have hsplit : doc.filterMap id
        = (doc.take s.length).filterMap id ++ (doc.drop s.length).filterMap id := by
      rw [← List.filterMap_append, List.take_append_drop]
    rw [run_cons, List.filterMap_append, hsplit]
    refine List.Sublist.append ?_ (ih _)
    by_cases hkept : s.count < 0
    · rw [step_kept hkept]
    · have hnone : (I.nowhere.step s doc).filterMap id = [] := by
        rw [step_put (Int.not_lt.mp hkept), List.filterMap_eq_nil_iff]
        intro x hx
        obtain ⟨y, -, rfl⟩ := List.mem_map.mp hx
        rfl
      rw [hnone]
      exact List.nil_sublist _

theorem filterMap_originsFrom (pos n : Nat) :
    (originsFrom pos n).filterMap id = List.range' pos n := by
  rw [originsFrom, List.filterMap_map]
  exact List.filterMap_some

theorem lt_length_of_keeps (hc : ∀ s ∈ c.spans, I.Sound s) {p q : Nat} (h : c.Keeps p q) :
    p < c.length := by
  have hmem := (exists_keeps_iff hc p).mp ⟨q, h⟩
  have hkept := (filterMap_run_nowhere c.spans (origins c.length)).subset
    (List.mem_filterMap.mpr ⟨some p, hmem, rfl⟩)
  rw [origins, filterMap_originsFrom, List.mem_range'_1] at hkept
  omega

/-- No character is kept at two places. -/
theorem keeps_unique (hc : ∀ s ∈ c.spans, I.Sound s) {p q q' : Nat} (h : c.Keeps p q)
    (h' : c.Keeps p q') : q = q' := by
  rw [keeps_iff hc, List.getElem?_eq_some_iff] at h h'
  obtain ⟨hlt, hq⟩ := h
  obtain ⟨hlt', hq'⟩ := h'
  have hnodup : ((I.nowhere.run c.spans (origins c.length)).filterMap id).Nodup := by
    refine (filterMap_run_nowhere c.spans (origins c.length)).nodup ?_
    rw [origins, filterMap_originsFrom]
    exact List.nodup_range'
  rw [List.Nodup, List.pairwise_filterMap, List.pairwise_iff_getElem] at hnodup
  rcases Nat.lt_trichotomy q q' with hless | heq | hless
  · exact absurd rfl (hnodup q q' hlt hlt' hless p hq p hq')
  · exact heq
  · exact absurd rfl (hnodup q' q hlt' hlt hless p hq' p hq)

/-- What stands at a place, if the place is one and something stands there. -/
def look (doc : List (Option Nat)) (p : Nat) : Option Nat :=
  doc[p]?.join

theorem map_look_origins (doc : List (Option Nat)) :
    (origins doc.length).map (Option.bind · (look doc)) = doc := by
  refine List.ext_getElem (by simp [origins]) fun p _ hlt => ?_
  have horigin : (origins doc.length)[p]? = some (some p) :=
    getElem?_originsFrom.mpr ⟨hlt, (Nat.zero_add p).symm⟩
  obtain ⟨_, hp⟩ := List.getElem?_eq_some_iff.mp horigin
  rw [List.getElem_map, hp]
  simp [look, hlt]

/-- A change makes of a sequence what stands at the places that it keeps. -/
theorem run_nowhere_eq (ss : List (Span α)) (doc : List (Option Nat)) :
    I.nowhere.run ss doc
      = (I.nowhere.run ss (origins doc.length)).map (Option.bind · (look doc)) := by
  have hmap := run_nowhere_map (I := I) (Option.bind · (look doc)) ss (origins doc.length)
  rw [map_look_origins] at hmap
  exact hmap

/-- What is found at a place where a change leads stood at the place from which the change keeps
it. -/
theorem getElem?_run_iff (hc : ∀ s ∈ c.spans, I.Sound s) {doc : List (Option Nat)}
    (hdoc : doc.length = c.length) (x q : Nat) :
    (I.nowhere.run c.spans doc)[q]? = some (some x)
      ↔ ∃ p, doc[p]? = some (some x) ∧ c.Keeps p q := by
  have hlook : ∀ p, look doc p = some x ↔ doc[p]? = some (some x) := by
    intro p
    rw [look, Option.join_eq_some_iff]
  rw [run_nowhere_eq, hdoc, List.getElem?_map, Option.map_eq_some_iff]
  constructor
  · rintro ⟨_ | p, hplace, hp⟩
    · cases hp
    · exact ⟨p, (hlook p).mp hp, (keeps_iff hc p q).mpr hplace⟩
  · rintro ⟨p, hp, hkept⟩
    exact ⟨some p, (keeps_iff hc p q).mp hkept, (hlook p).mpr hp⟩

/-- What stands at the places that a change keeps is found where it leads. -/
theorem some_mem_run_iff (hc : ∀ s ∈ c.spans, I.Sound s) {doc : List (Option Nat)}
    (hdoc : doc.length = c.length) (x : Nat) :
    some x ∈ I.nowhere.run c.spans doc ↔ ∃ p, doc[p]? = some (some x) ∧ ∃ q, c.Keeps p q := by
  rw [List.mem_iff_getElem?]
  simp only [getElem?_run_iff hc hdoc x]
  constructor
  · rintro ⟨q, p, hp, hkept⟩
    exact ⟨p, hp, q, hkept⟩
  · rintro ⟨p, hp, q, hkept⟩
    exact ⟨q, p, hp, hkept⟩

/-- A change that leads to as much of what stands in a sequence as there was keeps all of it. -/
theorem keeps_of_length_eq (hc : ∀ s ∈ c.spans, I.Sound s) {doc : List (Option Nat)}
    (hdoc : doc.length = c.length)
    (hall : ((I.nowhere.run c.spans doc).filterMap id).length = (doc.filterMap id).length)
    {p x : Nat} (hp : doc[p]? = some (some x)) : ∃ q, c.Keeps p q := by
  have hseen : ∀ os : List (Option Nat), ((os.map (Option.bind · (look doc))).filterMap id).length
      = ((os.filterMap id).filter fun p => (look doc p).isSome).length := by
    intro os
    rw [List.filterMap_map, ← List.countP_eq_length_filter, ← List.length_filterMap_eq_countP,
      List.filterMap_filterMap]
    rfl
  have hsub := (filterMap_run_nowhere (I := I) c.spans (origins doc.length)).filter
    fun p => (look doc p).isSome
  have hsame := hsub.eq_of_length (by
    rw [← hseen, ← hseen, ← run_nowhere_eq, map_look_origins, hall])
  have hmem : p ∈ ((origins doc.length).filterMap id).filter fun p => (look doc p).isSome := by
    have hlt : p < doc.length := (List.getElem?_eq_some_iff.mp hp).1
    rw [List.mem_filter, origins, filterMap_originsFrom, List.mem_range'_1]
    exact ⟨by omega, by simp [look, hp]⟩
  rw [← hsame, hdoc] at hmem
  obtain ⟨o, ho, rfl⟩ := List.mem_filterMap.mp (List.mem_filter.mp hmem).1
  exact (exists_keeps_iff hc p).mpr ho

end Keeps

end Reading

end TextRevision
