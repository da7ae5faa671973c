import TextRevision.Proofs.Change.Scripts

/-!
# Patches of a sequence

A patch puts items in the place of a range of a sequence. Patches whose ranges do not overlap can be
made all at once: in their order from left to right, each to what the ones before it have left. The
tokens of patches can also be told place by place, and then the order of the patches only matters
where several insert between the same two items.

Where some patches are listed behind others, a script of both is told place by place as well. It is
orderly if no range overlaps another, and if no insertion stands behind a removal that begins at its
place.

## Main definitions

- `Patch`, `Patch.le`, `Patch.sorted`, `Patch.splice`
- `Patch.told`: the tokens of patches, place by place
- `Patch.script`: a script of two lists of patches, place by place

## Main statements

- `Patch.laid_eq_told`: patches from left to right, told place by place
- `Patch.perform_told`: the tokens of patches make the patches all at once
- `Patch.told_congr`: where the order of patches does not matter
- `Patch.orderly_script`
-/

namespace TextRevision

/-- A range of a sequence, with what takes its place. -/
structure Patch (α : Type) where
  start : Nat
  stop : Nat
  text : α

namespace Patch

variable {α β : Type}

/-- Whether a patch inserts at a place, and removes nothing. -/
def insertsAt (i : Nat) (p : Patch α) : Bool :=
  p.start = i && p.stop = i

/-- Whether a patch replaces items from a place on. -/
def replacesAt (i : Nat) (p : Patch α) : Bool :=
  p.start = i && i < p.stop

/-- Whether a patch removes the item at a place. -/
def covers (i : Nat) (p : Patch α) : Bool :=
  p.start ≤ i && i < p.stop

/-- Whether a patch changes nothing. -/
def isTrivial (p : Patch (List β)) : Bool :=
  p.start = p.stop && p.text.isEmpty

/-- Patches are in order if the range of the first begins before that of the second, or if it begins
there and ends no later. -/
def le (p q : Patch α) : Bool :=
  p.start < q.start || (p.start = q.start && p.stop ≤ q.stop)

/-- The patches that change something, from left to right. Those with the same range stay in their
order. -/
def sorted (ps : List (Patch (List β))) : List (Patch (List β)) :=
  (ps.filter (!·.isTrivial)).mergeSort le

/-- Patches from left to right, made all at once to what is left of a sequence behind `pos`. -/
def splice (pos : Nat) : List (Patch (List β)) → List β → List β
  | [], doc => doc
  | p :: ps, doc =>
    doc.take (p.start - pos) ++ (p.text ++ splice p.stop ps (doc.drop (p.stop - pos)))

section Places

/-- What patches insert at a place, without removing anything. -/
def putAt (ps : List (Patch (List β))) (i : Nat) : List β :=
  (ps.filter (insertsAt i)).flatMap text

/-- What patches put in the place of items from there on. -/
def replacedAt (ps : List (Patch (List β))) (i : Nat) : List β :=
  (ps.filter (replacesAt i)).flatMap text

/-- The tokens of patches at a place and of the item that stands there. -/
def tokensAt (ps : List (Patch (List β))) (i : Nat) : List (Token β) :=
  (putAt ps i).map (.put false) ++ ((replacedAt ps i).map (.put true)
    ++ [.pass (!ps.any (covers i))])

/-- The tokens of patches from place `i` on, where `n` items are left. -/
def told (ps : List (Patch (List β))) (i : Nat) : (n : Nat) → List (Token β)
  | 0 => (putAt ps i).map (.put false)
  | n + 1 => tokensAt ps i ++ told ps (i + 1) n

variable {p : Patch (List β)} {ps qs : List (Patch (List β))} {i n : Nat}

theorem putAt_cons : putAt (p :: ps) i = (if insertsAt i p then p.text else []) ++ putAt ps i := by
  rw [putAt, putAt, List.filter_cons]
  split
  · rfl
  · rfl

theorem replacedAt_cons :
    replacedAt (p :: ps) i = (if replacesAt i p then p.text else []) ++ replacedAt ps i := by
  rw [replacedAt, replacedAt, List.filter_cons]
  split
  · rfl
  · rfl

theorem putAt_append : putAt (ps ++ qs) i = putAt ps i ++ putAt qs i := by
  rw [putAt, putAt, putAt, List.filter_append, List.flatMap_append]

theorem replacedAt_append : replacedAt (ps ++ qs) i = replacedAt ps i ++ replacedAt qs i := by
  rw [replacedAt, replacedAt, replacedAt, List.filter_append, List.flatMap_append]

theorem putAt_eq_nil (h : ∀ q ∈ ps, ¬ (q.start = i ∧ q.stop = i)) : putAt ps i = [] := by
  rw [putAt, List.filter_eq_nil_iff.mpr, List.flatMap_nil]
  intro q hq
  simpa [insertsAt] using h q hq

theorem replacedAt_eq_nil (h : ∀ q ∈ ps, ¬ (q.start = i ∧ i < q.stop)) : replacedAt ps i = [] := by
  rw [replacedAt, List.filter_eq_nil_iff.mpr, List.flatMap_nil]
  intro q hq
  simpa [replacesAt] using h q hq

theorem any_covers_eq_false (h : ∀ q ∈ ps, ¬ (q.start ≤ i ∧ i < q.stop)) :
    ps.any (covers i) = false := by
  rw [List.any_eq_false]
  intro q hq
  simpa [covers] using h q hq

/-- The tokens of patches only depend on what is told at each place. -/
theorem told_congr (hput : ∀ j, i ≤ j → putAt ps j = putAt qs j)
    (hreplaced : ∀ j, i ≤ j → replacedAt ps j = replacedAt qs j)
    (hcovers : ∀ j, i ≤ j → ps.any (covers j) = qs.any (covers j)) (n : Nat) :
    told ps i n = told qs i n := by
  induction n generalizing i with
  | zero => rw [told, told, hput i (Nat.le_refl i)]
  | succ n ih =>
    have hi : i ≤ i := Nat.le_refl i
    rw [told, told, tokensAt, tokensAt, hput i hi, hreplaced i hi, hcovers i hi,
      ih (fun j hj => hput j (Nat.le_of_succ_le hj))
        (fun j hj => hreplaced j (Nat.le_of_succ_le hj))
        (fun j hj => hcovers j (Nat.le_of_succ_le hj))]

/-- A run of places where items are only passed. -/
theorem told_run {kept : Bool} {k : Nat}
    (h : ∀ j, i ≤ j → j < i + k → tokensAt ps j = [.pass kept]) :
    told ps i (k + n) = List.replicate k (.pass kept) ++ told ps (i + k) n := by
  induction k generalizing i with
  | zero =>
    rw [Nat.zero_add]
    rfl
  | succ k ih =>
    rw [Nat.succ_add, told, h i (Nat.le_refl i) (by omega),
      ih fun j hj hlt => h j (by omega) (by omega), List.replicate_succ, Nat.succ_add_eq_add_succ]
    rfl

/-- Patches that are passed are not told any more. -/
theorem told_past (h : p.stop ≤ i) (h' : p.start < i) : told (p :: ps) i n = told ps i n := by
  refine told_congr (fun j hj => ?_) (fun j hj => ?_) (fun j hj => ?_) n
  · have hnot : insertsAt j p = false := by
      rw [insertsAt, Bool.and_eq_false_iff, decide_eq_false_iff_not]
      exact Or.inl (by omega)
    rw [putAt_cons, hnot, if_neg Bool.false_ne_true, List.nil_append]
  · have hnot : replacesAt j p = false := by
      rw [replacesAt, Bool.and_eq_false_iff, decide_eq_false_iff_not]
      exact Or.inl (by omega)
    rw [replacedAt_cons, hnot, if_neg Bool.false_ne_true, List.nil_append]
  · have hnot : covers j p = false := by
      rw [covers, Bool.and_eq_false_iff, decide_eq_false_iff_not, decide_eq_false_iff_not]
      exact Or.inr (by omega)
    rw [List.any_cons, hnot, Bool.false_or]

end Places

section Forward

/-- Patches from left to right, each behind the ones before it. -/
def Forward (pos : Nat) : List (Patch α) → Prop
  | [] => True
  | p :: ps => pos ≤ p.start ∧ p.start ≤ p.stop ∧ Forward p.stop ps

/-- The place that patches from left to right reach. -/
def reach (pos : Nat) : List (Patch α) → Nat
  | [] => pos
  | p :: ps => reach p.stop ps

/-- The tokens of one patch. -/
def tokens (p : Patch (List β)) : List (Token β) :=
  p.text.map (.put (0 < p.stop - p.start)) ++ List.replicate (p.stop - p.start) (.pass false)

/-- The tokens of patches from left to right, and of the items up to the last of them. -/
def laid (pos : Nat) : List (Patch (List β)) → List (Token β)
  | [] => []
  | p :: ps => List.replicate (p.start - pos) (.pass true) ++ (p.tokens ++ laid p.stop ps)

variable {p q : Patch (List β)} {ps : List (Patch (List β))} {pos : Nat}

theorem reach_append_singleton (pos : Nat) (ps : List (Patch α)) (q : Patch α) :
    reach pos (ps ++ [q]) = q.stop := by
  induction ps generalizing pos with
  | nil => rfl
  | cons p ps ih => exact ih p.stop

theorem Forward.append_singleton {ps : List (Patch α)} {q : Patch α} (h : Forward pos ps)
    (hle : reach pos ps ≤ q.start) (hrange : q.start ≤ q.stop) : Forward pos (ps ++ [q]) := by
  induction ps generalizing pos with
  | nil => exact ⟨hle, hrange, trivial⟩
  | cons p ps ih =>
    obtain ⟨hstart, hstop, hrest⟩ := h
    exact ⟨hstart, hstop, ih hrest hle⟩

theorem laid_append_singleton (pos : Nat) (ps : List (Patch (List β))) (q : Patch (List β)) :
    laid pos (ps ++ [q])
      = laid pos ps ++ (List.replicate (q.start - reach pos ps) (.pass true) ++ q.tokens) := by
  induction ps generalizing pos with
  | nil =>
    rw [List.nil_append, laid, laid, laid, List.append_nil]
    rfl
  | cons p ps ih =>
    rw [List.cons_append, laid, laid, ih, List.append_assoc, List.append_assoc]
    rfl

theorem Forward.le_reach {ps : List (Patch α)} (h : Forward pos ps) : pos ≤ reach pos ps := by
  induction ps generalizing pos with
  | nil => exact Nat.le_refl pos
  | cons p ps ih =>
    obtain ⟨hstart, hstop, hrest⟩ := h
    exact Nat.le_trans (Nat.le_trans hstart hstop) (ih hrest)

/-- Patches from left to right lie behind the first of them. -/
theorem Forward.le_start {ps : List (Patch α)} (h : Forward pos ps) :
    ∀ q ∈ ps, pos ≤ q.start ∧ q.start ≤ q.stop := by
  induction ps generalizing pos with
  | nil => simp
  | cons p ps ih =>
    obtain ⟨hstart, hstop, hrest⟩ := h
    refine List.forall_mem_cons.mpr ⟨⟨hstart, hstop⟩, fun q hq => ?_⟩
    obtain ⟨hle, hle'⟩ := ih hrest q hq
    exact ⟨Nat.le_trans (Nat.le_trans hstart hstop) hle, hle'⟩

/-- The tokens of a patch come first at its place. -/
theorem told_head {n : Nat} (h : Forward p.stop ps) (hrange : p.start ≤ p.stop) :
    told (p :: ps) p.start (p.stop - p.start + n) = p.tokens ++ told ps p.stop n := by
  have hbehind := h.le_start
  rcases Nat.eq_or_lt_of_le hrange with hsame | hlt
  · have hinserts : insertsAt p.start p = true := by simp [insertsAt, hsame]
    have hreplaces : replacesAt p.start p = false := by simp [replacesAt, hsame]
    have hcovers : covers p.start p = false := by simp [covers, hsame]
    have htokens : p.tokens = p.text.map (.put false) := by
      rw [tokens, ← hsame, Nat.sub_self, List.replicate_zero, List.append_nil]
      rfl
    rw [htokens, ← hsame, Nat.sub_self, Nat.zero_add]
    cases n with
    | zero => rw [told, told, putAt_cons, if_pos hinserts, List.map_append]
    | succ n =>
      rw [told, told, tokensAt, tokensAt, putAt_cons, if_pos hinserts, replacedAt_cons, hreplaces,
        if_neg Bool.false_ne_true, List.nil_append, List.any_cons, hcovers, Bool.false_or,
        told_past (by omega) (Nat.lt_succ_self _), List.map_append]
      simp only [List.append_assoc]
  · have hput : putAt (p :: ps) p.start = [] := by
      refine putAt_eq_nil (List.forall_mem_cons.mpr ⟨by omega, fun q hq => ?_⟩)
      have := hbehind q hq
      omega
    have hreplaces : replacesAt p.start p = true := by simp [replacesAt, hlt]
    have hreplaced : replacedAt ps p.start = [] := by
      refine replacedAt_eq_nil fun q hq => ?_
      have := hbehind q hq
      omega
    have hcovers : covers p.start p = true := by simp [covers, hlt]
    obtain ⟨k, hk⟩ := Nat.exists_eq_succ_of_ne_zero (Nat.sub_ne_zero_of_lt hlt)
    have hinside : ∀ j, p.start + 1 ≤ j → j < p.start + 1 + k →
        tokensAt (p :: ps) j = [.pass false] := by
      intro j hj hjk
      have hjput : putAt (p :: ps) j = [] := by
        refine putAt_eq_nil (List.forall_mem_cons.mpr ⟨by omega, fun q hq => ?_⟩)
        have := hbehind q hq
        omega
      have hjreplaced : replacedAt (p :: ps) j = [] := by
        refine replacedAt_eq_nil (List.forall_mem_cons.mpr ⟨by omega, fun q hq => ?_⟩)
        have := hbehind q hq
        omega
      have hjcovers : covers j p = true := by
        rw [covers, Bool.and_eq_true, decide_eq_true_eq, decide_eq_true_eq]
        omega
      rw [tokensAt, hjput, hjreplaced, List.any_cons, hjcovers, Bool.true_or]
      rfl
    have hreach : p.start + 1 + k = p.stop := by omega
    rw [hk, Nat.succ_add, told, told_run hinside, hreach, told_past (Nat.le_refl _) hlt, tokensAt,
      hput, replacedAt_cons, if_pos hreplaces, hreplaced, List.append_nil, List.any_cons, hcovers,
      Bool.true_or, tokens, hk, List.replicate_succ, decide_eq_true (Nat.succ_pos k)]
    simp

/-- Patches from left to right, told place by place. -/
theorem laid_eq_told {n : Nat} (h : Forward pos ps) (hle : reach pos ps ≤ pos + n) :
    laid pos ps ++ List.replicate (pos + n - reach pos ps) (.pass true) = told ps pos n := by
  induction ps generalizing pos n with
  | nil =>
    have hquiet : ∀ j, pos ≤ j → j < pos + n →
        tokensAt ([] : List (Patch (List β))) j = [.pass true] := fun j _ _ => rfl
    have hrun := told_run (n := 0) hquiet
    rw [Nat.add_zero] at hrun
    rw [hrun, reach, Nat.add_sub_cancel_left]
    exact (List.append_nil _).symm
  | cons p ps ih =>
    obtain ⟨hstart, hstop, hrest⟩ := h
    have hreach := hrest.le_reach
    have hbehind := hrest.le_start
    rw [reach] at hle ⊢
    obtain ⟨m, rfl⟩ : ∃ m, n = p.start - pos + (p.stop - p.start + m) :=
      ⟨pos + n - p.stop, by omega⟩
    have hquiet : ∀ j, pos ≤ j → j < pos + (p.start - pos) →
        tokensAt (p :: ps) j = [.pass true] := by
      intro j _ hj
      rw [tokensAt, putAt_eq_nil, replacedAt_eq_nil, any_covers_eq_false]
      · rfl
      · refine List.forall_mem_cons.mpr ⟨by omega, fun q hq => ?_⟩
        have := hbehind q hq
        omega
      · refine List.forall_mem_cons.mpr ⟨by omega, fun q hq => ?_⟩
        have := hbehind q hq
        omega
      · refine List.forall_mem_cons.mpr ⟨by omega, fun q hq => ?_⟩
        have := hbehind q hq
        omega
    have hplace : pos + (p.start - pos) = p.start := Nat.add_sub_cancel' hstart
    have hend : pos + (p.start - pos + (p.stop - p.start + m)) = p.stop + m := by omega
    rw [hend] at hle
    rw [told_run hquiet, hplace, told_head hrest hstop, ← ih hrest hle, hend, laid]
    simp only [List.append_assoc]

/-- Patches from left to right are made by their tokens. -/
theorem perform_laid {k : Nat} {doc : List β} (h : Forward pos ps)
    (hdoc : doc.length ≤ reach pos ps - pos + k) :
    Token.perform (laid pos ps ++ List.replicate k (.pass true)) doc = splice pos ps doc := by
  induction ps generalizing pos doc with
  | nil =>
    rw [reach, Nat.sub_self, Nat.zero_add] at hdoc
    have hpasses := Token.perform_passes true k [] doc
    rw [List.append_nil] at hpasses
    rw [laid, List.nil_append, hpasses, if_pos rfl, List.take_of_length_le hdoc, splice]
    exact List.append_nil doc
  | cons p ps ih =>
    obtain ⟨hstart, hstop, hrest⟩ := h
    have hreach := hrest.le_reach
    rw [reach] at hdoc
    have hbehind :
        (doc.drop (p.start - pos)).drop (p.stop - p.start) = doc.drop (p.stop - pos) := by
      rw [List.drop_drop]
      congr 1
      omega
    have hlength : (doc.drop (p.stop - pos)).length ≤ reach p.stop ps - p.stop + k := by
      rw [List.length_drop]
      omega
    rw [laid, List.append_assoc, List.append_assoc, Token.perform_passes, if_pos rfl, tokens,
      List.append_assoc, Token.perform_puts, Token.perform_passes, if_neg Bool.false_ne_true,
      List.nil_append, hbehind, ih hrest hlength, splice]

/-- The tokens of patches make the patches all at once. -/
theorem perform_told {doc : List β} (h : Forward 0 ps) (hle : reach 0 ps ≤ doc.length) :
    Token.perform (told ps 0 doc.length) doc = splice 0 ps doc := by
  have htold := laid_eq_told h (Nat.le_trans hle (Nat.le_of_eq (Nat.zero_add _).symm))
  rw [← htold]
  exact perform_laid h (by omega)

end Forward

/-- One patch does not overlap another. -/
def Clear (p q : Patch α) : Prop :=
  p.stop ≤ q.start ∨ q.stop ≤ p.start

theorem Clear.symm {p q : Patch α} (h : p.Clear q) : q.Clear p :=
  Or.symm h

/-- One patch only removes items, and another one inserts where it begins. -/
structure Hides (p q : Patch (List β)) : Prop where
  removes : p.start < p.stop
  nothing : p.text = []
  start : q.start = p.start
  stop : q.stop = p.start
  something : q.text ≠ []

instance [DecidableEq β] (p q : Patch (List β)) : Decidable (p.Hides q) :=
  decidable_of_iff (p.start < p.stop ∧ p.text = [] ∧ q.start = p.start ∧ q.stop = p.start
      ∧ q.text ≠ [])
    ⟨fun ⟨hremoves, hnothing, hstart, hstop, hsomething⟩ =>
      ⟨hremoves, hnothing, hstart, hstop, hsomething⟩,
    fun h => ⟨h.removes, h.nothing, h.start, h.stop, h.something⟩⟩

/-- One patch may be listed before another. -/
structure Precedes (p q : Patch (List β)) : Prop where
  clear : p.Clear q
  shown : ¬ p.Hides q

section Scripts

/-- What two lists of patches do with the item at a place. -/
def itemAt (ps qs : List (Patch (List β))) (i : Nat) : Event β :=
  if ps.any (covers i) then .drop else if qs.any (covers i) then .lateDrop else .keep

/-- The events of two lists of patches from place `i` on, where `n` items are left. -/
def script (ps qs : List (Patch (List β))) (i : Nat) : (n : Nat) → List (Event β)
  | 0 => (putAt ps i).map (.put false) ++ ((putAt qs i).map (.latePut false) ++ [])
  | n + 1 => (putAt ps i).map (.put false) ++ ((putAt qs i).map (.latePut false)
      ++ ((replacedAt ps i).map (.put true) ++ ((replacedAt qs i).map (.latePut true)
        ++ itemAt ps qs i :: script ps qs (i + 1) n)))

variable {ps qs : List (Patch (List β))} {i n : Nat}

theorem earlier_itemAt : (itemAt ps qs i).earlier = [.pass (!ps.any (covers i))] := by
  rw [itemAt]
  split
  · next h => rw [h]; rfl
  · next h =>
    rw [Bool.not_eq_true] at h
    rw [h]
    split <;> rfl

theorem later_itemAt (h : ps.any (covers i) = true → qs.any (covers i) = false) :
    (itemAt ps qs i).later = [.pass (!qs.any (covers i))] := by
  rw [itemAt]
  split
  · next hps => rw [h hps]; rfl
  · split
    · next hqs => rw [hqs]; rfl
    · next hqs => rw [Bool.not_eq_true] at hqs; rw [hqs]; rfl

theorem both_itemAt : (itemAt ps qs i).both = [.pass (!(ps ++ qs).any (covers i))] := by
  rw [itemAt, List.any_append]
  split
  · next hps => rw [hps]; rfl
  · next hps =>
    rw [Bool.not_eq_true] at hps
    rw [hps]
    split
    · next hqs => rw [hqs]; rfl
    · next hqs => rw [Bool.not_eq_true] at hqs; rw [hqs]; rfl

/-- The earlier change of the script is that of the first patches. -/
theorem earlier_script (ps qs : List (Patch (List β))) :
    (script ps qs i n).flatMap Event.earlier = told ps i n := by
  induction n generalizing i with
  | zero => simp [script, told]
  | succ n ih =>
    rw [script, told, tokensAt]
    simp [earlier_itemAt, ih]

/-- The later change of the script is that of the patches behind them. -/
theorem later_script (h : ∀ p ∈ ps, ∀ q ∈ qs, p.Clear q) :
    (script ps qs i n).flatMap Event.later = told qs i n := by
  have hcovers : ∀ j, ps.any (covers j) = true → qs.any (covers j) = false := by
    intro j hps
    obtain ⟨p, hp, hpj⟩ := List.any_eq_true.mp hps
    rw [covers, Bool.and_eq_true, decide_eq_true_eq, decide_eq_true_eq] at hpj
    refine any_covers_eq_false fun q hq => ?_
    have hclear := h p hp q hq
    rw [Clear] at hclear
    omega
  induction n generalizing i with
  | zero => simp [script, told]
  | succ n ih =>
    rw [script, told, tokensAt]
    simp [later_itemAt (hcovers i), ih]

/-- Both changes of the script, put behind each other, are that of all patches. -/
theorem both_script : (script ps qs i n).flatMap Event.both = told (ps ++ qs) i n := by
  induction n generalizing i with
  | zero => simp [script, told, putAt_append]
  | succ n ih =>
    rw [script, told, tokensAt, putAt_append, replacedAt_append]
    simp [both_itemAt, ih]

theorem exists_of_mem_putAt {x : β} (h : x ∈ putAt ps i) :
    ∃ p ∈ ps, p.start = i ∧ p.stop = i ∧ x ∈ p.text := by
  obtain ⟨p, hp, hx⟩ := List.mem_flatMap.mp h
  obtain ⟨hmem, hinserts⟩ := List.mem_filter.mp hp
  rw [insertsAt, Bool.and_eq_true, decide_eq_true_eq, decide_eq_true_eq] at hinserts
  exact ⟨p, hmem, hinserts.1, hinserts.2, hx⟩

theorem exists_of_mem_replacedAt {x : β} (h : x ∈ replacedAt ps i) :
    ∃ p ∈ ps, p.start = i ∧ i < p.stop ∧ x ∈ p.text := by
  obtain ⟨p, hp, hx⟩ := List.mem_flatMap.mp h
  obtain ⟨hmem, hreplaces⟩ := List.mem_filter.mp hp
  rw [replacesAt, Bool.and_eq_true, decide_eq_true_eq, decide_eq_true_eq] at hreplaces
  exact ⟨p, hmem, hreplaces.1, hreplaces.2, hx⟩

theorem any_covers_of_start {p : Patch (List β)} (hp : p ∈ ps) (hstart : p.start ≤ i)
    (hstop : i < p.stop) : ps.any (covers i) = true :=
  List.any_eq_true.mpr ⟨p, hp, by simp [covers, hstart, hstop]⟩

/-- Patches behind others that they may be listed behind have an orderly script. -/
theorem orderly_script (h : ∀ p ∈ ps, ∀ q ∈ qs, p.Precedes q) :
    Event.Orderly (script ps qs i n) := by
  induction n generalizing i with
  | zero =>
    refine Event.Orderly.append_run (Event.Orderly.append_run List.isChain_nil ?_ ?_) ?_ ?_
    · exact fun _ _ => trivial
    · rintro _ _ _ ⟨⟩
    · exact fun _ _ => trivial
    · exact fun _ _ _ _ => trivial
  | succ n ih =>
    rw [script]
    have hitem : Event.Orderly (itemAt ps qs i :: script ps qs (i + 1) n) := by
      rw [Event.Orderly, List.isChain_cons]
      refine ⟨fun e _ => ?_, ih⟩
      rw [itemAt]
      split
      · trivial
      · split <;> trivial
    have hlate : Event.Orderly ((replacedAt qs i).map (.latePut true)
        ++ itemAt ps qs i :: script ps qs (i + 1) n) := by
      refine hitem.append_run (fun _ _ => trivial) fun x hx e he => ?_
      obtain ⟨q, hq, hstart, hstop, -⟩ := exists_of_mem_replacedAt hx
      obtain rfl := Option.some.inj he
      have hps : ps.any (covers i) = false := by
        refine any_covers_eq_false fun p hp => ?_
        have hclear := (h p hp q hq).clear
        rw [Clear] at hclear
        omega
      rw [itemAt, hps, if_neg Bool.false_ne_true,
        if_pos (any_covers_of_start hq (Nat.le_of_eq hstart) hstop)]
      trivial
    have hreplaced : Event.Orderly ((replacedAt ps i).map (.put true)
        ++ ((replacedAt qs i).map (.latePut true)
          ++ itemAt ps qs i :: script ps qs (i + 1) n)) := by
      refine hlate.append_run (fun _ _ => trivial) fun x hx e he => ?_
      obtain ⟨p, hp, hstart, hstop, -⟩ := exists_of_mem_replacedAt hx
      have hnone : replacedAt qs i = [] := by
        refine replacedAt_eq_nil fun q hq => ?_
        have hclear := (h p hp q hq).clear
        rw [Clear] at hclear
        omega
      rw [hnone] at he
      obtain rfl := Option.some.inj he
      rw [itemAt, if_pos (any_covers_of_start hp (Nat.le_of_eq hstart) hstop)]
      trivial
    have hlatePut : Event.Orderly ((putAt qs i).map (.latePut false)
        ++ ((replacedAt ps i).map (.put true) ++ ((replacedAt qs i).map (.latePut true)
          ++ itemAt ps qs i :: script ps qs (i + 1) n))) := by
      refine hreplaced.append_run (fun _ _ => trivial) fun x hx e he => ?_
      obtain ⟨q, hq, hstart, hstop, hxq⟩ := exists_of_mem_putAt hx
      cases hps : replacedAt ps i with
      | cons y ys =>
        rw [hps] at he
        obtain rfl := Option.some.inj he
        trivial
      | nil =>
        cases hqs : replacedAt qs i with
        | cons y ys =>
          rw [hps, hqs] at he
          obtain rfl := Option.some.inj he
          trivial
        | nil =>
          rw [hps, hqs] at he
          obtain rfl := Option.some.inj he
          rw [itemAt]
          split
          · next hcovers =>
            -- The removal that covers the place begins there and puts nothing in.
            obtain ⟨p, hp, hpi⟩ := List.any_eq_true.mp hcovers
            rw [covers, Bool.and_eq_true, decide_eq_true_eq, decide_eq_true_eq] at hpi
            have hclear := (h p hp q hq).clear
            rw [Clear] at hclear
            have hpstart : p.start = i := by omega
            have hnothing : p.text = [] := by
              have hreplaces : replacesAt i p = true := by simp [replacesAt, hpstart, hpi.2]
              exact List.flatMap_eq_nil_iff.mp hps p (List.mem_filter.mpr ⟨hp, hreplaces⟩)
            exact (h p hp q hq).shown ⟨by omega, hnothing, by omega, by omega,
              List.ne_nil_of_mem hxq⟩
          · split <;> trivial
    exact hlatePut.append_run (fun _ _ => trivial) fun _ _ _ _ => trivial

end Scripts

section Order

variable {ps qs : List (Patch (List β))}

theorem le_trans' (p q r : Patch α) (h : p.le q = true) (h' : q.le r = true) : p.le r = true := by
  simp only [le, Bool.or_eq_true, Bool.and_eq_true, decide_eq_true_eq] at h h' ⊢
  omega

theorem le_total' (p q : Patch α) : (p.le q || q.le p) = true := by
  simp only [le, Bool.or_eq_true, Bool.and_eq_true, decide_eq_true_eq]
  omega

/-- At most one of patches that do not overlap replaces items from a place on. -/
theorem length_filter_replacesAt_le (h : ps.Pairwise Clear) (i : Nat) :
    (ps.filter (replacesAt i)).length ≤ 1 := by
  have hclear := h.filter (replacesAt i)
  have hreplaces : ∀ p ∈ ps.filter (replacesAt i), p.start = i ∧ i < p.stop := by
    intro p hp
    simpa [replacesAt] using (List.mem_filter.mp hp).2
  cases hps : ps.filter (replacesAt i) with
  | nil => exact Nat.zero_le 1
  | cons p rest =>
    cases rest with
    | nil => exact Nat.le_refl 1
    | cons q rest =>
      rw [hps] at hclear hreplaces
      have hpq := (List.pairwise_cons.mp hclear).1 q List.mem_cons_self
      have hp := hreplaces p List.mem_cons_self
      have hq := hreplaces q (List.mem_cons_of_mem _ List.mem_cons_self)
      rw [Clear] at hpq
      omega

/-- The order of patches that do not overlap only matters where several insert at one place. -/
theorem told_perm (hperm : ps.Perm qs) (hclear : ps.Pairwise Clear)
    (hput : ∀ i, ps.filter (insertsAt i) = qs.filter (insertsAt i)) (i n : Nat) :
    told ps i n = told qs i n := by
  refine told_congr (fun j _ => ?_) (fun j _ => ?_) (fun j _ => ?_) n
  · rw [putAt, putAt, hput]
  · have hle := length_filter_replacesAt_le hclear j
    have hsame := hperm.filter (replacesAt j)
    rw [replacedAt, replacedAt]
    generalize ps.filter (replacesAt j) = xs at hle hsame
    obtain hnil | ⟨p, hp⟩ : xs = [] ∨ ∃ p, xs = [p] := by
      cases xs with
      | nil => exact Or.inl rfl
      | cons p rest => exact Or.inr ⟨p, by simpa using hle⟩
    · rw [hnil] at hsame ⊢
      rw [hsame.symm.eq_nil]
    · rw [hp] at hsame ⊢
      rw [List.perm_singleton.mp hsame.symm]
  · exact hperm.any_eq

/-- Sorting patches keeps the order of those that insert at one place. -/
theorem filter_sorted (ps : List (Patch (List β))) (i : Nat) :
    (sorted ps).filter (insertsAt i) = (ps.filter (!·.isTrivial)).filter (insertsAt i) := by
  generalize hqs : ps.filter (!·.isTrivial) = qs
  have hordered : (qs.filter (insertsAt i)).Pairwise (fun p q => p.le q = true) := by
    refine List.pairwise_of_forall_mem_list fun p hp q hq => ?_
    have hp := (List.mem_filter.mp hp).2
    have hq := (List.mem_filter.mp hq).2
    simp only [insertsAt, Bool.and_eq_true, decide_eq_true_eq] at hp hq
    simp only [le, Bool.or_eq_true, Bool.and_eq_true, decide_eq_true_eq]
    omega
  have hsub : (qs.filter (insertsAt i)).Sublist (qs.mergeSort le) :=
    List.sublist_mergeSort le_trans' le_total' hordered List.filter_sublist
  have hsub := hsub.filter (insertsAt i)
  rw [List.filter_filter] at hsub
  simp only [Bool.and_self] at hsub
  have hlength :
      (qs.filter (insertsAt i)).length = ((qs.mergeSort le).filter (insertsAt i)).length :=
    ((List.mergeSort_perm qs le).filter (insertsAt i)).length_eq.symm
  rw [sorted, hqs]
  exact (hsub.eq_of_length hlength).symm

theorem sorted_perm (ps : List (Patch (List β))) : (sorted ps).Perm (ps.filter (!·.isTrivial)) :=
  List.mergeSort_perm _ _

/-- Patches of which each ends before the next begins lie from left to right. -/
theorem forward_of_isChain {ps : List (Patch α)} (hrange : ∀ p ∈ ps, p.start ≤ p.stop)
    (h : ps.IsChain fun p q => p.stop ≤ q.start) {pos : Nat}
    (hpos : ∀ p ∈ ps.head?, pos ≤ p.start) :
    Forward pos ps := by
  induction ps generalizing pos with
  | nil => trivial
  | cons p ps ih =>
    obtain ⟨hp, hps⟩ := List.forall_mem_cons.mp hrange
    rw [List.isChain_cons] at h
    exact ⟨hpos p rfl, hp, ih hps h.2 h.1⟩

theorem Forward.pairwise {ps : List (Patch α)} {pos : Nat} (h : Forward pos ps) :
    ps.Pairwise Clear := by
  induction ps generalizing pos with
  | nil => exact List.Pairwise.nil
  | cons p ps ih =>
    obtain ⟨-, -, hrest⟩ := h
    exact List.pairwise_cons.mpr ⟨fun q hq => Or.inl (hrest.le_start q hq).1, ih hrest⟩

theorem Forward.reach_le {ps : List (Patch α)} {pos length : Nat} (h : Forward pos ps)
    (hpos : pos ≤ length) (hstop : ∀ p ∈ ps, p.stop ≤ length) : reach pos ps ≤ length := by
  induction ps generalizing pos with
  | nil => exact hpos
  | cons p ps ih =>
    obtain ⟨hp, hps⟩ := List.forall_mem_cons.mp hstop
    exact ih h.2.2 hp hps

/-- The tokens of patches are those of the patches from left to right. -/
theorem told_sorted (h : Forward 0 (sorted ps)) (i n : Nat) :
    told (sorted ps) i n = told (ps.filter (!·.isTrivial)) i n :=
  told_perm (sorted_perm ps) h.pairwise (filter_sorted ps) i n

end Order

end Patch

end TextRevision
