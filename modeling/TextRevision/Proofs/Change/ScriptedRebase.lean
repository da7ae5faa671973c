import TextRevision.Proofs.Change.Rebasing
import TextRevision.Proofs.Change.Scripts

/-!
# Rebasing by a script

The walk that rebases a later change over an earlier one follows the script of both: in every move
it passes the next events, and it writes what the rebased change tells of them. An orderly script
leaves no choice about whose turn it is, and the two changes never remove the same items.

## Main definitions

- `Reading.Late`: what is left of the later change

## Main statements

- `Reading.absorb_script`, `Reading.passKept_script`: the two inner loops
- `Reading.turns_script`: the turns of the walk
-/

namespace TextRevision

variable {α β : Type} [Insertion α]

namespace Reading

variable {I : Reading α β}

section Heads

variable {r : Rest α} {rs : List (Rest α)} {ts : List (Token β)}

/-- A kept run passes an item first. -/
theorem tokens_head_kept (rs : List (Rest α)) (h : I.Fresh r) (hkept : r.count < 0) :
    ∃ ts, I.tokens (r :: rs) = .pass true :: ts := by
  obtain ⟨n, hn⟩ := Nat.exists_eq_succ_of_ne_zero (Nat.ne_of_gt (h.kept hkept))
  refine ⟨List.replicate n (.pass true) ++ I.tokens rs, ?_⟩
  rw [tokens_cons, tokensOf_kept hkept, hn, List.replicate_succ, List.cons_append]

/-- What replaces items begins with insertions that do so, and an item that is removed. -/
theorem tokens_replaced (rs : List (Rest α)) (hput : 0 ≤ r.count) (hpos : 0 < r.length) :
    ∃ (xs : List β) (ts : List (Token β)),
      I.tokens (r :: rs) = xs.map (.put true) ++ .pass false :: ts := by
  obtain ⟨n, hn⟩ := Nat.exists_eq_succ_of_ne_zero (Nat.ne_of_gt hpos)
  have hreplacing : decide (0 < r.length) = true := decide_eq_true hpos
  rw [tokens_cons, tokensOf, if_neg (Int.not_lt.mpr hput), hreplacing, List.append_assoc, hn,
    List.replicate_succ]
  split
  · exact ⟨_, _, rfl⟩
  · exact ⟨[], _, rfl⟩

/-- A run that inserts something begins with that. -/
theorem tokens_inserted (rs : List (Rest α)) (hproper : I.Proper r.text r.count.toNat)
    (hcount : 0 < r.count) (hpassed : r.passed = 0) :
    ∃ (x : β) (ts : List (Token β)), I.tokens (r :: rs) = .put (0 < r.length) x :: ts := by
  have hlength := I.length_content _ _ hproper
  rw [tokens_cons, tokensOf_put (Int.le_of_lt hcount) hpassed]
  cases hcontent : I.content r.text r.count.toNat with
  | nil =>
    rw [hcontent, List.length_nil] at hlength
    omega
  | cons x xs => exact ⟨x, _, rfl⟩

/-- A run that keeps the first item is a kept one. -/
theorem kept_of_tokens (hproper : I.Proper r.text r.count.toNat)
    (hvoid : 0 < r.length ∨ (0 < r.count ∧ r.passed = 0))
    (ht : I.tokens (r :: rs) = .pass true :: ts) : r.count < 0 := by
  by_contra hkept
  rcases hvoid with hpos | ⟨hcount, hpassed⟩
  · obtain ⟨xs, us, hus⟩ := tokens_replaced rs (Int.not_lt.mp hkept) hpos
    rw [hus] at ht
    cases xs <;> cases ht
  · obtain ⟨x, us, hus⟩ := tokens_inserted rs hproper hcount hpassed
    rw [hus] at ht
    cases ht

/-- What takes the place of items does not begin with an insertion between items. -/
theorem tokens_ne_put_false (hput : 0 ≤ r.count) (hpos : 0 < r.length) (y : β)
    (us : List (Token β)) : I.tokens (r :: rs) ≠ .put false y :: us := by
  obtain ⟨xs, ts, hts⟩ := tokens_replaced rs hput hpos
  rw [hts]
  cases xs <;> rintro ⟨⟩

end Heads

/-- What is left of the later change: its spans are fresh, or the insertion of the first was told
and some of its items were passed. -/
inductive Late (I : Reading α β) : Bool → List (Rest α) → Prop
  | untold {as : List (Rest α)} : (∀ a ∈ as, I.Fresh a) → Late I false as
  | told {a : Rest α} {as : List (Rest α)} : 0 ≤ a.count → 0 < a.passed → 0 < a.length →
    (∀ t ∈ as, I.Fresh t) → Late I true (a :: as)

section Loops

variable {as as' bs : List (Rest α)} {told' : Bool} {len left : Nat} {spans spans' : List (Span α)}
  {ts : List (Token β)} {s : List (Event β)}

/-- Items that the earlier change removes and the later one keeps are passed. -/
theorem absorb_script (has : ∀ a ∈ as, I.Fresh a)
    (htokens : I.tokens as = List.replicate len (.pass true) ++ ts)
    (h : Change.absorb as false len spans = some (as', told', spans')) :
    spans' = spans ∧ told' = false ∧ (∀ a ∈ as', I.Fresh a) ∧ I.tokens as' = ts := by
  induction as generalizing len with
  | nil =>
    cases len with
    | zero =>
      obtain ⟨rfl, rfl, rfl⟩ : [] = as' ∧ false = told' ∧ spans = spans' := by
        simpa [Change.absorb] using h
      exact ⟨rfl, rfl, has, htokens⟩
    | succ len => cases htokens
  | cons a as ih =>
    cases len with
    | zero =>
      obtain ⟨rfl, rfl, rfl⟩ : a :: as = as' ∧ false = told' ∧ spans = spans' := by
        simpa [Change.absorb] using h
      exact ⟨rfl, rfl, has, htokens⟩
    | succ len =>
      obtain ⟨ha, has⟩ := List.forall_mem_cons.mp has
      have hkept : a.count < 0 := by
        refine kept_of_tokens ha.proper ?_ htokens
        have := ha.not_void
        have := ha.whole
        omega
      rw [Change.absorb] at h
      split at h
      · next hle =>
        rw [if_neg (by omega)] at h
        refine ih has ?_ h
        rw [tokens_cons, tokensOf_kept hkept, Token.passes_eq_append hle,
          List.append_assoc] at htokens
        exact List.append_cancel_left htokens
      · next hlt =>
        obtain ⟨rfl, rfl, rfl⟩ :
            Rest.forward (len + 1) (a :: as) = as' ∧ false = told' ∧ spans = spans' := by
          simpa using h
        have hlen : len + 1 ≤ a.length := Nat.le_of_not_le hlt
        rw [tokens_forward_kept hkept hlen] at htokens
        exact ⟨rfl, rfl, ha.forward has hkept hlen, List.append_cancel_left htokens⟩

/-- Items that the later change removes are passed up to the next insertion of the earlier one. -/
theorem passKept_script {met : Passage α} (hmet : Change.passKept left bs = met)
    (hs : Event.Orderly s) (hbs : ∀ b ∈ bs, I.Fresh b)
    (hearlier : s.flatMap Event.earlier = I.tokens bs)
    (hlater : s.flatMap Event.later = List.replicate left (.pass false) ++ ts) :
    ∃ s', s = List.replicate met.kept .lateDrop ++ s' ∧ met.kept + met.left = left
      ∧ (∀ b ∈ met.spans, I.Fresh b) ∧ s'.flatMap Event.earlier = I.tokens met.spans
      ∧ s'.flatMap Event.later = List.replicate met.left (.pass false) ++ ts := by
  induction bs generalizing left s met with
  | nil =>
    obtain rfl := hmet
    exact ⟨s, rfl, Nat.zero_add _, hbs, hearlier, hlater⟩
  | cons b bs ih =>
    obtain ⟨hb, hbs'⟩ := List.forall_mem_cons.mp hbs
    rw [Change.passKept] at hmet
    split at hmet
    · next hzero =>
      obtain rfl := hmet
      exact ⟨s, rfl, hzero.symm, hbs, hearlier, hzero ▸ hlater⟩
    next hpos =>
    split at hmet
    · next hkept =>
      have hbkept : b.count < 0 := hkept ▸ by decide
      split at hmet
      · next hle =>
        rw [tokens_cons, tokensOf_kept hbkept] at hearlier
        rw [Token.passes_eq_append hle, List.append_assoc] at hlater
        obtain ⟨s', rfl, hearlier', hlater'⟩ := Event.exists_lateDrops hearlier hlater
        obtain ⟨s'', rfl, hsum, hrest⟩ := ih rfl hs.right hbs' hearlier' hlater'
        obtain rfl := hmet
        refine ⟨s'', ?_, ?_, hrest⟩
        · rw [← List.append_assoc, ← List.replicate_add]
        · dsimp only
          omega
      · next hlt =>
        obtain rfl := hmet
        have hle : left ≤ b.length := Nat.le_of_not_le hlt
        rw [tokens_forward_kept hbkept hle] at hearlier
        obtain ⟨s', rfl, hearlier', hlater'⟩ := Event.exists_lateDrops hearlier hlater
        exact ⟨s', rfl, rfl, hb.forward hbs' hbkept hle, hearlier', hlater'⟩
    split at hmet
    · next hdel =>
      -- Both changes would remove the next item.
      have hput : 0 ≤ b.count := Int.le_of_eq hdel.1.symm
      have hproper : I.Proper b.text 0 := by
        have := hb.proper
        rwa [hdel.1] at this
      obtain ⟨n, hn⟩ := Nat.exists_eq_succ_of_ne_zero (show b.length ≠ 0 by
        have := hb.not_void
        omega)
      obtain ⟨m, hm⟩ := Nat.exists_eq_succ_of_ne_zero hpos
      rw [tokens_cons, tokensOf_put hput (hb.whole hput), hdel.1, Int.toNat_zero,
        content_zero hproper, hn] at hearlier
      obtain ⟨s', rfl⟩ := Event.exists_drop hs hearlier
      rw [hm] at hlater
      cases hlater
    · obtain rfl := hmet
      exact ⟨s, rfl, Nat.zero_add _, hbs, hearlier, hlater⟩

omit [Insertion α] in
theorem passKept_pos {b : Rest α} (hpos : 0 < left) (hkept : b.count = Span.keptMark)
    (hlength : 0 < b.length) : 0 < (Change.passKept left (b :: bs)).kept := by
  rw [Change.passKept, if_neg (Nat.ne_of_gt hpos), if_pos hkept]
  split
  · exact Nat.add_pos_left hlength _
  · exact hpos

end Loops

namespace Late

variable {a : Rest α} {as : List (Rest α)} {told : Bool}

theorem tail (h : I.Late told (a :: as)) : ∀ t ∈ as, I.Fresh t := by
  cases h with
  | untold ha => exact fun t ht => ha t (List.mem_cons_of_mem _ ht)
  | told _ _ _ has => exact has

/-- A kept run has no insertion to tell. -/
theorem kept (h : I.Late told (a :: as)) (hkept : a.count < 0) : told = false ∧ I.Fresh a := by
  cases h with
  | untold ha => exact ⟨rfl, ha a List.mem_cons_self⟩
  | told hput => exact absurd hput (Int.not_le.mpr hkept)

/-- What is told of a replaced run where some of its items are passed. -/
theorem fit (h : I.Late told (a :: as)) (n : Nat) :
    I.Fit (if told then ⟨n, 0, Insertion.empty⟩ else ⟨n, a.count, a.text⟩) := by
  cases h with
  | untold ha => exact (ha a List.mem_cons_self).fit_text n
  | told => exact fit_deletion n

end Late

/-- A script of what is left of two changes. -/
structure Following (I : Reading α β) (as : List (Rest α)) (told : Bool) (bs : List (Rest α))
    (s : List (Event β)) : Prop where
  orderly : Event.Orderly s
  left : I.Late told as
  right : ∀ b ∈ bs, I.Fresh b
  later : s.flatMap Event.later = I.tokens as
  earlier : s.flatMap Event.earlier = I.tokens bs

namespace Following

variable {a b : Rest α} {as bs as' : List (Rest α)} {told told' : Bool} {s : List (Event β)}
  {spans spans' : List (Span α)} {n : Nat}

/-- Of two runs that come next, not both replace items. -/
theorem length_eq_zero (h : I.Following (a :: as) told (b :: bs) s) (hput : 0 ≤ a.count)
    (hbput : 0 ≤ b.count) (hpos : 0 < b.length) : a.length = 0 := by
  by_contra hlength
  obtain ⟨xs, ts, hb⟩ := tokens_replaced bs hbput hpos
  obtain ⟨ys, us, ha⟩ := tokens_replaced as hput (Nat.pos_of_ne_zero hlength)
  exact Event.not_both_replaced h.orderly (h.earlier.trans hb) (h.later.trans ha)

/-- An insertion of the earlier change that takes no items' place is told. -/
theorem put (h : I.Following as told (b :: bs) s) (hput : 0 ≤ b.count) (hzero : b.length = 0) :
    ∃ s', I.Following as told bs s' ∧ s.flatMap Event.rebased
      = List.replicate b.count.toNat (.pass true) ++ s'.flatMap Event.rebased := by
  obtain ⟨hb, hbs⟩ := List.forall_mem_cons.mp h.right
  have hearlier := h.earlier
  have hlater := h.later
  have horderly := h.orderly
  rw [tokens_cons, tokensOf_put hput (hb.whole hput), hzero, List.append_assoc] at hearlier
  obtain ⟨s, rfl, hrest⟩ := Event.exists_puts_false horderly hearlier
  rw [List.flatMap_append, Event.later_puts, List.nil_append] at hlater
  refine ⟨s, ⟨horderly.right, h.left, hbs, hlater, hrest⟩, ?_⟩
  rw [List.flatMap_append, Event.rebased_puts, I.length_content _ _ hb.proper]

/-- So is one of the later change behind the earlier one. -/
theorem latePut (h : I.Following (a :: as) told [] s) (hput : 0 ≤ a.count) (hzero : a.length = 0) :
    ∃ s', I.Following as false [] s' ∧ s.flatMap Event.rebased
      = I.tokensOf (Rest.ofSpan ⟨0, a.count, a.text⟩) ++ s'.flatMap Event.rebased := by
  obtain ⟨rfl, ha⟩ : told = false ∧ I.Fresh a := by
    cases h.left with
    | untold ha => exact ⟨rfl, ha a List.mem_cons_self⟩
    | told _ _ hlength => omega
  have hearlier := h.earlier
  have hlater := h.later
  have horderly := h.orderly
  rw [tokens_cons, tokensOf_put hput (ha.whole hput), hzero, List.append_assoc] at hlater
  obtain ⟨s, rfl, hrest⟩ := Event.exists_latePuts horderly hlater (by
    rw [hearlier]
    rintro _ _ ⟨⟩)
  rw [List.flatMap_append, Event.earlier_latePuts, List.nil_append] at hearlier
  refine ⟨s, ⟨horderly.right, .untold h.left.tail, h.right, hrest, hearlier⟩, ?_⟩
  rw [List.flatMap_append, Event.rebased_latePuts, tokensOf_span_put hput, List.append_assoc]
  rfl

/-- Items that both changes keep are passed. -/
theorem keep (h : I.Following (a :: as) told (b :: bs) s) (hkept : a.count < 0)
    (hbkept : b.count < 0) (hle : n ≤ a.length) (hle' : n ≤ b.length) :
    ∃ s', I.Following (Rest.forward n (a :: as)) false (Rest.forward n (b :: bs)) s'
      ∧ s.flatMap Event.rebased = List.replicate n (.pass true) ++ s'.flatMap Event.rebased := by
  obtain ⟨hb, hbs⟩ := List.forall_mem_cons.mp h.right
  obtain ⟨-, ha⟩ := h.left.kept hkept
  have hearlier := h.earlier
  have hlater := h.later
  rw [tokens_forward_kept hbkept hle'] at hearlier
  rw [tokens_forward_kept hkept hle] at hlater
  have horderly := h.orderly
  obtain ⟨s, rfl, hearlier, hlater⟩ := Event.exists_keeps hearlier hlater
  refine ⟨s, ⟨horderly.right, .untold (ha.forward h.left.tail hkept hle),
    hb.forward hbs hbkept hle', hlater, hearlier⟩, ?_⟩
  simp [List.flatMap_replicate, Event.rebased]

/-- Where the earlier change comes first, it inserts, and items that it removes are passed, which
the later change keeps. -/
theorem absorb (h : I.Following (a :: as) told (b :: bs) s) (hput : 0 ≤ b.count)
    (hyields : Change.yieldsTo false b.length told a = true)
    (habsorb : Change.absorb (a :: as) told b.length spans = some (as', told', spans')) :
    spans' = spans ∧ ∃ s', I.Following as' told' bs s' ∧ s.flatMap Event.rebased
      = List.replicate b.count.toNat (.pass true) ++ s'.flatMap Event.rebased := by
  by_cases hzero : b.length = 0
  · rw [hzero] at habsorb
    obtain ⟨rfl, rfl, rfl⟩ : a :: as = as' ∧ told = told' ∧ spans = spans' := by
      simpa [Change.absorb] using habsorb
    exact ⟨rfl, h.put hput hzero⟩
  -- A replaced run comes first only before kept items.
  have hpos : 0 < b.length := Nat.pos_of_ne_zero hzero
  have hkept : a.count < 0 := by
    by_contra hcount
    have hcount : 0 ≤ a.count := Int.not_lt.mp hcount
    have hlength := h.length_eq_zero hcount hput hpos
    cases h.left with
    | untold ha =>
      have := (ha a List.mem_cons_self).whole hcount
      simp [Change.yieldsTo] at hyields
      omega
    | told _ _ hlength' => omega
  obtain ⟨hb, hbs⟩ := List.forall_mem_cons.mp h.right
  obtain ⟨rfl, ha⟩ := h.left.kept hkept
  have hearlier := h.earlier
  have hlater := h.later
  have horderly := h.orderly
  have hdrop : decide (0 < b.length) = true := decide_eq_true hpos
  rw [tokens_cons, tokensOf_put hput (hb.whole hput), hdrop, List.append_assoc] at hearlier
  obtain ⟨s, rfl, hdrops⟩ := Event.exists_puts_true hearlier (by
    obtain ⟨ts, hts⟩ := tokens_head_kept as ha hkept
    rw [hlater, hts]
    rintro _ _ _ ⟨⟩)
  obtain ⟨s, rfl, hrest⟩ := Event.exists_drops horderly.right hdrops
  have hpassed : I.tokens (a :: as)
      = List.replicate b.length (.pass true) ++ s.flatMap Event.later := by
    rw [← hlater]
    simp [List.flatMap_replicate, Event.later]
  obtain ⟨rfl, rfl, has', htokens⟩ := absorb_script
    (List.forall_mem_cons.mpr ⟨ha, h.left.tail⟩) hpassed habsorb
  refine ⟨rfl, s, ⟨horderly.right.right, .untold has', hbs, htokens.symm, hrest⟩, ?_⟩
  rw [List.flatMap_append, Event.rebased_puts, I.length_content _ _ hb.proper]
  simp [List.flatMap_replicate, Event.rebased]

/-- Where the later change comes first, a run of the earlier one that takes no items' place does not
come next. -/
theorem kept_or_replaced (h : I.Following (a :: as) told (b :: bs) s)
    (hyields : ¬ (0 ≤ b.count ∧ Change.yieldsTo false b.length told a = true)) :
    b.count < 0 ∨ (0 ≤ b.count ∧ 0 < b.length ∧ a.length = 0) := by
  by_cases hkept : b.count < 0
  · exact Or.inl hkept
  · have hbput : 0 ≤ b.count := Int.not_lt.mp hkept
    have hnot : ¬ Change.yieldsTo false b.length told a = true := fun hy => hyields ⟨hbput, hy⟩
    simp only [Change.yieldsTo, Bool.or_eq_true, Bool.and_eq_true, decide_eq_true_eq,
      Bool.not_false, and_true, not_or, not_and] at hnot
    cases h.left with
    | told => exact absurd rfl hnot.1.2
    | untold ha =>
      have hput : 0 ≤ a.count := Int.not_lt.mp hnot.1.1
      have hlength := hnot.2 ((ha a List.mem_cons_self).whole hput)
      have hpos : 0 < b.length := by omega
      exact Or.inr ⟨hbput, hpos, h.length_eq_zero hput hbput hpos⟩

/-- The tokens of a replaced run of the later change, of which the insertion may have been told. -/
theorem tokens_late (h : I.Late told (a :: as)) (hput : 0 ≤ a.count) :
    I.tokens (a :: as)
      = (if told then [] else I.content a.text a.count.toNat).map (.put (0 < a.length))
        ++ (List.replicate a.length (.pass false) ++ I.tokens as) := by
  rw [tokens_cons]
  cases h with
  | untold ha =>
    rw [tokensOf_put hput ((ha a List.mem_cons_self).whole hput), List.append_assoc]
    rfl
  | told _ hpassed =>
    rw [tokensOf_passed hput hpassed]
    rfl

/-- Where the later change comes first, it inserts, and items that it removes are passed, which the
earlier change keeps. -/
theorem pass (h : I.Following (a :: as) told (b :: bs) s) (hput : 0 ≤ a.count)
    (hyields : ¬ (0 ≤ b.count ∧ Change.yieldsTo false b.length told a = true))
    {met : Passage α} (hmet : Change.passKept a.length (b :: bs) = met) :
    ∃ s', (met.left = 0 → I.Following as false met.spans s')
      ∧ (met.left ≠ 0 →
        I.Following (Rest.forward (a.length - met.left) (a :: as)) true met.spans s')
      ∧ s.flatMap Event.rebased
        = I.tokensOf (Rest.ofSpan (if told then ⟨met.kept, 0, Insertion.empty⟩
            else ⟨met.kept, a.count, a.text⟩)) ++ s'.flatMap Event.rebased := by
  have hnext := h.kept_or_replaced hyields
  have hbhead : I.Fresh b := h.right b List.mem_cons_self
  have hearlier := h.earlier
  have hlater := h.later
  have horderly := h.orderly
  have hother : ∀ y us, s.flatMap Event.earlier ≠ .put false y :: us := by
    rw [hearlier]
    rcases hnext with hkept | ⟨hbput, hpos, -⟩
    · obtain ⟨ts, hts⟩ := tokens_head_kept bs hbhead hkept
      rw [hts]
      rintro _ _ ⟨⟩
    · exact tokens_ne_put_false hbput hpos
  rw [tokens_late h.left hput] at hlater
  obtain ⟨s, rfl, hdrops⟩ := Event.exists_latePuts horderly hlater hother
  rw [List.flatMap_append, Event.earlier_latePuts, List.nil_append] at hearlier
  obtain ⟨s, rfl, hsum, hfresh, hearlier, hlater⟩ :=
    passKept_script hmet horderly.right h.right hearlier hdrops
  -- Items are passed as soon as there are any, for the earlier change keeps the next one.
  have hpassed : 0 < a.length → 0 < met.kept := by
    intro hpos
    rcases hnext with hkept | ⟨-, -, hzero⟩
    · have hmark : b.count = Span.keptMark := by
        have := hbhead.mark
        simp only [Span.keptMark] at this ⊢
        omega
      exact hmet ▸ passKept_pos hpos hmark (hbhead.kept hkept)
    · omega
  refine ⟨s, fun hleft => ?_, fun hleft => ?_, ?_⟩
  · rw [hleft] at hlater
    exact ⟨horderly.right.right, .untold h.left.tail, hfresh, hlater, hearlier⟩
  · have hpos : 0 < met.left := Nat.pos_of_ne_zero hleft
    rw [forward_left as hpos (hsum ▸ Nat.le_add_left _ _)]
    have hrest : 0 < a.passed + (a.length - met.left) := by
      have := hpassed (by omega)
      omega
    refine ⟨horderly.right.right, .told hput hrest hpos h.left.tail, hfresh, ?_, hearlier⟩
    rw [hlater, tokens_cons,
      tokensOf_passed (show 0 ≤ (Rest.mk met.left a.count _ _).count from hput)
      hrest]
  · have hreplacing : decide (0 < met.kept) = decide (0 < a.length) := by
      rw [decide_eq_decide]
      omega
    rw [List.flatMap_append, Event.rebased_latePuts, List.flatMap_append, List.flatMap_replicate]
    cases told with
    | true =>
      rw [if_pos rfl, if_pos rfl, tokensOf_deletion I.empty]
      simp [Event.rebased]
    | false =>
      rw [if_neg Bool.false_ne_true, if_neg Bool.false_ne_true, tokensOf_span_put hput, hreplacing]
      simp [Event.rebased]

end Following

/-- The turns of the walk that rebases a later change over an earlier one tell what a script of both
tells of the rebased change. -/
theorem turns_script {as bs : List (Rest α)} {told : Bool} {spans out : List (Span α)}
    {walk : Walk (List (Span α))} (h : Change.Turns false as told bs spans walk)
    (hout : walk = .finished out) (hspans : ∀ t ∈ spans, I.Sound t) {s : List (Event β)}
    (hs : I.Following as told bs s) :
    I.tokens (out.map Rest.ofSpan) = I.written spans ++ s.flatMap Event.rebased := by
  induction h generalizing s with
  | short | long | stalls => cases hout
  | done =>
    obtain rfl := Walk.finished.inj hout
    obtain rfl := Event.eq_nil_of_earlier_later hs.earlier hs.later
    exact (List.append_nil _).symm
  | keepLast hzero hput _ ih =>
    obtain ⟨s', hs', hrebased⟩ := hs.put hput hzero
    rw [ih hout (push_keep hspans _).sound hs', written_push hspans (fit_keep _), tokensOf_keep,
      hrebased, List.append_assoc]
  | @putLast a as spans walk hzero hput _ ih =>
    obtain ⟨s', hs', hrebased⟩ := hs.latePut hput hzero
    have hfit : I.Fit ⟨0, a.count, a.text⟩ := hs.left.fit 0
    rw [ih hout (push_unjoined hspans hfit).sound hs', written_push hspans hfit, hrebased,
      List.append_assoc]
  | keep hkept hbkept hlen _ ih =>
    obtain ⟨s', hs', hrebased⟩ := hs.keep (hkept ▸ by decide) (hbkept ▸ by decide)
      (hlen.trans_le (Nat.min_le_left _ _)) (hlen.trans_le (Nat.min_le_right _ _))
    rw [ih hout (push_keep hspans _).sound hs', written_push hspans (fit_keep _), tokensOf_keep,
      hrebased, List.append_assoc]
  | yields hput hyields habsorb _ ih =>
    obtain ⟨rfl, s', hs', hrebased⟩ := hs.absorb hput hyields habsorb
    rw [ih hout (push_keep hspans _).sound hs', written_push hspans (fit_keep _), tokensOf_keep,
      hrebased, List.append_assoc]
  | @passes a as told b bs spans walk met hyields hput hmet hleft _ ih =>
    obtain ⟨s', hs', -, hrebased⟩ := hs.pass hput hyields hmet
    have hfit := hs.left.fit met.kept
    rw [ih hout (push_unjoined hspans hfit).sound (hs' hleft), written_push hspans hfit, hrebased,
      List.append_assoc]
  | @stops a as told b bs spans walk met hyields hput hmet hpos _ ih =>
    obtain ⟨s', -, hs', hrebased⟩ := hs.pass hput hyields hmet
    have hfit := hs.left.fit met.kept
    rw [ih hout (push_unjoined hspans hfit).sound (hs' (Nat.ne_of_gt hpos)),
      written_push hspans hfit, hrebased, List.append_assoc]

end Reading

end TextRevision
