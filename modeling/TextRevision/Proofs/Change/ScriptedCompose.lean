import TextRevision.Proofs.Change.ScriptedRebase

/-!
# Composing by a script

The walk that puts a rebased change behind an earlier one follows the script of both, as rebasing
does. A replaced run of the earlier change is passed by one kept run as a whole, for the rebased
change has no two kept runs next to each other. What is joined is the rest of a run of the rebased
change that removes items.

## Main definitions

- `Reading.Begun`: what is left of a span of the rebased change
- `Reading.Trailing`: a script of what is left of two changes, one behind the other

## Main statements

- `Reading.moves_script`
- `Reading.rebase_script`, `Reading.andThen_script`
-/

namespace TextRevision

variable {α β : Type} [Insertion α]

namespace Reading

/-- What is left of a span of the rebased change. -/
structure Begun (I : Reading α β) (b : Rest α) : Prop extends I.Second b where
  not_void : 0 < b.length ∨ 0 < b.count

variable {I : Reading α β}

section Begun

variable {b : Rest α} {bs : List (Rest α)} {len : Nat}

theorem Begun.forward (h : I.Begun b) (hbs : ∀ t ∈ bs, I.Begun t) (hlen : len ≤ b.length) :
    ∀ t ∈ Rest.forward len (b :: bs), I.Begun t := by
  rw [Rest.forward]
  split
  · exact hbs
  · exact List.forall_mem_cons.mpr
      ⟨⟨h.toSecond.rest (by omega), Or.inl (by dsimp only; omega)⟩, hbs⟩

theorem Sound.begun {s : Span α} (h : I.Sound s) : I.Begun (Rest.ofSpan s) :=
  ⟨h.second, Span.isVoid_eq_false_iff.mp h.not_void⟩

end Begun

/-- No two kept runs stand next to each other. -/
def KeptApart (bs : List (Rest α)) : Prop :=
  bs.IsChain fun b c => ¬ (b.count < 0 ∧ c.count < 0)

omit [Insertion α] in
theorem KeptApart.forward {b : Rest α} {bs : List (Rest α)} (h : KeptApart (b :: bs)) (len : Nat) :
    KeptApart (Rest.forward len (b :: bs)) := by
  rw [KeptApart, List.isChain_cons] at h
  rw [Rest.forward]
  split
  · exact h.2
  · exact List.isChain_cons.mpr h

/-- A script of what is left of an earlier change and of a rebased one behind it. A span that is
joined to those found so far is the rest of a run of the rebased change that removes items. -/
structure Trailing (I : Reading α β) (as bs : List (Rest α)) (joined : Bool)
    (spans : List (Span α)) (s : List (Event β)) : Prop where
  orderly : Event.Orderly s
  left : ∀ a ∈ as, I.Fresh a
  small : ∀ a ∈ as, a.newLength < signBound
  right : ∀ b ∈ bs, I.Begun b
  apart : KeptApart bs
  earlier : s.flatMap Event.earlier = I.tokens as
  rebased : s.flatMap Event.rebased = I.tokens bs
  sound : ∀ t ∈ spans, I.Sound t
  joined : joined = true → (∃ b ∈ bs.head?, 0 ≤ b.count ∧ 0 < b.passed) ∧ HeadReplacing spans

/-- Items are removed, in the run that is joined or in one of its own. -/
theorem push_deletion {joined : Bool} {spans : List (Span α)} (hspans : ∀ t ∈ spans, I.Sound t)
    (hjoined : joined = true → HeadReplacing spans) (n : Nat) :
    (∀ t ∈ Span.push joined spans ⟨n, 0, Insertion.empty⟩, I.Sound t)
      ∧ I.written (Span.push joined spans ⟨n, 0, Insertion.empty⟩)
        = I.written spans ++ List.replicate n (.pass false)
      ∧ (joined = true → HeadReplacing (Span.push joined spans ⟨n, 0, Insertion.empty⟩)) := by
  refine ⟨(push_spec hspans (fit_deletion n) fun hj => ?_).sound, ?_⟩
  · exact ⟨Int.le_refl 0, fun last hlast => (hjoined hj last hlast).1⟩
  · cases joined with
    | false =>
      rw [written_push hspans (fit_deletion n), tokensOf_deletion I.empty]
      exact ⟨rfl, fun hj => by cases hj⟩
    | true =>
      obtain ⟨hwritten, hhead⟩ := written_push_joined (n := n) hspans (hjoined rfl)
      exact ⟨hwritten, fun _ => hhead⟩

namespace Trailing

variable {a b : Rest α} {as bs : List (Rest α)} {joined : Bool} {s : List (Event β)}
  {spans : List (Span α)} {len : Nat}

/-- A run of the earlier change that is no deletion does not begin with an item that is removed. -/
theorem head (h : I.Trailing (a :: as) bs joined spans s) (hcount : a.count ≠ 0) :
    ∃ t ts, I.tokens (a :: as) = t :: ts ∧ t ≠ .pass false := by
  have ha : I.Fresh a := h.left a List.mem_cons_self
  by_cases hkept : a.count < 0
  · obtain ⟨ts, hts⟩ := tokens_head_kept as ha hkept
    exact ⟨_, ts, hts, by simp⟩
  · have hput : 0 ≤ a.count := Int.not_lt.mp hkept
    obtain ⟨x, ts, hts⟩ := tokens_inserted as ha.proper (by omega) (ha.whole hput)
    exact ⟨_, ts, hts, by simp⟩

/-- A deletion of the earlier change goes through as it is. -/
theorem deletion (h : I.Trailing (a :: as) bs joined spans s) (hzero : a.count = 0) :
    ∃ s', I.Trailing as bs joined (Span.push joined spans ⟨a.length, 0, Insertion.empty⟩) s'
      ∧ I.written (Span.push joined spans ⟨a.length, 0, Insertion.empty⟩) ++ s'.flatMap Event.both
        = I.written spans ++ s.flatMap Event.both := by
  obtain ⟨ha, has⟩ := List.forall_mem_cons.mp h.left
  obtain ⟨-, hsmall⟩ := List.forall_mem_cons.mp h.small
  have hput : 0 ≤ a.count := Int.le_of_eq hzero.symm
  have hproper : I.Proper a.text 0 := by
    have := ha.proper
    rwa [hzero] at this
  have hearlier := h.earlier
  have hrebased := h.rebased
  have horderly := h.orderly
  rw [tokens_cons, tokensOf_put hput (ha.whole hput), hzero, Int.toNat_zero, content_zero hproper,
    List.map_nil, List.nil_append] at hearlier
  obtain ⟨s, rfl, hrest⟩ := Event.exists_drops horderly hearlier
  have hpassed : s.flatMap Event.rebased = I.tokens bs := by
    rw [← hrebased]
    simp [List.flatMap_replicate, Event.rebased]
  obtain ⟨hsound, hwritten, hhead⟩ :=
    push_deletion h.sound (fun hj => (h.joined hj).2) a.length
  refine ⟨s, ⟨horderly.right, has, hsmall, h.right, h.apart, hrest, hpassed, hsound,
    fun hj => ⟨(h.joined hj).1, hhead hj⟩⟩, ?_⟩
  rw [hwritten]
  simp [List.flatMap_replicate, Event.both]

/-- An insertion of the rebased change goes through as it is. -/
theorem insertion (h : I.Trailing as (b :: bs) joined spans s)
    (hcount : ∀ a ∈ as.head?, a.count ≠ 0) (hzero : b.length = 0) :
    ∃ s', I.Trailing as bs joined (Span.push joined spans ⟨0, b.count, b.text⟩) s'
      ∧ I.written (Span.push joined spans ⟨0, b.count, b.text⟩) ++ s'.flatMap Event.both
        = I.written spans ++ s.flatMap Event.both := by
  obtain ⟨hb, hbs⟩ := List.forall_mem_cons.mp h.right
  obtain ⟨hpassed, hput, -, -⟩ := hb.toSecond.insertion hzero
  have hapart := h.apart
  rw [KeptApart, List.isChain_cons] at hapart
  obtain rfl : joined = false := by
    cases joined with
    | false => rfl
    | true =>
      obtain ⟨⟨b', hb', -, hopen⟩, -⟩ := h.joined rfl
      obtain rfl := Option.some.inj hb'
      omega
  have hearlier := h.earlier
  have hrebased := h.rebased
  have horderly := h.orderly
  have hother : ∀ us, s.flatMap Event.earlier ≠ .pass false :: us := by
    intro us hdrop
    cases as with
    | nil => cases hearlier.symm.trans hdrop
    | cons a as =>
      obtain ⟨t, ts, hts, hne⟩ := h.head (hcount a rfl)
      rw [hearlier, hts] at hdrop
      exact hne (List.cons.inj hdrop).1
  rw [tokens_cons, tokensOf_put hput hpassed, List.append_assoc] at hrebased
  obtain ⟨s, rfl, hrest⟩ := Event.exists_latePuts_rebased hrebased hother
  rw [List.flatMap_append, Event.earlier_latePuts, List.nil_append] at hearlier
  rw [hzero, List.replicate_zero, List.nil_append] at hrest
  have hfit : I.Fit ⟨0, b.count, b.text⟩ := hb.toSecond.fit_text 0
  refine ⟨s, ⟨horderly.right, h.left, h.small, hbs, hapart.2, hearlier, hrest,
    (push_unjoined h.sound hfit).sound, fun hj => by cases hj⟩, ?_⟩
  rw [written_push h.sound hfit, tokensOf_span_put hput, hzero]
  simp

section Meeting

theorem eq_keptMark (h : I.Trailing (a :: as) bs joined spans s) (hkept : a.count < 0) :
    a.count = Span.keptMark := by
  have := (h.left a List.mem_cons_self).mark
  simp only [Span.keptMark] at this ⊢
  omega

/-- What is left of a kept run of the earlier change is short as well. -/
theorem small_forward (h : I.Trailing (a :: as) bs joined spans s) (hkept : a.count < 0)
    (hle : len ≤ a.length) : ∀ t ∈ Rest.forward len (a :: as), t.newLength < signBound := by
  obtain ⟨ha, has⟩ := List.forall_mem_cons.mp h.small
  rw [Rest.newLength_of_kept hkept] at ha
  rw [Rest.forward]
  split
  · exact has
  · refine List.forall_mem_cons.mpr ⟨?_, has⟩
    have hrest : (Rest.mk (a.length - len) a.count a.text (a.passed + len)).count < 0 := hkept
    rw [Rest.newLength_of_kept hrest]
    dsimp only
    omega

/-- Behind a kept run of the earlier change, only the rest of a run that removes items is joined. -/
theorem staysOpen_kept (h : I.Trailing (a :: as) bs joined spans s) (hkept : a.count < 0)
    (hle : len ≤ a.length) :
    Change.staysOpen len a b = true ↔ 0 ≤ b.count ∧ len < b.length := by
  have hsmall := h.small a List.mem_cons_self
  rw [Rest.newLength_of_kept hkept] at hsmall
  have hnot : ¬ (len : Int) < a.count := by omega
  simp [Change.staysOpen, signedWord_of_lt (Nat.lt_of_le_of_lt hle hsmall), hnot]

/-- A span is not joined to the rest of a kept run of the rebased change. -/
theorem joined_eq_false (h : I.Trailing as (b :: bs) joined spans s)
    (hnot : b.count < 0 ∨ b.passed = 0) : joined = false := by
  cases joined with
  | false => rfl
  | true =>
    obtain ⟨⟨b', hb', hput, hopen⟩, -⟩ := h.joined rfl
    obtain rfl := Option.some.inj hb'
    omega

/-- Items that both changes keep are passed. -/
theorem keep (h : I.Trailing (a :: as) (b :: bs) joined spans s) (hkept : a.count < 0)
    (hbkept : b.count < 0) (hle : len ≤ a.length) (hle' : len ≤ b.length) :
    ∃ s', I.Trailing (Rest.forwardNew len (a :: as)) (Rest.forward len (b :: bs))
        (Change.staysOpen len a b && (joined
          || spans.length < (Span.push joined spans (Change.meet len a b)).length))
        (Span.push joined spans (Change.meet len a b)) s'
      ∧ I.written (Span.push joined spans (Change.meet len a b)) ++ s'.flatMap Event.both
        = I.written spans ++ s.flatMap Event.both := by
  obtain ⟨ha, has⟩ := List.forall_mem_cons.mp h.left
  obtain ⟨hb, hbs⟩ := List.forall_mem_cons.mp h.right
  obtain rfl := h.joined_eq_false (Or.inl hbkept)
  have hearlier := h.earlier
  have hrebased := h.rebased
  have horderly := h.orderly
  rw [tokens_forward_kept hkept hle] at hearlier
  rw [tokens_forward_kept hbkept hle'] at hrebased
  obtain ⟨s, rfl, hearlier', hrebased'⟩ := Event.exists_keeps_rebased hearlier hrebased
  have hmeet : Change.meet len a b = ⟨len, Span.keptMark, Insertion.empty⟩ := by
    rw [meet_of_kept (h.eq_keptMark hkept), remainder_of_kept (hb.toSecond.eq_keptMark hbkept)]
    rfl
  have hclosed : Change.staysOpen len a b = false := by
    rw [← Bool.not_eq_true, h.staysOpen_kept hkept hle]
    omega
  have hfit : I.Fit ⟨len, Span.keptMark, Insertion.empty⟩ := fit_keep len
  rw [hmeet, hclosed, Bool.false_and, Rest.forwardNew, if_pos (h.eq_keptMark hkept)]
  refine ⟨s, ⟨horderly.right, ha.forward has hkept hle, h.small_forward hkept hle,
    hb.forward hbs hle', h.apart.forward len, hearlier', hrebased',
    (push_unjoined h.sound hfit).sound, fun hj => by cases hj⟩, ?_⟩
  rw [written_push h.sound hfit, tokensOf_span_kept (by decide)]
  simp [List.flatMap_replicate, Event.both]

/-- Items that the rebased change removes are put behind others, in the run that is joined or with
what they are replaced by. -/
theorem push_lateReplaced (h : I.Trailing (a :: as) (b :: bs) joined spans s) (hkept : a.count < 0)
    (hput : 0 ≤ b.count) (hpos : 0 < len) :
    (∀ t ∈ Span.push joined spans (Change.meet len a b), I.Sound t)
      ∧ I.written (Span.push joined spans (Change.meet len a b)) = I.written spans
        ++ ((if b.passed = 0 then I.content b.text b.count.toNat else []).map (.put true)
          ++ List.replicate len (.pass false))
      ∧ (joined = true ∨ spans.length < (Span.push joined spans (Change.meet len a b)).length →
        HeadReplacing (Span.push joined spans (Change.meet len a b))) := by
  have hb : I.Begun b := h.right b List.mem_cons_self
  rw [meet_of_kept (h.eq_keptMark hkept), remainder_of_put hput]
  by_cases hpassed : b.passed = 0
  · obtain rfl := h.joined_eq_false (Or.inr hpassed)
    obtain ⟨hproper, hneg | hcontent⟩ := hb.toSecond.text_remainder
    · exact absurd (remainder_nonneg hput) (Int.not_le.mpr hneg)
    rw [remainder_of_put hput, if_pos hpassed] at hproper hcontent
    rw [if_pos hpassed] at hcontent ⊢
    have hfit : I.Fit ⟨len, b.count, if 0 < b.count then b.text else Insertion.empty⟩ :=
      ⟨hb.mark, hproper⟩
    refine ⟨(push_unjoined h.sound hfit).sound, ?_, fun hlt => ?_⟩
    · rw [written_push h.sound hfit, tokensOf_span_put hput, hcontent, if_pos hpassed,
        decide_eq_true hpos]
    · exact headReplacing_push hput hpos (hlt.resolve_left Bool.false_ne_true)
  · rw [if_neg hpassed, if_neg hpassed, if_neg (Int.lt_irrefl 0)]
    obtain ⟨hsound, hwritten, hhead⟩ := push_deletion h.sound (fun hj => (h.joined hj).2) len
    refine ⟨hsound, hwritten, fun hlt => ?_⟩
    cases joined with
    | true => exact hhead rfl
    | false => exact headReplacing_push (Int.le_refl 0) hpos (hlt.resolve_left Bool.false_ne_true)

/-- Of items that the earlier change keeps, the rebased one removes some and inserts before them. -/
theorem lateReplace (h : I.Trailing (a :: as) (b :: bs) joined spans s) (hkept : a.count < 0)
    (hput : 0 ≤ b.count) (hpos : 0 < len) (hle : len ≤ a.length) (hle' : len ≤ b.length) :
    ∃ s', I.Trailing (Rest.forwardNew len (a :: as)) (Rest.forward len (b :: bs))
        (Change.staysOpen len a b && (joined
          || spans.length < (Span.push joined spans (Change.meet len a b)).length))
        (Span.push joined spans (Change.meet len a b)) s'
      ∧ I.written (Span.push joined spans (Change.meet len a b)) ++ s'.flatMap Event.both
        = I.written spans ++ s.flatMap Event.both := by
  obtain ⟨ha, has⟩ := List.forall_mem_cons.mp h.left
  obtain ⟨hb, hbs⟩ := List.forall_mem_cons.mp h.right
  have hearlier := h.earlier
  have hrebased := h.rebased
  have horderly := h.orderly
  rw [tokens_forward_kept hkept hle] at hearlier
  rw [tokens_forward_put hput hpos hle'] at hrebased
  have hother : ∀ us, s.flatMap Event.earlier ≠ .pass false :: us := by
    obtain ⟨n, rfl⟩ := Nat.exists_eq_succ_of_ne_zero (Nat.ne_of_gt hpos)
    rw [hearlier, List.replicate_succ]
    rintro _ ⟨⟩
  obtain ⟨s, rfl, hdrops⟩ := Event.exists_latePuts_rebased hrebased hother
  rw [List.flatMap_append, Event.earlier_latePuts, List.nil_append] at hearlier
  obtain ⟨s, rfl, hearlier', hrebased'⟩ := Event.exists_lateDrops_rebased hearlier hdrops
  obtain ⟨hsound, hwritten, hhead⟩ := h.push_lateReplaced hkept hput hpos
  refine ⟨s, ⟨horderly.right.right, ?_, ?_, hb.forward hbs hle', h.apart.forward len, ?_,
    hrebased', hsound, fun hj => ?_⟩, ?_⟩
  · rw [Rest.forwardNew, if_pos (h.eq_keptMark hkept)]
    exact ha.forward has hkept hle
  · rw [Rest.forwardNew, if_pos (h.eq_keptMark hkept)]
    exact h.small_forward hkept hle
  · rw [Rest.forwardNew, if_pos (h.eq_keptMark hkept)]
    exact hearlier'
  · rw [Bool.and_eq_true, Bool.or_eq_true, decide_eq_true_eq, h.staysOpen_kept hkept hle] at hj
    refine ⟨?_, hhead hj.2⟩
    rw [Rest.forward, if_neg (Nat.ne_of_lt hj.1.2)]
    exact ⟨_, rfl, hput, Nat.add_pos_right _ hpos⟩
  · rw [hwritten]
    simp [List.flatMap_replicate, Event.both]

/-- A kept run of the rebased change keeps the whole insertion that it meets: another kept run would
have to go on with it. -/
theorem count_le_length (h : I.Trailing (a :: as) (b :: bs) joined spans s) (hcount : 0 < a.count)
    (hbkept : b.count < 0) (hpos : 0 < b.length) : a.count.toNat ≤ b.length := by
  by_contra hlt
  have ha : I.Fresh a := h.left a List.mem_cons_self
  obtain ⟨-, hbs⟩ := List.forall_mem_cons.mp h.right
  have hput : 0 ≤ a.count := Int.le_of_lt hcount
  have hlength := I.length_content _ _ ha.proper
  have hearlier := h.earlier
  have hrebased := h.rebased
  have horderly := h.orderly
  generalize hxs : I.content a.text a.count.toNat = xs at hlength
  obtain ⟨ys, x, hx⟩ : ∃ ys x, xs.take b.length = ys ++ [x] :=
    (List.eq_nil_or_concat' (xs.take b.length)).resolve_left (by
      rw [← List.length_eq_zero_iff, List.length_take]
      omega)
  obtain ⟨y, zs, hy⟩ := List.exists_cons_of_length_pos (l := xs.drop b.length) (by
    rw [List.length_drop]
    omega)
  have htaken : (ys ++ [x]).length = b.length := by
    rw [← hx, List.length_take]
    omega
  rw [tokens_cons, tokensOf_put hput (ha.whole hput), hxs, ← List.take_append_drop b.length xs, hx,
    hy, List.map_append, List.append_assoc, List.append_assoc] at hearlier
  rw [tokens_cons, tokensOf_kept hbkept, ← htaken] at hrebased
  obtain ⟨s, rfl, hearlier', hrebased'⟩ := Event.exists_puts_passed hearlier hrebased
  rw [List.map_append, List.append_assoc] at horderly
  obtain ⟨s, rfl⟩ := Event.exists_put_again horderly.right hearlier'
  have hnext : I.tokens bs = .pass true :: s.flatMap Event.rebased := hrebased'.symm
  cases bs with
  | nil => cases hnext
  | cons c cs =>
    have hc : I.Begun c := hbs c List.mem_cons_self
    have hckept : c.count < 0 := by
      refine kept_of_tokens hc.proper ?_ hnext
      have := hc.not_void
      have := hc.left
      omega
    have hapart := h.apart
    rw [KeptApart, List.isChain_cons_cons] at hapart
    exact hapart.1 ⟨hbkept, hckept⟩

/-- The insertion of the earlier change goes on with the items that it replaces. -/
theorem replace (h : I.Trailing (a :: as) (b :: bs) joined spans s) (hcount : 0 < a.count)
    (hbkept : b.count < 0) (hpos : 0 < b.length) (hlen : len = min a.newLength b.length) :
    ∃ s', I.Trailing (Rest.forwardNew len (a :: as)) (Rest.forward len (b :: bs))
        (Change.staysOpen len a b && (joined
          || spans.length < (Span.push joined spans (Change.meet len a b)).length))
        (Span.push joined spans (Change.meet len a b)) s'
      ∧ I.written (Span.push joined spans (Change.meet len a b)) ++ s'.flatMap Event.both
        = I.written spans ++ s.flatMap Event.both := by
  obtain ⟨ha, has⟩ := List.forall_mem_cons.mp h.left
  obtain ⟨hb, hbs⟩ := List.forall_mem_cons.mp h.right
  obtain ⟨hsmallHead, hsmall⟩ := List.forall_mem_cons.mp h.small
  obtain rfl := h.joined_eq_false (Or.inl hbkept)
  have hput : 0 ≤ a.count := Int.le_of_lt hcount
  have hpassed : a.passed = 0 := ha.whole hput
  have hle := h.count_le_length hcount hbkept hpos
  rw [Rest.newLength_of_put hput] at hsmallHead
  rw [Rest.newLength_of_put hput, Nat.min_eq_left hle] at hlen
  have hword : signedWord len = a.count := by
    rw [signedWord_of_lt (hlen ▸ hsmallHead), hlen, Int.toNat_of_nonneg hput]
  obtain ⟨hproper, hcontent⟩ := I.extract a.text a.count.toNat 0 len ha.proper (Nat.zero_le _)
    (Nat.le_of_eq hlen)
  have hlength := I.length_content _ _ ha.proper
  rw [Nat.sub_zero] at hproper hcontent
  rw [List.drop_zero, List.take_of_length_le (by omega)] at hcontent
  have hearlier := h.earlier
  have hrebased := h.rebased
  have horderly := h.orderly
  rw [tokens_cons, tokensOf_put hput hpassed, List.append_assoc] at hearlier
  rw [tokens_forward_kept hbkept (hlen ▸ hle), hlen, ← hlength] at hrebased
  obtain ⟨s, rfl, hearlier', hrebased'⟩ := Event.exists_puts_passed hearlier hrebased
  obtain ⟨s, rfl, hrest⟩ := Event.exists_drops horderly.right hearlier'
  have hmeet : Change.meet len a b = ⟨a.length, a.count, Insertion.extract a.text 0 len⟩ := by
    rw [meet_of_put_kept hput (hb.toSecond.eq_keptMark hbkept), hpassed, hword, Nat.zero_add,
      if_neg (Nat.lt_irrefl 0)]
  have hclosed : Change.staysOpen len a b = false := by
    have hbput : ¬ 0 ≤ b.count := Int.not_le.mpr hbkept
    simp [Change.staysOpen, hword, hbput]
  have hfit : I.Fit ⟨a.length, a.count, Insertion.extract a.text 0 len⟩ :=
    ⟨ha.mark, hlen ▸ hproper⟩
  rw [hmeet, hclosed, Bool.false_and, Rest.forwardNew, if_neg (count_ne_keptMark hput),
    if_pos hword.symm]
  refine ⟨s, ⟨horderly.right.right, has, hsmall, hb.forward hbs (hlen ▸ hle), h.apart.forward len,
    hrest, ?_, (push_unjoined h.sound hfit).sound, fun hj => by cases hj⟩, ?_⟩
  · rw [hlen, ← hlength, ← hrebased']
    simp [List.flatMap_replicate, Event.rebased]
  · rw [written_push h.sound hfit, tokensOf_span_put hput, ← hlen, hcontent, hlen]
    simp [List.flatMap_replicate, Event.both]

/-- The rebased change does not replace items that the earlier one inserts. -/
theorem not_meeting_put (h : I.Trailing (a :: as) (b :: bs) joined spans s) (hcount : 0 < a.count)
    (hput : 0 ≤ b.count) (hpos : 0 < b.length) : False := by
  have ha : I.Fresh a := h.left a List.mem_cons_self
  obtain ⟨x, ts, hts⟩ :=
    tokens_inserted as ha.proper hcount (ha.whole (Int.le_of_lt hcount))
  obtain ⟨ys, us, hus⟩ := I.tokens_replaced bs hput hpos
  exact Event.not_put_lateReplaced h.orderly (h.earlier.trans hts) (h.rebased.trans hus)

/-- The two changes meet in as many items as both have left. -/
theorem meeting (h : I.Trailing (a :: as) (b :: bs) joined spans s) (hcount : a.count ≠ 0)
    (hpos : 0 < b.length) (hlen : len = min a.newLength b.length) (hlenPos : 0 < len) :
    ∃ s', I.Trailing (Rest.forwardNew len (a :: as)) (Rest.forward len (b :: bs))
        (Change.staysOpen len a b && (joined
          || spans.length < (Span.push joined spans (Change.meet len a b)).length))
        (Span.push joined spans (Change.meet len a b)) s'
      ∧ I.written (Span.push joined spans (Change.meet len a b)) ++ s'.flatMap Event.both
        = I.written spans ++ s.flatMap Event.both := by
  have hle : len ≤ a.newLength := hlen ▸ Nat.min_le_left _ _
  have hle' : len ≤ b.length := hlen ▸ Nat.min_le_right _ _
  by_cases hkept : a.count < 0
  · rw [Rest.newLength_of_kept hkept] at hle
    by_cases hbkept : b.count < 0
    · exact h.keep hkept hbkept hle hle'
    · exact h.lateReplace hkept (Int.not_lt.mp hbkept) hlenPos hle hle'
  · have hput : 0 < a.count := by omega
    by_cases hbkept : b.count < 0
    · exact h.replace hput hbkept hpos hlen
    · exact (h.not_meeting_put hput (Int.not_lt.mp hbkept) hpos).elim

end Meeting

end Trailing

/-- The walk that puts a rebased change behind an earlier one tells what a script of both tells of
the two together. -/
theorem moves_script {as bs : List (Rest α)} {joined : Bool} {spans out : List (Span α)}
    (hmoves : Change.Moves as bs joined spans out) {s : List (Event β)}
    (h : I.Trailing as bs joined spans s) :
    I.tokens (out.map Rest.ofSpan) = I.written spans ++ s.flatMap Event.both := by
  induction hmoves generalizing s with
  | done =>
    obtain rfl := Event.eq_nil_of_earlier_rebased h.earlier h.rebased
    exact (List.append_nil _).symm
  | deletion hzero _ ih =>
    obtain ⟨s', h', hs⟩ := h.deletion hzero
    exact (ih h').trans hs
  | insertion hcount hzero _ ih =>
    obtain ⟨s', h', hs⟩ := h.insertion hcount hzero
    exact (ih h').trans hs
  | meeting hcount hpos hlen hlenPos _ ih =>
    obtain ⟨s', h', hs⟩ := h.meeting hcount hpos hlen hlenPos
    exact (ih h').trans hs

section Merge

variable {a b b' e : Change α} {s : List (Event β)}

/-- A change that keeps everything passes the items of its document. -/
theorem tokens_of_isEmpty (h : a.isEmpty = true) :
    ∃ n, I.tokens (a.spans.map Rest.ofSpan) = List.replicate n (.pass true) := by
  obtain hspans | ⟨t, hspans, hkept⟩ := Change.spans_of_isEmpty h
  · rw [hspans]
    exact ⟨0, rfl⟩
  · rw [hspans]
    refine ⟨t.length, ?_⟩
    rw [List.map_singleton, tokens_cons, tokensOf_kept (show (Rest.ofSpan t).count < 0 from hkept)]
    exact List.append_nil _

/-- A change that is rebased over an earlier one tells what a script of both tells of it. -/
theorem rebase_script (ha : ∀ t ∈ a.spans, I.Sound t) (hb : ∀ t ∈ b.spans, I.Sound t)
    (hs : Event.Orderly s) (hearlier : s.flatMap Event.earlier = I.tokens (a.spans.map Rest.ofSpan))
    (hlater : s.flatMap Event.later = I.tokens (b.spans.map Rest.ofSpan))
    (hrebase : b.rebase a false = .ok b') :
    I.tokens (b'.spans.map Rest.ofSpan) = s.flatMap Event.rebased := by
  have hfresh : ∀ {c : Change α}, (∀ t ∈ c.spans, I.Sound t) →
      ∀ r ∈ c.spans.map Rest.ofSpan, I.Fresh r := by
    intro c hc r hr
    obtain ⟨t, ht, rfl⟩ := List.mem_map.mp hr
    exact (hc t ht).fresh
  obtain ⟨hempty, hb'⟩ | ⟨out, hb', hturns⟩ := Change.rebase_turns (fun t ht => (hb t ht).marked)
    (fun t ht => (ha t ht).marked) (Change.fits_of_rebase hrebase) false
  · obtain rfl := Except.ok.inj (hb'.symm.trans hrebase)
    obtain ⟨n, hn⟩ := tokens_of_isEmpty (I := I) hempty
    rw [(Event.later_of_kept (hearlier.trans hn)).1, hlater]
  · obtain rfl := Except.ok.inj (hb'.symm.trans hrebase)
    exact turns_script hturns rfl (by simp) ⟨hs, .untold (hfresh hb), hfresh ha, hlater, hearlier⟩

/-- A rebased change that is put behind the earlier one tells with it what a script of both tells of
the two together. -/
theorem andThen_script (ha : ∀ t ∈ a.spans, I.Sound t)
    (hsmall : ∀ t ∈ a.spans, t.newLength < signBound) (hb : ∀ t ∈ b.spans, I.Sound t)
    (hnormal : Span.Normal b.spans) (hs : Event.Orderly s)
    (hearlier : s.flatMap Event.earlier = I.tokens (a.spans.map Rest.ofSpan))
    (hrebased : s.flatMap Event.rebased = I.tokens (b.spans.map Rest.ofSpan))
    (h : a.andThen b = .ok e) :
    I.tokens (e.spans.map Rest.ofSpan) = s.flatMap Event.both := by
  have hfits : a.newLength = b.length := Change.fits_of_andThen h
  obtain ⟨hempty, he⟩ | ⟨hempty, he⟩ | ⟨out, he, hmoves⟩ := andThen_moves ha hb hsmall hfits
  · obtain rfl := Except.ok.inj (he.symm.trans h)
    obtain ⟨n, hn⟩ := tokens_of_isEmpty (I := I) hempty
    obtain ⟨hrebased', hboth⟩ := Event.later_of_kept (hearlier.trans hn)
    rw [hboth, ← hrebased', hrebased]
  · obtain rfl := Except.ok.inj (he.symm.trans h)
    obtain ⟨n, hn⟩ := tokens_of_isEmpty (I := I) hempty
    rw [Event.both_of_rebased_kept (hrebased.trans hn), hearlier]
  · obtain rfl := Except.ok.inj (he.symm.trans h)
    refine moves_script hmoves ⟨hs, ?_, ?_, ?_, ?_, hearlier, hrebased, by simp,
      fun hj => by cases hj⟩
    · intro r hr
      obtain ⟨t, ht, rfl⟩ := List.mem_map.mp hr
      exact (ha t ht).fresh
    · intro r hr
      obtain ⟨t, ht, rfl⟩ := List.mem_map.mp hr
      rw [newLength_ofSpan]
      exact hsmall t ht
    · intro r hr
      obtain ⟨t, ht, rfl⟩ := List.mem_map.mp hr
      exact (hb t ht).begun
    · rw [KeptApart, List.isChain_map]
      exact hnormal.separate.imp fun t u htu => htu.kept

end Merge

end Reading

end TextRevision
