import TextRevision.Proofs.Change.Composing
import TextRevision.Proofs.Change.Merging
import TextRevision.Proofs.Change.Turns

/-!
# A change made after a concurrent one

The walk that rebases a change over a concurrent one finds spans which make of what the other change
leads to what both make together. A run of characters that the other change removed is absorbed, and
a run that the change removes itself is passed over the spans of the other up to the next insertion.
In both cases the acts that are left are merged as those in front of them would have been.

## Main definitions

- `Reading.Whole`: what is left of a span of the other change
- `Reading.Rebased`: what the walk finds

## Main statements

- `Reading.rebased_of_turns`: what the turns of the walk find
- `Reading.rebase_spec`
-/

namespace TextRevision

open Act (merge perform put pass Next Yields)

variable {α β δ : Type} [Insertion α] [Insertion β]

namespace Reading

/-- What the walk finds behind the spans found so far, with the acts `left` of the change and those
of the other change, `right`, to come on the rest of the document. -/
structure Rebased (I : Reading α δ) (before : Bool) (left right : List (Act δ)) (doc : List δ)
    (spans out : List (Span α)) : Prop where
  sound : ∀ s ∈ out, I.Sound s
  length : sumBy Span.length out = sumBy Span.length spans + (perform right doc).length
  volume : sumBy Span.volume out ≤ sumBy Span.volume spans + Act.volume left
  run : ∀ other, other.drop (sumBy Span.length spans) = perform right doc →
    I.run out other = I.run spans.reverse other ++ merge before left right doc

variable {I : Reading α δ} {J : Reading β δ} {before : Bool}

section Moves

variable {left right left' right' : List (Act δ)} {doc doc' : List δ}
  {spans spans' out : List (Span α)}

theorem Rebased.done (hspans : ∀ s ∈ spans, I.Sound s) :
    I.Rebased before [] [] doc spans spans.reverse where
  sound s hs := hspans s (List.mem_reverse.mp hs)
  length := by rw [sumBy_reverse, Act.perform_nil, List.length_nil, Nat.add_zero]
  volume := by
    rw [sumBy_reverse]
    exact Nat.le_add_right _ _
  run other _ := by
    have hmerge : merge before ([] : List (Act δ)) [] doc = [] := by rw [merge] <;> simp
    rw [hmerge, List.append_nil]

/-- Acts that come to the same may be told otherwise. -/
theorem Rebased.congr (h : I.Rebased before left' right' doc' spans out)
    (hperform : perform right doc = perform right' doc')
    (hvolume : Act.volume left' ≤ Act.volume left)
    (hmerge : merge before left right doc = merge before left' right' doc') :
    I.Rebased before left right doc spans out where
  sound := h.sound
  length := by rw [h.length, hperform]
  volume := Nat.le_trans h.volume (Nat.add_le_add_left hvolume _)
  run other hother := by rw [h.run other (hother.trans hperform), hmerge]

/-- One move of the walk: a span is put behind the others, and it takes `taken` and makes `made` of
it. -/
theorem Rebased.move {s : Span α} {taken : List δ} (made : List δ)
    (h : I.Rebased before left' right' doc' spans' out) (hpushed : I.Pushed spans s spans')
    (htaken : taken.length = s.length) (hperform : perform right doc = taken ++ perform right' doc')
    (hvolume : s.volume + Act.volume left' ≤ Act.volume left)
    (hmade : ∀ rest, I.step s (taken ++ rest) = made)
    (hmerge : merge before left right doc = made ++ merge before left' right' doc') :
    I.Rebased before left right doc spans out where
  sound := h.sound
  length := by
    rw [h.length, hpushed.length, hperform, List.length_append, htaken]
    omega
  volume := by
    have := h.volume
    rw [hpushed.volume] at this
    omega
  run other hother := by
    rw [hperform] at hother
    have hrest : other.drop (sumBy Span.length spans') = perform right' doc' := by
      rw [hpushed.length, ← List.drop_drop, hother, ← htaken, List.drop_left]
    rw [h.run other hrest, hpushed.run, hother, hmade, hmerge, List.append_assoc]

/-- Both changes keep the next characters. -/
theorem Rebased.keep {n : Nat} (h : I.Rebased before left right (doc.drop n) spans' out)
    (hpushed : I.Pushed spans (Span.keep n) spans') (hn : n ≤ doc.length) :
    I.Rebased before (List.replicate n (pass true) ++ left) (List.replicate n (pass true) ++ right)
      doc spans out := by
  have hlength : (doc.take n).length = n := List.length_take_of_le hn
  have hmade : ∀ rest, I.step (Span.keep n) (doc.take n ++ rest) = doc.take n := by
    intro rest
    rw [step_keep, List.take_left' hlength]
  refine h.move (doc.take n) hpushed hlength ?_ ?_ hmade ?_
  · rw [Act.perform_replicate true hn, if_pos rfl]
  · rw [Act.volume_replicate]
    exact Nat.le_of_eq (Nat.zero_add _)
  · rw [Act.merge_replicate true true hn]
    rfl

/-- The other change removes the next characters. -/
theorem Rebased.delete {n : Nat} (p : Bool) (h : I.Rebased before left right (doc.drop n) spans out)
    (hn : n ≤ doc.length) :
    I.Rebased before (List.replicate n (pass p) ++ left) (List.replicate n (pass false) ++ right)
      doc spans out := by
  refine h.congr ?_ ?_ ?_
  · rw [Act.perform_replicate false hn]
    rfl
  · rw [Act.volume_replicate]
  · rw [Act.merge_replicate p false hn, Bool.and_false]
    rfl

/-- An insertion of the change comes next. -/
theorem Rebased.put_left {k : Nat} {count : Int} {text : α}
    (h : I.Rebased before left right doc spans' out)
    (hpushed : I.Pushed spans ⟨0, count, text⟩ spans') (hput : 0 ≤ count)
    (hproper : I.Proper text count.toNat) (hnext : Next (fun l => ¬ Yields before k l) right) :
    I.Rebased before (put k (I.content text count.toNat) :: left) right doc spans out := by
  have hvolume : (⟨0, count, text⟩ : Span α).volume + Act.volume left
      ≤ Act.volume (put k (I.content text count.toNat) :: left) := by
    rw [Act.volume_cons_put, I.length_content _ _ hproper]
    exact Nat.le_refl _
  exact h.move _ hpushed (show ([] : List δ).length = 0 from rfl) rfl hvolume
    (fun rest => step_put (show 0 ≤ (⟨0, count, text⟩ : Span α).count from hput) _)
    (Act.merge_left _ hnext)

/-- An insertion of the other change comes next. -/
theorem Rebased.put_right {l : Nat} {xs : List δ}
    (h : I.Rebased before left right doc spans' out)
    (hpushed : I.Pushed spans (Span.keep xs.length) spans')
    (hnext : Next (fun k => Yields before k l) left) :
    I.Rebased before left (put l xs :: right) doc spans out := by
  have hmade : ∀ rest, I.step (Span.keep xs.length) (xs ++ rest) = xs := by
    intro rest
    rw [step_keep, List.take_left]
  exact h.move xs hpushed rfl (Act.perform_put _ _) (Nat.le_of_eq (Nat.zero_add _)) hmade
    (Act.merge_right _ hnext)

/-- An insertion of the change may be told behind characters that the other change removes, where it
comes first. -/
theorem Rebased.postpone {k n : Nat} {xs : List δ} (p : Bool)
    (h : I.Rebased before (put 0 xs :: left) right (doc.drop n) spans out) (hpos : 0 < n)
    (hn : n ≤ doc.length) (hnext : Next (0 < ·) right) :
    I.Rebased before (put k xs :: (List.replicate n (pass p) ++ left))
      (List.replicate n (pass false) ++ right) doc spans out := by
  refine h.congr ?_ ?_ ?_
  · rw [Act.perform_replicate false hn]
    rfl
  · rw [Act.volume_cons_put, Act.volume_cons_put, Act.volume_replicate]
  · have hfirst : Next (fun l => ¬ Yields before 0 l) right := by
      refine hnext.mono ?_
      intro l hl hyields
      rcases hyields with hyields | hyields
      · omega
      · omega
    rw [Act.merge_left _ (Act.next_replicate false hpos), Act.merge_left _ hfirst,
      Act.merge_replicate p false hn, Bool.and_false]
    rfl

end Moves

/-- What is left of a span of the other change. Its insertion is never told before some of its
characters are passed. -/
structure Whole (J : Reading β δ) (b : Rest β) : Prop extends J.Second b where
  passed : 0 ≤ b.count → b.passed = 0

section Rests

variable {a : Rest α} {as : List (Rest α)} {b : Rest β} {bs : List (Rest β)} {told : Bool}
  {len : Nat}

/-- A kept run is passed piece by piece. -/
theorem acts_forward_kept (told' : Bool) (hkept : a.count < 0) (hlen : len < a.length) :
    I.acts told (a :: as)
      = List.replicate len (pass true) ++ I.acts told' (Rest.forward len (a :: as)) := by
  have hrest : (Rest.mk (a.length - len) a.count a.text (a.passed + len)).count < 0 := hkept
  rw [Rest.forward, if_neg (Nat.ne_of_lt hlen), acts_cons, acts_cons, actsOf_kept hkept,
    actsOf_kept hrest, Act.replicate_eq_append (Nat.le_of_lt hlen), List.append_assoc]

/-- So is a replaced one behind its insertion. -/
theorem acts_forward_told (hput : 0 ≤ a.count) (hlen : len < a.length) :
    I.acts true (a :: as)
      = List.replicate len (pass false) ++ I.acts true (Rest.forward len (a :: as)) := by
  have hrest : 0 ≤ (Rest.mk (a.length - len) a.count a.text (a.passed + len)).count := hput
  rw [Rest.forward, if_neg (Nat.ne_of_lt hlen), acts_cons, acts_cons, actsOf_told hput,
    actsOf_told hrest, Act.replicate_eq_append (Nat.le_of_lt hlen), List.append_assoc]

/-- The insertion of a run of which some characters were passed comes before every other. -/
theorem acts_forward_put (hput : 0 ≤ a.count) (hpos : 0 < len) (hlen : len < a.length) :
    I.acts false (Rest.forward len (a :: as))
      = put 0 (I.content a.text a.count.toNat)
        :: (List.replicate (a.length - len) (pass false) ++ I.acts false as) := by
  have hrest : 0 ≤ (Rest.mk (a.length - len) a.count a.text (a.passed + len)).count := hput
  rw [Rest.forward, if_neg (Nat.ne_of_lt hlen), acts_cons, actsOf_put hrest,
    if_neg (show a.passed + len ≠ 0 by omega)]
  rfl

theorem acts_put (hput : 0 ≤ a.count) :
    I.acts false (a :: as)
      = put (if a.passed = 0 then a.length + 1 else 0) (I.content a.text a.count.toNat)
        :: (List.replicate a.length (pass false) ++ I.acts false as) := by
  rw [acts_cons, actsOf_put hput]
  rfl

theorem acts_told (hput : 0 ≤ a.count) :
    I.acts true (a :: as) = List.replicate a.length (pass false) ++ I.acts false as := by
  rw [acts_cons, actsOf_told hput]

theorem acts_kept (hkept : a.count < 0) :
    I.acts told (a :: as) = List.replicate a.length (pass true) ++ I.acts false as := by
  rw [acts_cons, actsOf_kept hkept]

theorem acts_whole (hb : J.Whole b) (hput : 0 ≤ b.count) :
    J.acts false (b :: bs) = put (b.length + 1) (J.content b.text b.count.toNat)
      :: (List.replicate b.length (pass false) ++ J.acts false bs) := by
  rw [acts_put hput, if_pos (hb.passed hput)]

/-- Every insertion of the other change has a rank of its own. -/
theorem next_acts_whole (hbs : ∀ b ∈ bs, J.Whole b) : Next (0 < ·) (J.acts false bs) := by
  cases bs with
  | nil => exact Act.next_nil
  | cons b bs =>
    have hb := hbs b List.mem_cons_self
    by_cases hkept : b.count < 0
    · rw [acts_kept hkept]
      exact Act.next_replicate true (hb.kept hkept)
    · rw [acts_whole hb (Int.not_lt.mp hkept)]
      exact Act.next_put (Nat.succ_pos _)

/-- A kept run of the other change stays whole. -/
theorem Whole.forward (hb : J.Whole b) (hbs : ∀ r ∈ bs, J.Whole r) (hkept : b.count < 0)
    (hlen : len ≤ b.length) : ∀ r ∈ Rest.forward len (b :: bs), J.Whole r := by
  have hsecond := hb.toSecond.forward (fun r hr => (hbs r hr).toSecond) hlen
  rw [Rest.forward] at hsecond ⊢
  by_cases hall : len = b.length
  · rwa [if_pos hall]
  · rw [if_neg hall] at hsecond ⊢
    obtain ⟨hfirst, -⟩ := List.forall_mem_cons.mp hsecond
    refine List.forall_mem_cons.mpr ⟨⟨hfirst, fun hput => ?_⟩, hbs⟩
    exact absurd hkept (Int.not_lt.mpr hput)

end Rests

section Absorbing

variable {as as' : List (Rest α)} {told told' : Bool} {len : Nat} {right : List (Act δ)}
  {doc : List δ} {spans spans' out : List (Span α)}

/-- What absorbing characters that the other change removed comes to. -/
structure Absorbed (I : Reading α δ) (before : Bool) (as : List (Rest α)) (told : Bool) (len : Nat)
    (right : List (Act δ)) (doc : List δ) (spans : List (Span α)) (as' : List (Rest α))
    (told' : Bool) (spans' : List (Span α)) : Prop where
  rests : ∀ a ∈ as', I.Second a
  sound : ∀ s ∈ spans', I.Sound s
  rebased : ∀ out, I.Rebased before (I.acts told' as') right (doc.drop len) spans' out →
    I.Rebased before (I.acts told as) (List.replicate len (pass false) ++ right) doc spans out

/-- A run that ends among the characters is absorbed, its insertion being told. -/
theorem Absorbed.cons {a : Rest α} {mid : List (Span α)} (p : Bool)
    (h : I.Absorbed before as false (len - a.length) right (doc.drop a.length) mid as' told' spans')
    (hle : a.length ≤ len) (hdoc : len ≤ doc.length)
    (hfirst : ∀ out, I.Rebased before (List.replicate a.length (pass p) ++ I.acts false as)
        (List.replicate len (pass false) ++ right) doc mid out →
      I.Rebased before (I.acts told (a :: as)) (List.replicate len (pass false) ++ right) doc spans
        out) :
    I.Absorbed before (a :: as) told len right doc spans as' told' spans' where
  rests := h.rests
  sound := h.sound
  rebased out hout := by
    have hrest : (doc.drop a.length).drop (len - a.length) = doc.drop len := by
      rw [List.drop_drop, Nat.add_sub_cancel' hle]
    refine hfirst out ?_
    rw [Act.replicate_eq_append hle, List.append_assoc]
    exact Rebased.delete p (h.rebased out (by rwa [hrest])) (Nat.le_trans hle hdoc)

/-- A run that reaches behind the characters is cut there. -/
theorem Absorbed.cut {a : Rest α} (ha : I.Second a) (has : ∀ r ∈ as, I.Second r)
    (htold : Told told (a :: as)) (hspans : ∀ s ∈ spans, I.Sound s) (hpos : 0 < len)
    (hlt : len < a.length) (hdoc : len ≤ doc.length) (hright : Next (0 < ·) right) :
    I.Absorbed before (a :: as) told len right doc spans (Rest.forward len (a :: as)) told
      spans where
  rests := ha.forward has (Nat.le_of_lt hlt)
  sound := hspans
  rebased out hout := by
    by_cases hkept : a.count < 0
    · obtain rfl := htold.eq_false hkept
      rw [acts_forward_kept false hkept hlt]
      exact Rebased.delete true hout hdoc
    · have hput : 0 ≤ a.count := Int.not_lt.mp hkept
      cases told with
      | true =>
        rw [acts_forward_told hput hlt]
        exact Rebased.delete false hout hdoc
      | false =>
        rw [acts_forward_put hput hpos hlt] at hout
        rw [acts_put hput, Act.replicate_eq_append (Nat.le_of_lt hlt), List.append_assoc]
        exact Rebased.postpone false hout hpos hdoc hright

/-- What is left of the change behind characters that the other one removed. -/
theorem absorb_spec (habsorb : Change.absorb as told len spans = some (as', told', spans'))
    (doc : List δ) (has : ∀ a ∈ as, I.Second a) (htold : Told told as)
    (hspans : ∀ s ∈ spans, I.Sound s) (hdoc : len ≤ doc.length) (hright : Next (0 < ·) right) :
    I.Absorbed before as told len right doc spans as' told' spans' := by
  -- The document that is left gets shorter with every run.
  fun_induction Change.absorb as told len spans generalizing doc with
  | case1 as told spans =>
    obtain ⟨rfl, rfl, rfl⟩ : as = as' ∧ told = told' ∧ spans = spans' := by simpa using habsorb
    exact ⟨has, hspans, fun out h => h⟩
  | case2 => cases habsorb
  | case3 a as told len spans hle ih =>
    obtain ⟨ha, has⟩ := List.forall_mem_cons.mp has
    have hdrop : len + 1 - a.length ≤ (doc.drop a.length).length := by
      rw [List.length_drop]
      omega
    by_cases hput : 0 ≤ a.count ∧ !told
    · rw [if_pos hput] at ih habsorb
      obtain ⟨hput, huntold⟩ := hput
      obtain rfl : told = false := by simpa using huntold
      -- The insertion of the run is told now, and its characters are absorbed.
      have hpushed := push_unjoined hspans (ha.fit_text 0)
      have hrest := ih habsorb (doc.drop a.length) has Told.untold hpushed.sound hdrop
      refine hrest.cons false hle hdoc fun out hout => ?_
      rw [acts_put hput]
      exact hout.put_left hpushed hput ha.proper (Act.next_replicate false (Nat.succ_pos len))
    · rw [if_neg hput] at ih habsorb
      have hrest := ih habsorb (doc.drop a.length) has Told.untold hspans hdrop
      by_cases hkept : a.count < 0
      · exact hrest.cons true hle hdoc fun out hout => by rwa [acts_kept hkept]
      · obtain rfl : told = true := by simpa [Int.not_lt.mp hkept] using hput
        exact hrest.cons false hle hdoc fun out hout => by rwa [acts_told (Int.not_lt.mp hkept)]
  | case4 a as told len spans hlt =>
    obtain ⟨ha, has⟩ := List.forall_mem_cons.mp has
    obtain ⟨rfl, rfl, rfl⟩ :
        Rest.forward (len + 1) (a :: as) = as' ∧ told = told' ∧ spans = spans' := by
      simpa using habsorb
    exact Absorbed.cut ha has htold hspans (Nat.succ_pos len) (Nat.not_le.mp hlt) hdoc hright

end Absorbing

section Passing

variable {bs : List (Rest β)} {left : Nat} {tail : List (Act δ)} {doc : List δ}

/-- What passing the kept runs of the other change with `left` removed characters comes to. -/
structure Passed (J : Reading β δ) (before : Bool) (left : Nat) (bs : List (Rest β))
    (tail : List (Act δ)) (doc : List δ) (met : Passage β) : Prop where
  rests : ∀ b ∈ met.spans, J.Whole b
  alone : ∃ kept, kept.length = met.kept ∧ perform (J.acts false bs) doc
    = kept ++ perform (J.acts false met.spans) (doc.drop (left - met.left))
  merged : merge before (List.replicate left (pass false) ++ tail) (J.acts false bs) doc
    = merge before (List.replicate met.left (pass false) ++ tail) (J.acts false met.spans)
        (doc.drop (left - met.left))

/-- Nothing is passed. -/
theorem Passed.stop (hbs : ∀ b ∈ bs, J.Whole b) :
    J.Passed before left bs tail doc ⟨0, left, bs⟩ where
  rests := hbs
  alone := ⟨[], rfl, by rw [Nat.sub_self, List.drop_zero, List.nil_append]⟩
  merged := by rw [Nat.sub_self, List.drop_zero]

/-- A run of the other change is passed, and more behind it. -/
theorem Passed.cons {b : Rest β} {met : Passage β} (p : Bool)
    (h : J.Passed before (left - b.length) bs tail (doc.drop b.length) met)
    (hleft : met.left ≤ left - b.length) (hle : b.length ≤ left) (hdoc : b.length ≤ doc.length)
    (hperform : perform (J.acts false (b :: bs)) doc
      = perform (List.replicate b.length (pass p) ++ J.acts false bs) doc)
    (hmerge : merge before (List.replicate left (pass false) ++ tail) (J.acts false (b :: bs)) doc
      = merge before (List.replicate left (pass false) ++ tail)
          (List.replicate b.length (pass p) ++ J.acts false bs) doc) :
    J.Passed before left (b :: bs) tail doc
      ⟨(if p then b.length else 0) + met.kept, met.left, met.spans⟩ := by
  have hdrop : (doc.drop b.length).drop (left - b.length - met.left)
      = doc.drop (left - met.left) := by
    rw [List.drop_drop]
    congr 1
    omega
  obtain ⟨kept, hkept, hrest⟩ := h.alone
  rw [hdrop] at hrest
  refine ⟨h.rests, ⟨(if p then doc.take b.length else []) ++ kept, ?_, ?_⟩, ?_⟩
  · rw [List.length_append, hkept]
    cases p
    · rfl
    · exact congrArg (· + met.kept) (List.length_take_of_le hdoc)
  · rw [hperform, Act.perform_replicate p hdoc, hrest, List.append_assoc]
  · rw [hmerge, Act.replicate_eq_append hle, List.append_assoc, Act.merge_replicate false p hdoc,
      Bool.false_and, h.merged, hdrop]
    rfl

/-- A kept run of the other change reaches behind the removed characters. -/
theorem Passed.cut {b : Rest β} (hb : J.Whole b) (hbs : ∀ r ∈ bs, J.Whole r) (hkept : b.count < 0)
    (hlt : left < b.length) (hdoc : left ≤ doc.length) :
    J.Passed before left (b :: bs) tail doc ⟨left, 0, Rest.forward left (b :: bs)⟩ := by
  refine ⟨hb.forward hbs hkept (Nat.le_of_lt hlt),
    ⟨doc.take left, List.length_take_of_le hdoc, ?_⟩, ?_⟩
  · rw [acts_forward_kept false hkept hlt, Act.perform_replicate true hdoc]
    rfl
  · rw [acts_forward_kept false hkept hlt, Act.merge_replicate false true hdoc]
    rfl

/-- A run of removed characters passes the kept runs of the other change, and its deletions, up to
an insertion or to the end of the run. -/
theorem passKept_spec (left : Nat) (bs : List (Rest β)) (doc : List δ) (hbs : ∀ b ∈ bs, J.Whole b)
    (hleft : left ≤ Rest.total bs) (hdoc : Rest.total bs ≤ doc.length) :
    J.Passed before left bs tail doc (Change.passKept left bs) := by
  fun_induction Change.passKept left bs generalizing doc with
  | case1 left => exact Passed.stop hbs
  | case2 b bs => exact Passed.stop hbs
  | case3 left b bs hpos hkept hle later ih =>
    obtain ⟨hb, hbs⟩ := List.forall_mem_cons.mp hbs
    rw [total_cons] at hleft hdoc
    -- The kept run is counted with those behind it.
    have hrest := ih (doc.drop b.length) hbs (by omega) (by rw [List.length_drop]; omega)
    have hacts : J.acts false (b :: bs)
        = List.replicate b.length (pass true) ++ J.acts false bs := acts_kept (hkept ▸ by decide)
    exact hrest.cons true (Change.left_passKept_le _ _) hle (by omega) (by rw [hacts])
      (by rw [hacts])
  | case4 left b bs hpos hkept hlt =>
    obtain ⟨hb, hbs⟩ := List.forall_mem_cons.mp hbs
    exact Passed.cut hb hbs (hkept ▸ by decide) (Nat.not_le.mp hlt) (Nat.le_trans hleft hdoc)
  | case5 left b bs hpos hkept hdel ih =>
    obtain ⟨hb, hbs⟩ := List.forall_mem_cons.mp hbs
    obtain ⟨hcount, hlt⟩ := hdel
    rw [total_cons] at hleft hdoc
    -- A deletion inserts nothing, and its characters are removed by both changes.
    have hrest := ih (doc.drop b.length) hbs (by omega) (by rw [List.length_drop]; omega)
    have hproper := hb.proper
    rw [hcount] at hproper
    have hacts : J.acts false (b :: bs)
        = put (b.length + 1) [] :: (List.replicate b.length (pass false) ++ J.acts false bs) := by
      rw [acts_whole hb (Int.le_of_eq hcount.symm), hcount]
      exact congrArg (fun xs => put _ xs :: _) (content_zero hproper)
    have hnext : Next (fun k => Yields before k (b.length + 1))
        (List.replicate left (pass false) ++ tail) := Act.next_replicate false (by omega)
    have hpassed := hrest.cons false (Change.left_passKept_le _ _) (Nat.le_of_lt hlt) (by omega)
      (by rw [hacts, Act.perform_put, List.nil_append])
      (by rw [hacts, Act.merge_right _ hnext, List.nil_append])
    rwa [if_neg Bool.false_ne_true, Nat.zero_add] at hpassed
  | case6 left b bs hpos hkept hput => exact Passed.stop hbs

end Passing

section Walk

variable {a : Rest α} {as : List (Rest α)} {told : Bool} {b : Rest β} {bs : List (Rest β)}
  {doc : List δ} {spans spans' out : List (Span α)}

omit [Insertion β] in
/-- Where an insertion of the other change is told first, it comes first. -/
theorem next_of_yieldsTo (ha : I.Second a) (htold : Told told (a :: as))
    (h : Change.yieldsTo before b.length told a = true) :
    Next (fun k => Yields before k (b.length + 1)) (I.acts told (a :: as)) := by
  by_cases hkept : a.count < 0
  · rw [acts_kept hkept]
    exact Act.next_replicate true (ha.kept hkept)
  · have hput : 0 ≤ a.count := Int.not_lt.mp hkept
    cases told with
    | true =>
      rw [acts_told hput]
      exact Act.next_replicate false (htold rfl a rfl).2
    | false =>
      rw [acts_put hput]
      refine Act.next_put ?_
      simp only [Change.yieldsTo, hkept, decide_false, Bool.false_or, Bool.and_eq_true,
        Bool.or_eq_true, decide_eq_true_eq, Bool.not_eq_true'] at h
      rw [if_pos h.1, Yields]
      rcases h.2 with hlt | ⟨heq, hlast⟩
      · exact Or.inl (Nat.succ_lt_succ hlt)
      · exact Or.inr ⟨congrArg (· + 1) heq, hlast⟩

omit [Insertion α] in
/-- Otherwise the insertion of the change comes first. -/
theorem next_of_not_yieldsTo (hput : 0 ≤ a.count) (hbs : ∀ r ∈ b :: bs, J.Whole r)
    (h : ¬ (0 ≤ b.count ∧ Change.yieldsTo before b.length false a = true)) :
    Next (fun l => ¬ Yields before (if a.passed = 0 then a.length + 1 else 0) l)
      (J.acts false (b :: bs)) := by
  have hb := hbs b List.mem_cons_self
  by_cases hkept : b.count < 0
  · rw [acts_kept hkept]
    exact Act.next_replicate true (hb.kept hkept)
  · have hbput : 0 ≤ b.count := Int.not_lt.mp hkept
    rw [acts_whole hb hbput]
    refine Act.next_put fun hyields => h ⟨hbput, ?_⟩
    simp only [Change.yieldsTo, Int.not_lt.mpr hput, decide_false, Bool.false_or, Bool.and_eq_true,
      Bool.or_eq_true, decide_eq_true_eq, Bool.not_eq_true']
    split at hyields
    · next hpassed =>
      refine ⟨hpassed, ?_⟩
      rcases hyields with hlt | ⟨heq, hlast⟩
      · exact Or.inl (Nat.lt_of_succ_lt_succ hlt)
      · exact Or.inr ⟨Nat.succ_injective heq, hlast⟩
    · rcases hyields with hyields | ⟨hyields, -⟩ <;> omega

/-- A replaced run of the change passes what the other change keeps of its characters. -/
theorem Rebased.pass {met : Passage β} (ha : I.Second a) (hput : 0 ≤ a.count)
    (hpassed : J.Passed before a.length bs (I.acts false as) doc met)
    (hpushed : I.Pushed spans
      (if told then ⟨met.kept, 0, Insertion.empty⟩ else ⟨met.kept, a.count, a.text⟩) spans')
    (hnext : told = false → Next (fun l =>
      ¬ Yields before (if a.passed = 0 then a.length + 1 else 0) l) (J.acts false bs))
    (h : I.Rebased before (List.replicate met.left (pass false) ++ I.acts false as)
      (J.acts false met.spans) (doc.drop (a.length - met.left)) spans' out) :
    I.Rebased before (I.acts told (a :: as)) (J.acts false bs) doc spans out := by
  obtain ⟨kept, hkept, hperform⟩ := hpassed.alone
  cases told with
  | true =>
    refine h.move [] hpushed hkept hperform ?_ (fun rest => ?_) ?_
    · rw [acts_told hput, Act.volume_replicate, Act.volume_replicate]
      exact Nat.le_of_eq (Nat.zero_add _)
    · exact (step_put (Int.le_refl 0) _).trans content_empty
    · rw [acts_told hput, hpassed.merged, List.nil_append]
  | false =>
    refine h.move (I.content a.text a.count.toNat) hpushed hkept hperform ?_ (fun rest => ?_) ?_
    · rw [acts_put hput, Act.volume_cons_put, Act.volume_replicate, Act.volume_replicate,
        I.length_content _ _ ha.proper]
      exact Nat.le_refl _
    · exact step_put hput _
    · rw [acts_put hput, Act.merge_left _ (hnext rfl), hpassed.merged]

/-- Changes of one document, in a walk over what is left of both. -/
structure Facing (I : Reading α δ) (J : Reading β δ) (as : List (Rest α)) (told : Bool)
    (bs : List (Rest β)) (doc : List δ) : Prop where
  left : ∀ a ∈ as, I.Second a
  untold : Told told as
  right : ∀ b ∈ bs, J.Whole b
  total : Rest.total as = Rest.total bs
  fits : doc.length = Rest.total bs

theorem push_keep {spans : List (Span α)} (hspans : ∀ s ∈ spans, I.Sound s) (n : Nat) :
    I.Pushed spans (Span.keep n) (Span.push false spans (Span.keep n)) :=
  push_unjoined hspans (fit_keep n)

/-- Both changes go on behind the same characters. -/
theorem Facing.advance {as' : List (Rest α)} {told' : Bool} {bs' : List (Rest β)} {n : Nat}
    (h : Facing I J as told bs doc) (hleft : ∀ r ∈ as', I.Second r) (htold : Told told' as')
    (hright : ∀ r ∈ bs', J.Whole r) (has : Rest.total as' + n = Rest.total as)
    (hbs : Rest.total bs' + n = Rest.total bs) : Facing I J as' told' bs' (doc.drop n) where
  left := hleft
  untold := htold
  right := hright
  total := by
    have := h.total
    omega
  fits := by
    have := h.fits
    rw [List.length_drop]
    omega

theorem Facing.length_le (h : Facing I J as told (b :: bs) doc) : b.length ≤ doc.length := by
  have hfits := h.fits
  rw [total_cons] at hfits
  omega

theorem Facing.absorbed {as' : List (Rest α)} {told' : Bool}
    (h : Facing I J as told (b :: bs) doc) (hspans : ∀ s ∈ spans, I.Sound s)
    (habsorb : Change.absorb as told b.length spans = some (as', told', spans')) :
    I.Absorbed before as told b.length (J.acts false bs) doc spans as' told' spans' :=
  absorb_spec habsorb doc h.left h.untold hspans h.length_le
    (next_acts_whole fun r hr => h.right r (List.mem_cons_of_mem _ hr))

theorem Facing.passed {tail : List (Act δ)} (h : Facing I J (a :: as) told bs doc) :
    J.Passed before a.length bs tail doc (Change.passKept a.length bs) := by
  have htotal := h.total
  rw [total_cons] at htotal
  exact passKept_spec a.length bs doc h.right (by omega) (Nat.le_of_eq h.fits.symm)

/-- A replaced run is put behind the others, with its insertion unless that was told before. -/
theorem Second.push_told (ha : I.Second a) (hspans : ∀ s ∈ spans, I.Sound s) (told : Bool)
    (len : Nat) :
    I.Pushed spans (if told then ⟨len, 0, Insertion.empty⟩ else ⟨len, a.count, a.text⟩)
      (Span.push false spans
        (if told then ⟨len, 0, Insertion.empty⟩ else ⟨len, a.count, a.text⟩)) := by
  apply push_unjoined hspans
  cases told with
  | true => exact ⟨show Span.keptMark ≤ 0 by decide, I.empty⟩
  | false => exact ha.fit_text len

/-- Behind as many characters as a kept run has, it is done. -/
theorem acts_forward_le {r : Rest α} {rs : List (Rest α)} {len : Nat} (hkept : r.count < 0)
    (hlen : len ≤ r.length) :
    I.acts told (r :: rs)
      = List.replicate len (pass true) ++ I.acts false (Rest.forward len (r :: rs)) := by
  rcases Nat.lt_or_eq_of_le hlen with hlt | rfl
  · exact acts_forward_kept false hkept hlt
  · rw [acts_kept hkept, Rest.forward, if_pos rfl]

/-- The turns of the walk over two changes of one document find what both make of it. -/
theorem rebased_of_turns {walk : Walk (List (Span α))}
    (h : Change.Turns before as told bs spans walk) (hout : walk = .finished out)
    (hfacing : Facing I J as told bs doc) (hspans : ∀ s ∈ spans, I.Sound s) :
    I.Rebased before (I.acts told as) (J.acts false bs) doc spans out := by
  -- In each turn the acts in front are merged, and the rest of the walk is about the acts that are
  -- left and the document behind the characters passed.
  induction h generalizing doc with
  | short | long | stalls => cases hout
  | done =>
    obtain rfl := Walk.finished.inj hout
    exact Rebased.done hspans
  | @keepLast told b bs spans walk hzero hput _ ih =>
    obtain ⟨hb, hbs⟩ := List.forall_mem_cons.mp hfacing.right
    have hlength : (J.content b.text b.count.toNat).length = b.count.toNat :=
      J.length_content _ _ hb.proper
    have hpushed := push_keep hspans b.count.toNat
    have hrebased := ih hout (hfacing.advance (n := 0) hfacing.left hfacing.untold hbs rfl
      (by rw [total_cons, hzero]; omega)) hpushed.sound
    rw [acts_whole hb hput, hzero]
    refine Rebased.put_right hrebased ?_ Act.next_nil
    rwa [hlength]
  | @putLast a as spans walk hzero hput _ ih =>
    obtain ⟨ha, has⟩ := List.forall_mem_cons.mp hfacing.left
    have hpushed := push_unjoined hspans (ha.fit_text 0)
    have hrebased := ih hout (hfacing.advance (n := 0) has Told.untold hfacing.right
      (by rw [total_cons, hzero]; omega) rfl) hpushed.sound
    rw [acts_put hput, hzero]
    exact Rebased.put_left hrebased hpushed hput ha.proper Act.next_nil
  | @keep a as b bs spans walk len hkept hbkept hlen _ ih =>
    obtain ⟨ha, has⟩ := List.forall_mem_cons.mp hfacing.left
    obtain ⟨hb, hbs⟩ := List.forall_mem_cons.mp hfacing.right
    have hneg : a.count < 0 := hkept ▸ by decide
    have hbneg : b.count < 0 := hbkept ▸ by decide
    have hle : len ≤ a.length := hlen.trans_le (Nat.min_le_left _ _)
    have hble : len ≤ b.length := hlen.trans_le (Nat.min_le_right _ _)
    have hpushed := push_keep hspans len
    have hrebased := ih hout (hfacing.advance (ha.forward has hle) Told.untold
      (hb.forward hbs hbneg hble) (Rest.total_forward as hle) (Rest.total_forward bs hble))
      hpushed.sound
    rw [acts_forward_le hneg hle, acts_forward_le hbneg hble]
    exact Rebased.keep hrebased hpushed (hble.trans hfacing.length_le)
  | @yields a as as' told told' b bs spans spans' walk hput hyields habsorb _ ih =>
    obtain ⟨hb, hbs⟩ := List.forall_mem_cons.mp hfacing.right
    have hlength : (J.content b.text b.count.toNat).length = b.count.toNat :=
      J.length_content _ _ hb.proper
    have hpushed := push_keep hspans b.count.toNat
    have habsorbed : I.Absorbed before _ _ _ (J.acts false bs) doc _ _ _ _ :=
      hfacing.absorbed hpushed.sound habsorb
    obtain ⟨-, htold⟩ := Change.markedSecond_absorb habsorb
      (fun r hr => (hfacing.left r hr).marked) hfacing.untold
    have hrebased := ih hout (hfacing.advance habsorbed.rests htold hbs
      (Change.total_absorb habsorb) (Nat.add_comm _ _)) habsorbed.sound
    rw [acts_whole hb hput]
    refine Rebased.put_right (habsorbed.rebased out hrebased) ?_
      (next_of_yieldsTo (hfacing.left a List.mem_cons_self) hfacing.untold hyields)
    rwa [hlength]
  | @passes a as told b bs spans walk met hyields hput hmet hleft _ ih =>
    obtain ⟨ha, has⟩ := List.forall_mem_cons.mp hfacing.left
    have hpassed : J.Passed before a.length (b :: bs) (I.acts false as) doc met :=
      hmet ▸ hfacing.passed
    have hpushed := ha.push_told hspans told met.kept
    have htotal := Change.total_passKept a.length (b :: bs)
    rw [hmet, hleft, Nat.sub_zero] at htotal
    have hrebased := ih hout (hfacing.advance has Told.untold hpassed.rests (Nat.add_comm _ _)
      htotal) hpushed.sound
    refine Rebased.pass ha hput hpassed hpushed ?_ ?_
    · rintro rfl
      exact next_of_not_yieldsTo hput hfacing.right hyields
    · rw [hleft, Nat.sub_zero]
      exact hrebased
  | @stops a as told b bs spans walk met hyields hput hmet hpos _ ih =>
    obtain ⟨ha, has⟩ := List.forall_mem_cons.mp hfacing.left
    have hpassed : J.Passed before a.length (b :: bs) (I.acts false as) doc met :=
      hmet ▸ hfacing.passed
    have hpushed := ha.push_told hspans told met.kept
    have htotal := Change.total_passKept a.length (b :: bs)
    rw [hmet] at htotal
    have hle : a.length - met.left ≤ a.length := Nat.sub_le _ _
    have hleft : met.left ≤ a.length := hmet ▸ Change.left_passKept_le a.length (b :: bs)
    -- The removed characters stop in front of an insertion of the other; the insertion of the run
    -- itself is told, and the rest of its characters wait behind.
    have hrebased := ih hout (hfacing.advance (ha.forward has hle)
      (Told.forward_left hput hpos hleft) hpassed.rests (Rest.total_forward as hle) htotal)
      hpushed.sound
    refine Rebased.pass ha hput hpassed hpushed ?_ ?_
    · rintro rfl
      exact next_of_not_yieldsTo hput hfacing.right hyields
    · have hacts : I.acts true (Rest.forward (a.length - met.left) (a :: as))
          = List.replicate met.left (pass false) ++ I.acts false as := by
        rw [forward_left as hpos hleft]
        exact acts_told hput
      rwa [hacts] at hrebased

end Walk

section Rebase

variable {c : Change α} {d : Change β}

theorem Sound.whole {s : Span β} (h : J.Sound s) : J.Whole (Rest.ofSpan s) :=
  ⟨h.second, fun _ => rfl⟩

/-- Changes of one document, in front of a walk. -/
theorem Facing.start {doc : List δ} (hc : ∀ s ∈ c.spans, I.Sound s) (hd : ∀ s ∈ d.spans, J.Sound s)
    (hfits : d.length = c.length) (hdoc : doc.length = d.length) :
    Facing I J (c.spans.map Rest.ofSpan) false (d.spans.map Rest.ofSpan) doc where
  left := second_of_sound hc
  untold := Told.untold
  right b hb := by
    obtain ⟨s, hs, rfl⟩ := List.mem_map.mp hb
    exact (hd s hs).whole
  total := by
    rw [Change.total_ofSpan, Change.total_ofSpan]
    exact hfits.symm
  fits := by
    rw [Change.total_ofSpan]
    exact hdoc

/-- A change that keeps the whole document passes all its items. -/
theorem actions_of_isEmpty (h : d.isEmpty = true) {doc : List δ} (hdoc : doc.length = d.length) :
    J.actions d = List.replicate doc.length (pass true) := by
  rw [actions, hdoc, Change.length]
  obtain hspans | ⟨s, hspans, hkept⟩ := Change.spans_of_isEmpty h
  · rw [hspans]
    rfl
  · rw [hspans, sumBy_cons, sumBy_nil, Nat.add_zero, List.map_cons, acts_cons, actsOf_kept hkept]
    exact List.append_nil _

/-- A change can be rebased over any other of the same document. What results does to what the other
leads to what both do together. -/
theorem rebase_spec [Inhabited δ] (hc : ∀ s ∈ c.spans, I.Sound s) (hd : ∀ s ∈ d.spans, J.Sound s)
    (hfits : d.length = c.length) (before : Bool) :
    ∃ e, c.rebase d before = .ok e ∧ (∀ s ∈ e.spans, I.Sound s) ∧ e.length = d.newLength
      ∧ e.volume ≤ c.volume
      ∧ ∀ doc, doc.length = d.length → I.run e.spans (J.run d.spans doc)
        = merge before (I.actions c) (J.actions d) doc := by
  obtain ⟨hempty, he⟩ | ⟨out, he, hturns⟩ := Change.rebase_turns
    (fun s hs => (hc s hs).marked) (fun s hs => (hd s hs).marked) hfits before
  · refine ⟨c, he, hc, ?_, Nat.le_refl _, fun doc hdoc => ?_⟩
    · rw [Change.newLength_of_isEmpty hempty, hfits]
    · rw [run_of_isEmpty hempty hdoc, actions_of_isEmpty hempty hdoc, Act.merge_keeping]
      exact (perform_acts (Nat.le_of_eq (hfits.symm.trans hdoc.symm))).symm
  · have hfound : ∀ doc : List δ, doc.length = d.length →
        I.Rebased before (I.actions c) (J.actions d) doc [] out := fun doc hdoc =>
      rebased_of_turns hturns rfl (Facing.start hc hd hfits hdoc) (by simp)
    -- What the walk finds does not depend on the document, of which any will do for the lengths.
    have hdoc : (List.replicate d.length (default : δ)).length = d.length := List.length_replicate
    have hrebased := hfound _ hdoc
    refine ⟨⟨out⟩, he, hrebased.sound, ?_, ?_, fun doc hdoc => ?_⟩
    · have hlength := hrebased.length
      rw [sumBy_nil, Nat.zero_add, actions, perform_acts (Nat.le_of_eq hdoc.symm),
        length_run hd hdoc] at hlength
      exact hlength
    · have hvolume := hrebased.volume
      rw [sumBy_nil, Nat.zero_add, actions, volume_acts hc] at hvolume
      exact hvolume
    · exact (hfound doc hdoc).run _ (perform_acts (Nat.le_of_eq hdoc.symm)).symm

end Rebase

end Reading

end TextRevision
