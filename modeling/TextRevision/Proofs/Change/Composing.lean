import TextRevision.Proofs.Change.Meeting

/-!
# One change after another

The walk that puts two changes together finds spans that do what the first does and then what the
second does to the result. Each move of the walk takes the same characters of the second document
off both changes. Where the next span is joined to the last one, both are replaced runs: the rest of
an insertion of the first change, or of a replaced run of the second, is still to come.

## Main definitions

- `Reading.Composed`: what the walk finds

## Main statements

- `Reading.composed_of_moves`, `Reading.andThen_spec`
- `Reading.normal_andThen`: changes of which no two neighbouring runs are of one kind
-/

namespace TextRevision

variable {α β : Type} [Insertion α]

namespace Reading

variable {I : Reading α β}

/-- What the next span belongs to if it is joined to the last one: the rest of an insertion of the
first change, or of a replaced run of the second. -/
def Pending (as bs : List (Rest α)) : Prop :=
  (∃ a ∈ as.head?, 0 < a.count ∧ 0 < a.passed) ∨ ∃ b ∈ bs.head?, 0 ≤ b.count ∧ 0 < b.passed

omit [Insertion α] in
/-- Behind a deletion of the first change, only a replaced run of the second can go on. -/
theorem Pending.of_deletion {a : Rest α} {as bs : List (Rest α)} (h : Pending (a :: as) bs)
    (hzero : a.count = 0) : ∃ b ∈ bs.head?, 0 ≤ b.count ∧ 0 < b.passed := by
  rcases h with ⟨a', ha', hopen, -⟩ | hopen
  · obtain rfl := Option.some.inj ha'
    omega
  · exact hopen

omit [Insertion α] in
/-- Behind an insertion of the second change, only one of the first can go on. -/
theorem Pending.of_insertion {b : Rest α} {as bs : List (Rest α)} (h : Pending as (b :: bs))
    (hpassed : b.passed = 0) : ∃ a ∈ as.head?, 0 < a.count ∧ 0 < a.passed := by
  rcases h with hopen | ⟨b', hb', -, hopen⟩
  · exact hopen
  · obtain rfl := Option.some.inj hb'
    omega

/-- The newest span, if there is one, is a replaced run. -/
def HeadPut (spans : List (Span α)) : Prop :=
  ∀ last ∈ spans.head?, 0 ≤ last.count

/-- A replaced run that is put behind others, as a run of its own or joined to a replaced one,
leaves a replaced run as the newest one. -/
theorem HeadPut.push {join : Bool} {spans : List (Span α)} {s : Span α} (hput : 0 ≤ s.count)
    (h : (join = true ∧ HeadPut spans) ∨ spans.length < (Span.push join spans s).length) :
    HeadPut (Span.push join spans s) := by
  have hattach : ∀ run : List (Span α), HeadPut run → HeadPut (Span.attach s.text run) := by
    intro run hrun
    cases run with
    | nil => exact hrun
    | cons last rest =>
      intro t ht
      obtain rfl := Option.some.inj ht
      exact hrun last rfl
  have hlength : (Span.push join spans s).length = (Span.pushRun join spans s).length := by
    rw [Span.push]
    cases Span.pushRun join spans s <;> rfl
  rw [hlength] at h
  -- Only the run decides: the cases are those in which it is left out, merged or put alone.
  refine hattach _ ?_
  unfold Span.pushRun at h ⊢
  split
  · next hvoid =>
    rw [if_pos hvoid] at h
    exact (h.resolve_right (Nat.lt_irrefl _)).2
  · next hvoid =>
    rw [if_neg hvoid] at h
    cases spans with
    | nil =>
      intro t ht
      obtain rfl := Option.some.inj ht
      exact hput
    | cons last rest =>
      dsimp only at h ⊢
      split
      · next hsame =>
        intro t ht
        obtain rfl := Option.some.inj ht
        exact hsame.2 ▸ hput
      · next hsame =>
        rw [if_neg hsame] at h
        split
        · next hmerge =>
          rw [if_pos hmerge] at h
          have hlast : 0 ≤ last.count :=
            (h.resolve_right (by simp only [List.length_cons]; omega)).2 last rfl
          intro t ht
          obtain rfl := Option.some.inj ht
          exact Int.add_nonneg hlast hput
        · intro t ht
          obtain rfl := Option.some.inj ht
          exact hput

/-- What the walk over the rests of two changes finds, behind the spans found so far: the first
change is done, and then the second. -/
structure Composed (I : Reading α β) (as bs : List (Rest α)) (spans out : List (Span α)) :
    Prop where
  sound : ∀ s ∈ out, I.Sound s
  length : sumBy Span.length out
    = sumBy Span.length spans + sumBy (fun a => a.first.length) as
  volume : sumBy Span.volume out ≤ sumBy Span.volume spans
    + (sumBy (fun a => a.count.toNat) as + sumBy (fun b => b.remainder.toNat) bs)
  run : ∀ doc, sumBy Span.length spans + sumBy (fun a => a.first.length) as ≤ doc.length →
    I.run out doc = I.run spans.reverse doc
      ++ I.run (bs.map Rest.second)
          (I.run (as.map Rest.first) (doc.drop (sumBy Span.length spans)))

/-- One move of the walk: a span is found, and less is left of the changes. -/
theorem Composed.move {as bs as' bs' : List (Rest α)} {spans spans' out : List (Span α)}
    {s : Span α} (h : I.Composed as' bs' spans' out) (hpushed : I.Pushed spans s spans')
    (hlength : sumBy (fun a => a.first.length) as
      = s.length + sumBy (fun a => a.first.length) as')
    (hvolume : s.volume + (sumBy (fun a => a.count.toNat) as'
        + sumBy (fun b => b.remainder.toNat) bs')
      ≤ sumBy (fun a => a.count.toNat) as + sumBy (fun b => b.remainder.toNat) bs)
    (hrun : ∀ doc, sumBy (fun a => a.first.length) as ≤ doc.length →
      I.run (bs.map Rest.second) (I.run (as.map Rest.first) doc)
        = I.step s doc ++ I.run (bs'.map Rest.second)
            (I.run (as'.map Rest.first) (doc.drop s.length))) :
    I.Composed as bs spans out where
  sound := h.sound
  length := by
    rw [h.length, hpushed.length, hlength]
    omega
  volume := by
    have := h.volume
    rw [hpushed.volume] at this
    omega
  run doc hdoc := by
    have hrest : sumBy (fun a => a.first.length) as
        ≤ (doc.drop (sumBy Span.length spans)).length := by
      rw [List.length_drop]
      omega
    rw [h.run doc (by rw [hpushed.length]; omega), hpushed.run, hrun _ hrest, hpushed.length,
      List.append_assoc, List.drop_drop]

/-- There is nothing left. -/
theorem Composed.done {spans : List (Span α)} (hspans : ∀ s ∈ spans, I.Sound s) :
    I.Composed [] [] spans spans.reverse where
  sound s hs := hspans s (List.mem_reverse.mp hs)
  length := by rw [sumBy_reverse, sumBy_nil, Nat.add_zero]
  volume := by
    rw [sumBy_reverse]
    exact Nat.le_add_right _ _
  run doc _ := (List.append_nil _).symm

section Walk

variable {a b : Rest α} {as bs : List (Rest α)} {spans spans' out : List (Span α)}

/-- Nothing of a deletion was passed. -/
theorem First.passed_eq_zero (ha : I.First a) (hzero : a.count = 0) : a.passed = 0 := by
  by_contra h
  have := ha.left (by omega) (Nat.pos_of_ne_zero h)
  omega

/-- A deletion of the first change goes through as it is. -/
theorem Composed.deletion (h : I.Composed as bs spans' out) (ha : I.First a) (hzero : a.count = 0)
    (hpushed : I.Pushed spans ⟨a.length, 0, Insertion.empty⟩ spans') :
    I.Composed (a :: as) bs spans out := by
  have hpassed := ha.passed_eq_zero hzero
  have hlength : a.first.length = a.length := if_neg fun h => Nat.ne_of_gt h.2 hpassed
  have hcontent : I.content a.text (a.passed + a.count.toNat) = [] := by
    have hproper := ha.proper (Int.le_of_eq hzero.symm)
    rw [hpassed, hzero] at hproper ⊢
    exact content_zero hproper
  refine h.move hpushed ?_ ?_ fun doc _ => ?_
  · rw [sumBy_cons, hlength]
  · rw [sumBy_cons, hzero]
    simp only [Span.volume]
    omega
  · rw [List.map_cons, run_cons, step_first_put ha (Int.le_of_eq hzero.symm), hcontent, hlength,
      List.drop_nil, List.nil_append]
    have hnothing : I.step ⟨a.length, 0, Insertion.empty⟩ doc = [] :=
      (step_put (Int.le_refl 0) doc).trans content_empty
    rw [hnothing, List.nil_append]

/-- Nothing of an insertion was passed. -/
theorem Second.insertion (hb : I.Second b) (hzero : b.length = 0) :
    b.passed = 0 ∧ 0 ≤ b.count ∧ b.remainder = b.count ∧ b.second = ⟨0, b.count, b.text⟩ := by
  have hpassed : b.passed = 0 := by
    by_contra h
    have := hb.left (Nat.pos_of_ne_zero h)
    omega
  have hput : 0 ≤ b.count := by
    by_contra h
    have := hb.kept (by omega)
    omega
  have hremainder : b.remainder = b.count := by
    rw [remainder_of_put hput, if_pos hpassed]
  refine ⟨hpassed, hput, hremainder, ?_⟩
  rw [Rest.second, hzero, hremainder, if_pos hpassed]

/-- An insertion of the second change goes through as it is. -/
theorem Composed.insertion (h : I.Composed as bs spans' out) (hb : I.Second b)
    (hzero : b.length = 0) (hpushed : I.Pushed spans ⟨0, b.count, b.text⟩ spans') :
    I.Composed as (b :: bs) spans out := by
  obtain ⟨hpassed, hput, hremainder, hsecond⟩ := hb.insertion hzero
  refine h.move hpushed (Nat.zero_add _).symm ?_ fun doc _ => ?_
  · rw [sumBy_cons, hremainder]
    simp only [Span.volume]
    omega
  · have hstep : ∀ xs : List β, I.step ⟨0, b.count, b.text⟩ xs = I.content b.text b.count.toNat :=
      fun xs => step_put hput xs
    rw [List.map_cons, run_cons, hsecond, hstep, hstep]
    rfl

/-- What comes next after a meeting is joined to it only if the rest of a replaced run comes. -/
theorem pending_forward {len : Nat} (ha : I.First a) (hlen : len ≤ a.newLength) (hpos : 0 < len)
    (hopen : Change.staysOpen len a b = true) :
    (0 ≤ a.count ∨ 0 ≤ b.count)
      ∧ Pending (Rest.forwardNew len (a :: as)) (Rest.forward len (b :: bs)) := by
  have hsmall := ha.small
  have hword := signedWord_of_lt (Nat.lt_of_le_of_lt hlen hsmall)
  have hcases : (len : Int) < a.count ∨ (0 ≤ b.count ∧ len < b.length) := by
    simpa [Change.staysOpen, hword] using hopen
  rcases hcases with hleft | ⟨hput, hleft⟩
  · refine ⟨Or.inl (by omega), Or.inl ?_⟩
    rw [Rest.forwardNew, if_neg (count_ne_keptMark (by omega)), hword, if_neg (by omega)]
    refine ⟨_, rfl, ?_, ?_⟩
    · dsimp only
      omega
    · dsimp only
      omega
  · refine ⟨Or.inr hput, Or.inr ?_⟩
    rw [Rest.forward, if_neg (by omega)]
    exact ⟨_, rfl, hput, by dsimp only; omega⟩

theorem fit_deletion (n : Nat) : I.Fit ⟨n, 0, Insertion.empty⟩ :=
  ⟨show Span.keptMark ≤ 0 by decide, I.empty⟩

theorem Second.fit_text (hb : I.Second b) (n : Nat) : I.Fit ⟨n, b.count, b.text⟩ :=
  ⟨hb.mark, hb.proper⟩

/-- The moves of the walk find spans that do what the first change does and then what the second
does. Runs of one kind do not come to stand next to each other: what is joined is the rest of a
replaced run, which is put to a replaced run. -/
theorem composed_of_moves {joined : Bool} (h : Change.Moves as bs joined spans out)
    (ha : ∀ a ∈ as, I.First a) (hb : ∀ b ∈ bs, I.Second b) (hspans : ∀ s ∈ spans, I.Sound s)
    (hjoined : joined = true → Pending as bs ∧ HeadPut spans) :
    I.Composed as bs spans out ∧ (Span.Separate spans → Span.Separate out) := by
  have hmarked : ∀ {spans : List (Span α)}, (∀ s ∈ spans, I.Sound s) → ∀ s ∈ spans, s.Marked :=
    fun hspans s hs => (hspans s hs).marked
  induction h with
  | done => exact ⟨Composed.done hspans, fun hsep => hsep.reverse⟩
  | @deletion a as bs joined spans out hzero _ ih =>
    obtain ⟨hahead, has⟩ := List.forall_mem_cons.mp ha
    have hfit : I.Fit ⟨a.length, 0, Insertion.empty⟩ := fit_deletion a.length
    have hput : joined = true → 0 ≤ (0 : Int) ∧ HeadPut spans := fun hj =>
      ⟨Int.le_refl 0, (hjoined hj).2⟩
    have hpushed := push_spec hspans hfit hput
    obtain ⟨hcomposed, hseparate⟩ := ih has hb hpushed.sound fun hj =>
      ⟨Or.inr ((hjoined hj).1.of_deletion hzero),
        HeadPut.push (Int.le_refl 0) (Or.inl ⟨hj, (hjoined hj).2⟩)⟩
    exact ⟨hcomposed.deletion hahead hzero hpushed, fun hsep => hseparate
      ((Span.pushing _ _ _).separate hsep (hmarked hspans) hfit.mark hput)⟩
  | @insertion as b bs joined spans out _ hzero _ ih =>
    obtain ⟨hbhead, hbs⟩ := List.forall_mem_cons.mp hb
    obtain ⟨hpassed, hcount, -, -⟩ := hbhead.insertion hzero
    have hfit : I.Fit ⟨0, b.count, b.text⟩ := hbhead.fit_text 0
    have hput : joined = true → 0 ≤ b.count ∧ HeadPut spans := fun hj =>
      ⟨hcount, (hjoined hj).2⟩
    have hpushed := push_spec hspans hfit hput
    obtain ⟨hcomposed, hseparate⟩ := ih ha hbs hpushed.sound fun hj =>
      ⟨Or.inl ((hjoined hj).1.of_insertion hpassed),
        HeadPut.push hcount (Or.inl ⟨hj, (hjoined hj).2⟩)⟩
    exact ⟨hcomposed.insertion hbhead hzero hpushed, fun hsep => hseparate
      ((Span.pushing _ _ _).separate hsep (hmarked hspans) hfit.mark hput)⟩
  | @meeting a as b bs joined spans out len _ _ hlen hpos _ ih =>
    obtain ⟨hahead, has⟩ := List.forall_mem_cons.mp ha
    obtain ⟨hbhead, hbs⟩ := List.forall_mem_cons.mp hb
    have hlenA : len ≤ a.newLength := hlen ▸ Nat.min_le_left _ _
    have hlenB : len ≤ b.length := hlen ▸ Nat.min_le_right _ _
    -- What is joined is the rest of a replaced run of one of the changes, so that the span of the
    -- meeting is a replaced one too.
    have hopen : joined = true → 0 ≤ a.count ∨ 0 ≤ b.count := by
      intro hj
      rcases (hjoined hj).1 with ⟨a', ha', hopen, -⟩ | ⟨b', hb', hopen, -⟩
      · obtain rfl := Option.some.inj ha'
        exact Or.inl (Int.le_of_lt hopen)
      · obtain rfl := Option.some.inj hb'
        exact Or.inr hopen
    have hfit := fit_meet hahead hbhead hlenA
    have hput : joined = true → 0 ≤ (Change.meet len a b).count ∧ HeadPut spans := fun hj =>
      ⟨count_meet hahead hbhead hlenA (hopen hj), (hjoined hj).2⟩
    have hpushed := push_spec hspans hfit hput
    obtain ⟨-, -, hasOld, hasVolume⟩ :=
      hahead.marked.forwardNew (fun r hr => (has r hr).marked) hpos hlenA
    have hbsVolume := Rest.remainder_forward b bs hpos
    have hvolume := Change.volume_meet_le hahead.marked hbhead.marked hlenA
    obtain ⟨hcomposed, hseparate⟩ := ih (hahead.forwardNew has hlenA) (hbhead.forward hbs hlenB)
      hpushed.sound (by
        intro hj
        rw [Bool.and_eq_true, Bool.or_eq_true, decide_eq_true_eq] at hj
        obtain ⟨hput', hpending⟩ := pending_forward hahead hlenA hpos hj.1
        refine ⟨hpending, HeadPut.push (count_meet hahead hbhead hlenA hput') ?_⟩
        exact hj.2.imp (fun hj => ⟨hj, (hjoined hj).2⟩) id)
    refine ⟨hcomposed.move hpushed ?_ (by omega) fun doc hdoc => ?_, fun hsep => hseparate
      ((Span.pushing _ _ _).separate hsep (hmarked hspans) hfit.mark hput)⟩
    · rw [Change.length_meet hahead.marked]
      omega
    · rw [sumBy_cons] at hdoc
      exact run_meet hahead hbhead hpos hlenA hlenB (by omega)

end Walk

section AndThen

variable {c d : Change α}

/-- A kept run that changes are made of has characters. -/
theorem Sound.length_pos {s : Span α} (h : I.Sound s) (hkept : s.count < 0) : 0 < s.length := by
  have hvoid := h.not_void
  rw [Span.isVoid_eq_false_iff] at hvoid
  omega

theorem Sound.first {s : Span α} (h : I.Sound s) (hsmall : s.newLength < signBound) :
    I.First (Rest.ofSpan s) where
  mark := h.mark
  kept := h.length_pos
  proper _ := by
    show I.Proper s.text (0 + s.count.toNat)
    rw [Nat.zero_add]
    exact h.proper
  left _ hopen := absurd hopen (Nat.lt_irrefl 0)
  small := by
    rw [newLength_ofSpan]
    exact hsmall

theorem Sound.second {s : Span α} (h : I.Sound s) : I.Second (Rest.ofSpan s) where
  mark := h.mark
  kept := h.length_pos
  proper := h.proper
  left hopen := absurd hopen (Nat.lt_irrefl 0)

theorem second_ofSpan {s : Span α} : (Rest.ofSpan s).second = s := by
  rw [Rest.second, remainder_ofSpan]
  rfl

theorem run_map_second (ss : List (Span α)) (doc : List β) :
    I.run ((ss.map Rest.ofSpan).map Rest.second) doc = I.run ss doc := by
  rw [List.map_map]
  congr 1
  exact (List.map_congr_left fun s _ => second_ofSpan).trans (List.map_id ss)

theorem run_map_first {ss : List (Span α)} (h : ∀ s ∈ ss, I.First (Rest.ofSpan s))
    (doc : List β) : I.run ((ss.map Rest.ofSpan).map Rest.first) doc = I.run ss doc := by
  induction ss generalizing doc with
  | nil => rfl
  | cons s ss ih =>
    rw [List.forall_mem_cons] at h
    have hstep : I.step (Rest.ofSpan s).first doc = I.step s doc := by
      by_cases hkept : s.count < 0
      · exact (step_first_kept hkept doc).trans (step_kept hkept doc).symm
      · have hput : 0 ≤ s.count := Int.not_lt.mp hkept
        refine (step_first_put h.1 hput doc).trans ?_
        rw [step_put hput]
        show (I.content s.text (0 + s.count.toNat)).drop 0 = _
        rw [Nat.zero_add, List.drop_zero]
    rw [List.map_cons, List.map_cons, run_cons, run_cons, ih h.2, length_first_ofSpan, hstep]

/-- A change that keeps the whole document leaves it as it is. -/
theorem run_of_isEmpty (h : c.isEmpty = true) {doc : List β} (hdoc : doc.length = c.length) :
    I.run c.spans doc = doc := by
  rw [Change.length] at hdoc
  obtain hspans | ⟨s, hspans, hkept⟩ := Change.spans_of_isEmpty h
  · rw [hspans] at hdoc ⊢
    exact (List.eq_nil_of_length_eq_zero hdoc).symm
  · rw [hspans, sumBy_cons, sumBy_nil, Nat.add_zero] at hdoc
    rw [hspans, run_cons, run_nil, List.append_nil, step_kept hkept, ← hdoc, List.take_length]

/-- What is left of the changes at the start of a walk. -/
theorem first_of_sound (hc : ∀ s ∈ c.spans, I.Sound s)
    (hsmall : ∀ s ∈ c.spans, s.newLength < signBound) :
    ∀ a ∈ c.spans.map Rest.ofSpan, I.First a := by
  intro a ha
  obtain ⟨s, hs, rfl⟩ := List.mem_map.mp ha
  exact (hc s hs).first (hsmall s hs)

theorem second_of_sound (hd : ∀ s ∈ d.spans, I.Sound s) :
    ∀ b ∈ d.spans.map Rest.ofSpan, I.Second b := by
  intro b hb
  obtain ⟨s, hs, rfl⟩ := List.mem_map.mp hb
  exact (hd s hs).second

/-- Of two changes that meet in one document, one that keeps everything is left out; otherwise what
results is found by moves. -/
theorem andThen_moves (hc : ∀ s ∈ c.spans, I.Sound s) (hd : ∀ s ∈ d.spans, I.Sound s)
    (hsmall : ∀ s ∈ c.spans, s.newLength < signBound) (hfits : c.newLength = d.length) :
    (c.isEmpty = true ∧ c.andThen d = .ok d) ∨ (d.isEmpty = true ∧ c.andThen d = .ok c)
      ∨ ∃ out, c.andThen d = .ok ⟨out⟩ ∧ Change.Moves (c.spans.map Rest.ofSpan)
          (d.spans.map Rest.ofSpan) false [] out :=
  Change.andThen_moves (fun s hs => (hc s hs).marked) (fun s hs => (hd s hs).marked)
    (fun _ hs => (first_of_sound hc hsmall _ (List.mem_map_of_mem hs)).marked.small) hfits

/-- Two changes that meet in one document can be put behind each other. What results does what the
first does and then what the second does, and inserts no more than both. -/
theorem andThen_spec (hc : ∀ s ∈ c.spans, I.Sound s) (hd : ∀ s ∈ d.spans, I.Sound s)
    (hsmall : ∀ s ∈ c.spans, s.newLength < signBound) (hfits : c.newLength = d.length) :
    ∃ e, c.andThen d = .ok e ∧ (∀ s ∈ e.spans, I.Sound s) ∧ e.length = c.length
      ∧ e.volume ≤ c.volume + d.volume
      ∧ ∀ doc, doc.length = c.length → I.run e.spans doc = I.run d.spans (I.run c.spans doc) := by
  -- A change that keeps everything leaves the other as it is; only without one is the walk taken.
  obtain ⟨hempty, he⟩ | ⟨hempty, he⟩ | ⟨out, he, hmoves⟩ := andThen_moves hc hd hsmall hfits
  · rw [Change.newLength_of_isEmpty hempty] at hfits
    refine ⟨d, he, hd, hfits.symm, Nat.le_add_left _ _, ?_⟩
    intro doc hdoc
    rw [run_of_isEmpty hempty hdoc]
  · refine ⟨c, he, hc, rfl, Nat.le_add_right _ _, ?_⟩
    intro doc hdoc
    rw [run_of_isEmpty hempty ((length_run hc hdoc).trans hfits)]
  · have hfirst := first_of_sound hc hsmall
    obtain ⟨hcomposed, -⟩ := composed_of_moves hmoves hfirst (second_of_sound hd) (by simp)
      fun hj => by cases hj
    have hlength := hcomposed.length
    have hvolume := hcomposed.volume
    rw [sumBy_nil, Nat.zero_add, sumBy_length_first] at hlength
    refine ⟨⟨out⟩, he, hcomposed.sound, hlength, ?_, fun doc hdoc => ?_⟩
    · rw [sumBy_nil, Nat.zero_add, sumBy_map, sumBy_remainder] at hvolume
      exact hvolume
    · have hrun := hcomposed.run doc (by
        rw [sumBy_nil, Nat.zero_add, sumBy_length_first]
        exact Nat.le_of_eq hdoc.symm)
      rw [run_map_second, run_map_first fun s hs => hfirst _ (List.mem_map_of_mem hs)] at hrun
      exact hrun

/-- One change in normal form behind another gives one in normal form. -/
theorem normal_andThen {e : Change α} (hc : ∀ s ∈ c.spans, I.Sound s)
    (hd : ∀ s ∈ d.spans, I.Sound s) (hsmall : ∀ s ∈ c.spans, s.newLength < signBound)
    (hcnormal : Span.Normal c.spans) (hdnormal : Span.Normal d.spans) (h : c.andThen d = .ok e) :
    Span.Normal e.spans := by
  have hfits : c.newLength = d.length := Change.fits_of_andThen h
  obtain ⟨-, he⟩ | ⟨-, he⟩ | ⟨out, he, hmoves⟩ := andThen_moves hc hd hsmall hfits
  · exact Except.ok.inj (he.symm.trans h) ▸ hdnormal
  · exact Except.ok.inj (he.symm.trans h) ▸ hcnormal
  · obtain rfl := Except.ok.inj (he.symm.trans h)
    obtain ⟨hcomposed, hseparate⟩ := composed_of_moves hmoves (first_of_sound hc hsmall)
      (second_of_sound hd) (by simp) fun hj => by cases hj
    exact ⟨fun s hs => (hcomposed.sound s hs).marked, hseparate List.isChain_nil⟩

/-- What results has the new length of the second change. -/
theorem newLength_andThen {e : Change α} (hc : ∀ s ∈ c.spans, I.Sound s)
    (hd : ∀ s ∈ d.spans, I.Sound s) (he : ∀ s ∈ e.spans, I.Sound s)
    (hfits : c.newLength = d.length) (hlength : e.length = c.length) {doc : List β}
    (hdoc : doc.length = c.length)
    (hrun : I.run e.spans doc = I.run d.spans (I.run c.spans doc)) :
    e.newLength = d.newLength := by
  have hc' := length_run hc hdoc
  have he' := length_run he (hdoc.trans hlength.symm)
  have hd' := length_run hd (hc'.trans hfits)
  rw [hrun, hd'] at he'
  exact he'.symm

end AndThen

end Reading

end TextRevision
