import TextRevision.Proofs.Change.Tokens

/-!
# Scripts of two changes

Where an earlier change and a later one of the same sequence do not touch the same items, what both
do is told by one script, event by event. The tokens of both changes can be read off it, those of
the later one rebased over the earlier one, and those of the two put behind each other.

At one place the insertions of the earlier change come first, then those of the later one, and then
what takes the place of items. A script is orderly if it tells them so, and if no insertion of the
later change comes right before items that the earlier one removes. Then the changes tell of every
event whose turn it is.

## Main definitions

- `Event`, with `Event.earlier`, `Event.later`, `Event.rebased`, `Event.both`
- `Event.Orderly`

## Main statements

- `Event.exists_puts_true`, `Event.exists_drops`, `Event.exists_latePuts` and others: what the next
  tokens say of a script
-/

namespace TextRevision

variable {β : Type}

/-- What an earlier and a later change do at a place of a sequence. -/
inductive Event (β : Type) where
  /-- Both keep an item. -/
  | keep
  /-- The earlier change removes an item. -/
  | drop
  /-- The later change removes an item. -/
  | lateDrop
  /-- The earlier change inserts an item. -/
  | put (replacing : Bool) (x : β)
  /-- The later change inserts an item. -/
  | latePut (replacing : Bool) (x : β)

namespace Event

/-- What the earlier change tells of an event. -/
def earlier : Event β → List (Token β)
  | keep => [.pass true]
  | drop => [.pass false]
  | lateDrop => [.pass true]
  | put replacing x => [.put replacing x]
  | latePut _ _ => []

/-- What the later change tells of an event. -/
def later : Event β → List (Token β)
  | keep => [.pass true]
  | drop => [.pass true]
  | lateDrop => [.pass false]
  | put _ _ => []
  | latePut replacing x => [.put replacing x]

/-- What the later change tells of an event when it is rebased over the earlier one. -/
def rebased : Event β → List (Token β)
  | keep => [.pass true]
  | drop => []
  | lateDrop => [.pass false]
  | put _ _ => [.pass true]
  | latePut replacing x => [.put replacing x]

/-- What both changes, put behind each other, tell of an event. -/
def both : Event β → List (Token β)
  | keep => [.pass true]
  | drop => [.pass false]
  | lateDrop => [.pass false]
  | put replacing x => [.put replacing x]
  | latePut replacing x => [.put replacing x]

section Projections

variable (r : Bool) (xs : List β)

@[simp] theorem earlier_puts : (xs.map (put r)).flatMap earlier = xs.map (.put r) := by
  rw [List.flatMap_map, List.map_eq_flatMap]
  rfl

@[simp] theorem later_puts : (xs.map (put r)).flatMap later = [] := by
  simp [List.flatMap_map, later]

@[simp] theorem rebased_puts :
    (xs.map (put r)).flatMap rebased = List.replicate xs.length (.pass true) := by
  rw [List.flatMap_map, ← List.map_const', List.map_eq_flatMap]
  rfl

@[simp] theorem both_puts : (xs.map (put r)).flatMap both = xs.map (.put r) := by
  rw [List.flatMap_map, List.map_eq_flatMap]
  rfl

@[simp] theorem earlier_latePuts : (xs.map (latePut r)).flatMap earlier = [] := by
  simp [List.flatMap_map, earlier]

@[simp] theorem later_latePuts : (xs.map (latePut r)).flatMap later = xs.map (.put r) := by
  rw [List.flatMap_map, List.map_eq_flatMap]
  rfl

@[simp] theorem rebased_latePuts : (xs.map (latePut r)).flatMap rebased = xs.map (.put r) := by
  rw [List.flatMap_map, List.map_eq_flatMap]
  rfl

@[simp] theorem both_latePuts : (xs.map (latePut r)).flatMap both = xs.map (.put r) := by
  rw [List.flatMap_map, List.map_eq_flatMap]
  rfl

end Projections

/-- Whether one event may come right before another. -/
def Allows : Event β → Event β → Prop
  | latePut false _, drop => False
  | latePut false _, put false _ => False
  | latePut true _, latePut true _ => True
  | latePut true _, lateDrop => True
  | latePut true _, _ => False
  | put true _, put true _ => True
  | put true _, drop => True
  | put true _, _ => False
  | _, _ => True

/-- A script with its events in order. -/
def Orderly (s : List (Event β)) : Prop :=
  s.IsChain Allows

variable {s t : List (Event β)} {e : Event β}

theorem Orderly.tail (h : Orderly (e :: s)) : Orderly s :=
  List.IsChain.of_cons h

theorem Orderly.right (h : Orderly (s ++ t)) : Orderly t :=
  (List.isChain_append.mp h).2.1

theorem Orderly.allows {e' : Event β} (h : Orderly (e :: e' :: s)) : e.Allows e' :=
  (List.isChain_cons_cons.mp h).1

/-- A run of events that may come before each other and before what comes next. -/
theorem Orderly.append_run {γ : Type} {e : γ → Event β} {cs : List γ} (h : Orderly s)
    (hself : ∀ c c', (e c).Allows (e c'))
    (hnext : ∀ c ∈ cs, ∀ e' ∈ s.head?, (e c).Allows e') : Orderly (cs.map e ++ s) := by
  induction cs with
  | nil => exact h
  | cons c cs ih =>
    obtain ⟨hc, hcs⟩ := List.forall_mem_cons.mp hnext
    rw [List.map_cons, List.cons_append, Orderly, List.isChain_cons]
    refine ⟨fun e' he' => ?_, ih hcs⟩
    cases cs with
    | nil => exact hc e' he'
    | cons c' cs =>
      obtain rfl := Option.some.inj he'
      exact hself c c'

section Next

variable {r : Bool} {x : β} {ts us : List (Token β)}

/-- Where the earlier change removes an item, it is its turn. -/
theorem exists_drop (h : Orderly s) (hs : s.flatMap earlier = .pass false :: ts) :
    ∃ s', s = drop :: s' := by
  induction s with
  | nil => cases hs
  | cons e s ih =>
    cases e with
    | keep => cases hs
    | drop => exact ⟨s, rfl⟩
    | lateDrop => cases hs
    | put r x => cases hs
    | latePut r x =>
      obtain ⟨s', rfl⟩ := ih h.tail hs
      have hallows := h.allows
      cases r <;> cases hallows

/-- Insertions of the earlier change come before all others. -/
theorem exists_put_false (h : Orderly s) (hs : s.flatMap earlier = .put false x :: ts) :
    ∃ s', s = put false x :: s' := by
  induction s with
  | nil => cases hs
  | cons e s ih =>
    cases e with
    | keep => cases hs
    | drop => cases hs
    | lateDrop => cases hs
    | put r y =>
      obtain ⟨⟨rfl, rfl⟩, -⟩ : (r = false ∧ y = x) ∧ _ := by simpa [earlier] using hs
      exact ⟨s, rfl⟩
    | latePut r y =>
      obtain ⟨s', rfl⟩ := ih h.tail hs
      have hallows := h.allows
      cases r <;> cases hallows

/-- Behind an insertion of the earlier change that takes the place of items, the later change keeps
an item, if there is one. -/
theorem later_of_put_true (h : Orderly (put true x :: s)) (r : Bool) (y : β)
    (ts : List (Token β)) : s.flatMap later ≠ .put r y :: ts := by
  induction s generalizing x with
  | nil => rintro ⟨⟩
  | cons e s ih =>
    have hallows := h.allows
    cases e with
    | keep => cases hallows
    | drop => rintro ⟨⟩
    | lateDrop => cases hallows
    | put r' z =>
      cases r' with
      | false => cases hallows
      | true => exact ih h.tail
    | latePut r' z => cases hallows

/-- Behind an insertion of the later change that takes the place of items, the earlier change keeps
an item, if there is one. -/
theorem earlier_of_latePut_true (h : Orderly (latePut true x :: s)) {t : Token β}
    (hs : s.flatMap earlier = t :: ts) : t = .pass true := by
  induction s generalizing x with
  | nil => cases hs
  | cons e s ih =>
    have hallows := h.allows
    cases e with
    | keep => cases hallows
    | drop => cases hallows
    | lateDrop =>
      cases hs
      rfl
    | put r y => cases hallows
    | latePut r y =>
      cases r with
      | false => cases hallows
      | true => exact ih h.tail hs

/-- An insertion of the later change comes before all of the earlier one but those that take no
items' place. -/
theorem exists_latePut (h : Orderly s) (hs : s.flatMap later = .put r x :: ts)
    (hother : ∀ y us, s.flatMap earlier ≠ .put false y :: us) : ∃ s', s = latePut r x :: s' := by
  cases s with
  | nil => cases hs
  | cons e s =>
    cases e with
    | keep => cases hs
    | drop => cases hs
    | lateDrop => cases hs
    | put r' y =>
      cases r' with
      | false => exact absurd rfl (hother y _)
      | true => exact absurd hs (later_of_put_true h r x ts)
    | latePut r' y =>
      obtain ⟨⟨rfl, rfl⟩, -⟩ : (r' = r ∧ y = x) ∧ _ := by simpa [later] using hs
      exact ⟨s, rfl⟩

/-- An item that the later change does not pass is one of its insertions. -/
theorem exists_latePut_rebased (hs : s.flatMap rebased = .put r x :: ts)
    (hother : ∀ us, s.flatMap earlier ≠ .pass false :: us) : ∃ s', s = latePut r x :: s' := by
  cases s with
  | nil => cases hs
  | cons e s =>
    cases e with
    | keep => cases hs
    | drop => exact absurd rfl (hother _)
    | lateDrop => cases hs
    | put r' y => cases hs
    | latePut r' y =>
      obtain ⟨⟨rfl, rfl⟩, -⟩ : (r' = r ∧ y = x) ∧ _ := by simpa [rebased] using hs
      exact ⟨s, rfl⟩

/-- An insertion of the earlier change in the place of items, where none of the later change comes
next. -/
theorem exists_put_true (hs : s.flatMap earlier = .put true x :: ts)
    (hother : ∀ r y us, s.flatMap later ≠ .put r y :: us) : ∃ s', s = put true x :: s' := by
  cases s with
  | nil => cases hs
  | cons e s =>
    cases e with
    | keep => cases hs
    | drop => cases hs
    | lateDrop => cases hs
    | put r' y =>
      obtain ⟨⟨rfl, rfl⟩, -⟩ : (r' = true ∧ y = x) ∧ _ := by simpa [earlier] using hs
      exact ⟨s, rfl⟩
    | latePut r' y => exact absurd rfl (hother r' y _)

/-- An insertion of the earlier change that the later one passes. -/
theorem exists_put_passed {k : Bool} (hs : s.flatMap earlier = .put r x :: ts)
    (hs' : s.flatMap rebased = .pass k :: us) : ∃ s', s = put r x :: s' := by
  cases s with
  | nil => cases hs
  | cons e s =>
    cases e with
    | keep => cases hs
    | drop => cases hs
    | lateDrop => cases hs
    | put r' y =>
      obtain ⟨⟨rfl, rfl⟩, -⟩ : (r' = r ∧ y = x) ∧ _ := by simpa [earlier] using hs
      exact ⟨s, rfl⟩
    | latePut r' y => cases hs'

/-- Both changes keep an item. -/
theorem exists_keep (hs : s.flatMap earlier = .pass true :: ts)
    (hs' : s.flatMap later = .pass true :: us) : ∃ s', s = keep :: s' := by
  cases s with
  | nil => cases hs
  | cons e s =>
    cases e with
    | keep => exact ⟨s, rfl⟩
    | drop => cases hs
    | lateDrop => cases hs'
    | put r y => cases hs
    | latePut r y => cases hs'

theorem exists_keep_rebased (hs : s.flatMap earlier = .pass true :: ts)
    (hs' : s.flatMap rebased = .pass true :: us) : ∃ s', s = keep :: s' := by
  cases s with
  | nil => cases hs
  | cons e s =>
    cases e with
    | keep => exact ⟨s, rfl⟩
    | drop => cases hs
    | lateDrop => cases hs'
    | put r y => cases hs
    | latePut r y => cases hs'

/-- The later change removes an item that the earlier one passes. -/
theorem exists_lateDrop {k : Bool} (hs : s.flatMap earlier = .pass k :: ts)
    (hs' : s.flatMap later = .pass false :: us) : ∃ s', s = lateDrop :: s' := by
  cases s with
  | nil => cases hs
  | cons e s =>
    cases e with
    | keep => cases hs'
    | drop => cases hs'
    | lateDrop => exact ⟨s, rfl⟩
    | put r y => cases hs
    | latePut r y => cases hs'

theorem exists_lateDrop_rebased (hs : s.flatMap earlier = .pass true :: ts)
    (hs' : s.flatMap rebased = .pass false :: us) : ∃ s', s = lateDrop :: s' := by
  cases s with
  | nil => cases hs
  | cons e s =>
    cases e with
    | keep => cases hs'
    | drop => cases hs
    | lateDrop => exact ⟨s, rfl⟩
    | put r y => cases hs
    | latePut r y => cases hs'

end Next

section Runs

variable {γ : Type} {f g : Event β → List (Token β)}

/-- A run of events of one kind is found one by one. -/
theorem exists_run {P : List (Event β) → Prop} {e : γ → Event β} {t : γ → Token β}
    (hf : ∀ c, f (e c) = [t c])
    (hstep : ∀ s c ts, P s → s.flatMap f = t c :: ts → ∃ s', s = e c :: s' ∧ P s') (cs : List γ)
    {ts : List (Token β)} (hP : P s) (hs : s.flatMap f = cs.map t ++ ts) :
    ∃ s', s = cs.map e ++ s' ∧ P s' ∧ s'.flatMap f = ts := by
  induction cs generalizing s with
  | nil => exact ⟨s, rfl, hP, hs⟩
  | cons c cs ih =>
    obtain ⟨s', rfl, hP'⟩ := hstep s c _ hP hs
    rw [List.flatMap_cons, hf] at hs
    obtain ⟨s'', rfl, hdone⟩ := ih hP' (List.cons.inj hs).2
    exact ⟨s'', rfl, hdone⟩

/-- A run of events that two changes tell of in step. -/
theorem exists_run_both {e : γ → Event β} {t : γ → Token β} {u : Token β}
    (hf : ∀ c, f (e c) = [t c]) (hg : ∀ c, g (e c) = [u])
    (hstep : ∀ s c ts us, s.flatMap f = t c :: ts → s.flatMap g = u :: us → ∃ s', s = e c :: s')
    (cs : List γ) {ts us : List (Token β)} (hs : s.flatMap f = cs.map t ++ ts)
    (hs' : s.flatMap g = List.replicate cs.length u ++ us) :
    ∃ s', s = cs.map e ++ s' ∧ s'.flatMap f = ts ∧ s'.flatMap g = us := by
  induction cs generalizing s with
  | nil => exact ⟨s, rfl, hs, hs'⟩
  | cons c cs ih =>
    obtain ⟨s', rfl⟩ := hstep s c _ _ hs hs'
    rw [List.flatMap_cons, hf] at hs
    rw [List.flatMap_cons, hg] at hs'
    obtain ⟨s'', rfl, hdone⟩ := ih (List.cons.inj hs).2 (List.cons.inj hs').2
    exact ⟨s'', rfl, hdone⟩

/-- A run of events without data that two changes tell of in step. -/
theorem exists_replicate_both {e : Event β} {t u : Token β} (hf : f e = [t]) (hg : g e = [u])
    (hstep : ∀ s ts us, s.flatMap f = t :: ts → s.flatMap g = u :: us → ∃ s', s = e :: s')
    (n : Nat) {ts us : List (Token β)} (hs : s.flatMap f = List.replicate n t ++ ts)
    (hs' : s.flatMap g = List.replicate n u ++ us) :
    ∃ s', s = List.replicate n e ++ s' ∧ s'.flatMap f = ts ∧ s'.flatMap g = us := by
  have hrun := exists_run_both (fun _ : Unit => hf) (fun _ => hg) (fun s _ => hstep s)
    (List.replicate n ()) (by rwa [List.map_replicate]) (by rwa [List.length_replicate])
  rwa [List.map_replicate] at hrun

variable {n : Nat} {xs : List β} {r : Bool} {ts us : List (Token β)}

theorem exists_keeps (hs : s.flatMap earlier = List.replicate n (.pass true) ++ ts)
    (hs' : s.flatMap later = List.replicate n (.pass true) ++ us) :
    ∃ s', s = List.replicate n keep ++ s' ∧ s'.flatMap earlier = ts ∧ s'.flatMap later = us :=
  exists_replicate_both rfl rfl (fun _ _ _ => exists_keep) n hs hs'

theorem exists_keeps_rebased (hs : s.flatMap earlier = List.replicate n (.pass true) ++ ts)
    (hs' : s.flatMap rebased = List.replicate n (.pass true) ++ us) :
    ∃ s', s = List.replicate n keep ++ s' ∧ s'.flatMap earlier = ts ∧ s'.flatMap rebased = us :=
  exists_replicate_both rfl rfl (fun _ _ _ => exists_keep_rebased) n hs hs'

theorem exists_lateDrops (hs : s.flatMap earlier = List.replicate n (.pass true) ++ ts)
    (hs' : s.flatMap later = List.replicate n (.pass false) ++ us) :
    ∃ s', s = List.replicate n lateDrop ++ s' ∧ s'.flatMap earlier = ts ∧ s'.flatMap later = us :=
  exists_replicate_both rfl rfl (fun _ _ _ => exists_lateDrop) n hs hs'

theorem exists_lateDrops_rebased (hs : s.flatMap earlier = List.replicate n (.pass true) ++ ts)
    (hs' : s.flatMap rebased = List.replicate n (.pass false) ++ us) :
    ∃ s', s = List.replicate n lateDrop ++ s' ∧ s'.flatMap earlier = ts
      ∧ s'.flatMap rebased = us :=
  exists_replicate_both rfl rfl (fun _ _ _ => exists_lateDrop_rebased) n hs hs'

/-- Insertions of the earlier change that the later one passes. -/
theorem exists_puts_passed (hs : s.flatMap earlier = xs.map (.put r) ++ ts)
    (hs' : s.flatMap rebased = List.replicate xs.length (.pass true) ++ us) :
    ∃ s', s = xs.map (put r) ++ s' ∧ s'.flatMap earlier = ts ∧ s'.flatMap rebased = us :=
  exists_run_both (fun _ => rfl) (fun _ => rfl) (fun _ _ _ _ => exists_put_passed) xs hs hs'

theorem exists_drops (h : Orderly s)
    (hs : s.flatMap earlier = List.replicate n (.pass false) ++ ts) :
    ∃ s', s = List.replicate n drop ++ s' ∧ s'.flatMap earlier = ts := by
  have hrun := exists_run (P := Orderly) (f := earlier) (e := fun _ : Unit => drop) (fun _ => rfl)
    (fun s _ ts h hs => by
      obtain ⟨s', rfl⟩ := exists_drop h hs
      exact ⟨s', rfl, h.tail⟩) (List.replicate n ()) h (by rwa [List.map_replicate])
  obtain ⟨s', rfl, -, hs'⟩ := hrun
  exact ⟨s', by rw [List.map_replicate], hs'⟩

/-- Insertions of the earlier change that take no items' place. -/
theorem exists_puts_false (h : Orderly s) (hs : s.flatMap earlier = xs.map (.put false) ++ ts) :
    ∃ s', s = xs.map (put false) ++ s' ∧ s'.flatMap earlier = ts := by
  obtain ⟨s', rfl, -, hs'⟩ := exists_run (P := Orderly) (e := put false) (fun _ => rfl)
    (fun s x ts h hs => by
      obtain ⟨s', rfl⟩ := exists_put_false h hs
      exact ⟨s', rfl, h.tail⟩) xs h hs
  exact ⟨s', rfl, hs'⟩

/-- Insertions of the earlier change in the place of items, where none of the later one comes
next. -/
theorem exists_puts_true (hs : s.flatMap earlier = xs.map (.put true) ++ ts)
    (hother : ∀ r y us, s.flatMap later ≠ .put r y :: us) :
    ∃ s', s = xs.map (put true) ++ s' ∧ s'.flatMap earlier = ts := by
  obtain ⟨s', rfl, -, hs'⟩ := exists_run
    (P := fun s => ∀ r y us, s.flatMap later ≠ .put r y :: us) (e := put true) (fun _ => rfl)
    (fun s x ts hother hs => by
      obtain ⟨s', rfl⟩ := exists_put_true hs hother
      exact ⟨s', rfl, hother⟩) xs hother hs
  exact ⟨s', rfl, hs'⟩

/-- Insertions of the later change, where none of the earlier one that takes no items' place comes
next. -/
theorem exists_latePuts (h : Orderly s) (hs : s.flatMap later = xs.map (.put r) ++ ts)
    (hother : ∀ y us, s.flatMap earlier ≠ .put false y :: us) :
    ∃ s', s = xs.map (latePut r) ++ s' ∧ s'.flatMap later = ts := by
  obtain ⟨s', rfl, -, hs'⟩ := exists_run
    (P := fun s => Orderly s ∧ ∀ y us, s.flatMap earlier ≠ .put false y :: us) (e := latePut r)
    (fun _ => rfl) (fun s x ts hs hlater => by
      obtain ⟨s', rfl⟩ := exists_latePut hs.1 hlater hs.2
      exact ⟨s', rfl, hs.1.tail, hs.2⟩) xs ⟨h, hother⟩ hs
  exact ⟨s', rfl, hs'⟩

/-- Insertions of the later change, where no item comes next that the earlier one removes. -/
theorem exists_latePuts_rebased (hs : s.flatMap rebased = xs.map (.put r) ++ ts)
    (hother : ∀ us, s.flatMap earlier ≠ .pass false :: us) :
    ∃ s', s = xs.map (latePut r) ++ s' ∧ s'.flatMap rebased = ts := by
  obtain ⟨s', rfl, -, hs'⟩ := exists_run
    (P := fun s => ∀ us, s.flatMap earlier ≠ .pass false :: us) (e := latePut r) (fun _ => rfl)
    (fun s x ts hother hs => by
      obtain ⟨s', rfl⟩ := exists_latePut_rebased hs hother
      exact ⟨s', rfl, hother⟩) xs hother hs
  exact ⟨s', rfl, hs'⟩

end Runs

/-- The two changes do not both replace the same items. -/
theorem not_both_replaced {xs ys : List β} {ts us : List (Token β)} (h : Orderly s)
    (hs : s.flatMap earlier = xs.map (.put true) ++ .pass false :: ts)
    (hs' : s.flatMap later = ys.map (.put true) ++ .pass false :: us) : False := by
  cases ys with
  | nil =>
    have hother : ∀ r y us, s.flatMap later ≠ .put r y :: us := by
      intro r y us hput
      rw [hs'] at hput
      cases hput
    obtain ⟨s, rfl, hdrop⟩ := exists_puts_true hs hother
    obtain ⟨s, rfl⟩ := exists_drop h.right hdrop
    rw [List.flatMap_append, later_puts] at hs'
    cases hs'
  | cons y ys =>
    have hother : ∀ x ts, s.flatMap earlier ≠ .put false x :: ts := by
      intro x ts hput
      rw [hs] at hput
      cases xs <;> cases hput
    obtain ⟨s, rfl⟩ := exists_latePut h hs' hother
    cases xs with
    | nil => cases earlier_of_latePut_true h hs
    | cons x xs => cases earlier_of_latePut_true h hs

/-- Where the earlier change inserts next, the later one does not replace items. -/
theorem not_put_lateReplaced {x : β} {ys : List β} {ts us : List (Token β)} (h : Orderly s)
    (hs : s.flatMap earlier = .put r x :: ts)
    (hs' : s.flatMap rebased = ys.map (.put true) ++ .pass false :: us) : False := by
  cases ys with
  | nil =>
    obtain ⟨s, rfl⟩ := exists_put_passed hs hs'
    cases hs'
  | cons y ys =>
    have hother : ∀ us, s.flatMap earlier ≠ .pass false :: us := by
      rw [hs]
      rintro _ ⟨⟩
    obtain ⟨s, rfl⟩ := exists_latePut_rebased hs' hother
    cases earlier_of_latePut_true h hs

/-- An insertion of the earlier change that goes on does so before all others. -/
theorem exists_put_again {x y : β} {ts : List (Token β)} (h : Orderly (put r x :: s))
    (hs : s.flatMap earlier = .put r y :: ts) : ∃ s', s = put r y :: s' := by
  cases r with
  | false => exact exists_put_false h.tail hs
  | true =>
    cases s with
    | nil => cases hs
    | cons e s =>
      have hallows := h.allows
      cases e with
      | keep => cases hallows
      | drop => cases hs
      | lateDrop => cases hallows
      | put r z =>
        obtain ⟨⟨rfl, rfl⟩, -⟩ : (r = true ∧ z = y) ∧ _ := by simpa [earlier] using hs
        exact ⟨s, rfl⟩
      | latePut r z => cases hallows

/-- A script of which neither change tells anything has no events. -/
theorem eq_nil_of_earlier_later (hs : s.flatMap earlier = []) (hs' : s.flatMap later = []) :
    s = [] := by
  cases s with
  | nil => rfl
  | cons e s =>
    cases e with
    | keep => cases hs
    | drop => cases hs
    | lateDrop => cases hs
    | put r y => cases hs
    | latePut r y => cases hs'

theorem eq_nil_of_earlier_rebased (hs : s.flatMap earlier = []) (hs' : s.flatMap rebased = []) :
    s = [] := by
  cases s with
  | nil => rfl
  | cons e s =>
    cases e with
    | keep => cases hs
    | drop => cases hs
    | lateDrop => cases hs
    | put r y => cases hs
    | latePut r y => cases hs'

section Kept

variable {n : Nat}

/-- Where the earlier change keeps everything, there is only the later one. -/
theorem later_of_kept (hs : s.flatMap earlier = List.replicate n (.pass true)) :
    s.flatMap rebased = s.flatMap later ∧ s.flatMap both = s.flatMap later := by
  induction s generalizing n with
  | nil => exact ⟨rfl, rfl⟩
  | cons e s ih =>
    rw [List.flatMap_cons] at hs
    cases e with
    | latePut r x =>
      obtain ⟨hrebased, hboth⟩ := ih hs
      exact ⟨congrArg (List.cons (Token.put r x)) hrebased,
        congrArg (List.cons (Token.put r x)) hboth⟩
    | keep =>
      cases n with
      | zero => cases hs
      | succ n =>
        obtain ⟨hrebased, hboth⟩ := ih (List.cons.inj hs).2
        exact ⟨congrArg (List.cons (Token.pass true)) hrebased,
          congrArg (List.cons (Token.pass true)) hboth⟩
    | lateDrop =>
      cases n with
      | zero => cases hs
      | succ n =>
        obtain ⟨hrebased, hboth⟩ := ih (List.cons.inj hs).2
        exact ⟨congrArg (List.cons (Token.pass false)) hrebased,
          congrArg (List.cons (Token.pass false)) hboth⟩
    | drop => cases n <;> cases hs
    | put r x => cases n <;> cases hs

/-- Where the rebased change keeps everything, there is only the earlier one. -/
theorem both_of_rebased_kept (hs : s.flatMap rebased = List.replicate n (.pass true)) :
    s.flatMap both = s.flatMap earlier := by
  induction s generalizing n with
  | nil => rfl
  | cons e s ih =>
    rw [List.flatMap_cons] at hs
    cases e with
    | drop => exact congrArg (List.cons (Token.pass false)) (ih hs)
    | keep =>
      cases n with
      | zero => cases hs
      | succ n => exact congrArg (List.cons (Token.pass true)) (ih (List.cons.inj hs).2)
    | put r x =>
      cases n with
      | zero => cases hs
      | succ n => exact congrArg (List.cons (Token.put r x)) (ih (List.cons.inj hs).2)
    | lateDrop => cases n <;> cases hs
    | latePut r x => cases n <;> cases hs

end Kept

end Event

end TextRevision
