import TextRevision.Change.Walk
import TextRevision.Proofs.Change.Run

/-!
# Merging concurrent changes

Two changes of one sequence are told as acts: insertions at a place, and characters that are passed,
to be kept or not. Merging them makes all the insertions of both and keeps what both keep. Where
both insert at one place, the insertion of lower rank comes first; for equal ranks a flag decides. A
replaced run inserts at its start with a rank one above its length, so that the shorter run comes
first.

## Main definitions

- `Act`, `Act.merge`
- `Act.perform`: what a change makes of a sequence alone
- `Reading.acts`, `Reading.actions`: the acts of what is left of spans, and those of a change

## Main statements

- `Act.merge_comm`: merging is symmetric, with the flag turned over
- `Act.merge_keeping`: merged with one that keeps everything, a change does what it does alone
- `Act.mem_merge`: what is kept of two changes is what both keep
- `Reading.perform_acts`: the acts of spans do what the spans do
-/

namespace TextRevision

variable {α β : Type}

/-- What a change does at a place of a sequence. -/
inductive Act (β : Type) where
  /-- Inserts a sequence, with a rank among the insertions at the place. -/
  | put (rank : Nat) (xs : List β)
  /-- Passes an item. -/
  | pass (kept : Bool)

namespace Act

/-- A run of acts is told in two parts. -/
theorem replicate_eq_append {m n : Nat} (h : m ≤ n) (act : Act β) :
    List.replicate n act = List.replicate m act ++ List.replicate (n - m) act := by
  rw [← List.replicate_add, Nat.add_sub_cancel' h]

/-- Whether an insertion of rank `l` of the second change comes before one of rank `k` of the
first. -/
def Yields (before : Bool) (k l : Nat) : Prop :=
  l < k ∨ (l = k ∧ before = false)

instance (before : Bool) (k l : Nat) : Decidable (Yields before k l) :=
  inferInstanceAs (Decidable (_ ∨ _))

/-- What two changes make of a sequence together. With `before`, the insertion of the first comes
first where ranks are equal. -/
def merge (before : Bool) : List (Act β) → List (Act β) → List β → List β
  | put k xs :: as, put l ys :: bs, doc =>
    if Yields before k l then ys ++ merge before (put k xs :: as) bs doc
    else xs ++ merge before as (put l ys :: bs) doc
  | put _ xs :: as, bs, doc => xs ++ merge before as bs doc
  | as, put _ ys :: bs, doc => ys ++ merge before as bs doc
  | pass p :: as, pass q :: bs, x :: doc =>
    (if p && q then [x] else []) ++ merge before as bs doc
  | _, _, _ => []
termination_by as bs => as.length + bs.length

/-- What a change makes of a sequence alone. -/
def perform : List (Act β) → List β → List β
  | put _ xs :: as, doc => xs ++ perform as doc
  | pass p :: as, x :: doc => (if p then [x] else []) ++ perform as doc
  | _, _ => []

/-- The number of items that are inserted. -/
def volume (as : List (Act β)) : Nat :=
  sumBy (fun
    | put _ xs => xs.length
    | pass _ => 0) as

/-- No insertion comes next, or one of which something holds. -/
def Next (P : Nat → Prop) (as : List (Act β)) : Prop :=
  ∀ k xs rest, as = put k xs :: rest → P k

variable {before : Bool} {as bs : List (Act β)} {doc : List β}

theorem merge_left {k : Nat} (xs : List β) (h : Next (fun l => ¬ Yields before k l) bs) :
    merge before (put k xs :: as) bs doc = xs ++ merge before as bs doc := by
  match bs, h with
  | [], _ => rw [merge]; simp
  | pass q :: bs, _ => rw [merge]; simp
  | put l ys :: bs, h => rw [merge, if_neg (h l ys bs rfl)]

theorem merge_right {l : Nat} (ys : List β) (h : Next (fun k => Yields before k l) as) :
    merge before as (put l ys :: bs) doc = ys ++ merge before as bs doc := by
  match as, h with
  | [], _ => rw [merge]; simp
  | pass p :: as, _ => rw [merge]; simp
  | put k xs :: as, h => rw [merge, if_pos (h k xs as rfl)]

@[simp] theorem merge_nil : merge before ([] : List (Act β)) [] doc = [] := by
  rw [merge] <;> simp

theorem merge_pass (p q : Bool) (x : β) :
    merge before (pass p :: as) (pass q :: bs) (x :: doc)
      = (if p && q then [x] else []) ++ merge before as bs doc := by
  rw [merge]

theorem not_yields_iff {k l : Nat} : ¬ Yields before k l ↔ Yields (!before) l k := by
  cases before
  · simp only [Yields, Bool.not_false, and_true, Bool.true_eq_false, and_false, or_false]
    omega
  · simp only [Yields, Bool.not_true, and_true, Bool.true_eq_false, and_false, or_false]
    omega

/-- Which of two concurrent changes is called the first does not matter. -/
theorem merge_comm (before : Bool) (as bs : List (Act β)) (doc : List β) :
    merge before as bs doc = merge (!before) bs as doc := by
  -- The cases are those of the merge: one of two insertions at a place, an insertion of one alone,
  -- an item that both pass, and the end.
  fun_induction merge before as bs doc with
  | case1 k xs as l ys bs doc hyields ih =>
    have hfirst : Next (fun k => ¬ Yields (!before) l k) (put k xs :: as) := by
      rintro k' xs' rest ⟨rfl, rfl⟩
      rw [not_yields_iff, Bool.not_not]
      exact hyields
    rw [merge_left ys hfirst, ih]
  | case2 k xs as l ys bs doc hyields ih =>
    have hsecond : Next (fun l => Yields (!before) l k) (put l ys :: bs) := by
      rintro l' ys' rest ⟨rfl, rfl⟩
      exact not_yields_iff.mp hyields
    rw [merge_right xs hsecond, ih]
  | case3 k xs as bs doc hbs ih =>
    have hnone : Next (fun l => Yields (!before) l k) bs :=
      fun l ys rest h => absurd h (hbs l ys rest)
    rw [merge_right xs hnone, ih]
  | case4 as l ys bs doc has ih =>
    have hnone : Next (fun k => ¬ Yields (!before) l k) as :=
      fun k xs rest h => absurd h (has k xs rest)
    rw [merge_left ys hnone, ih]
  | case5 p as q bs x doc ih =>
    rw [merge_pass, ih, Bool.and_comm]
  | case6 as bs doc h1 h2 h3 h4 =>
    rw [merge]
    · exact h3
    · exact h2
    · exact fun k xs rest _ _ _ h _ => h3 k xs rest h
    · exact fun p as' q bs' x doc' h h' => h4 q bs' p as' x doc' h' h

/-- Items that both changes pass. -/
theorem merge_replicate (p q : Bool) {n : Nat} (h : n ≤ doc.length) :
    merge before (List.replicate n (pass p) ++ as) (List.replicate n (pass q) ++ bs) doc
      = (if p && q then doc.take n else []) ++ merge before as bs (doc.drop n) := by
  induction n generalizing doc with
  | zero => simp
  | succ n ih =>
    cases doc with
    | nil => simp at h
    | cons x doc =>
      rw [List.length_cons, Nat.succ_le_succ_iff] at h
      rw [List.replicate_succ, List.replicate_succ, List.cons_append, List.cons_append, merge_pass,
        ih h]
      cases p && q <;> simp

theorem perform_nil (doc : List β) : perform ([] : List (Act β)) doc = [] := by
  rw [perform] <;> simp

theorem perform_put (k : Nat) (xs : List β) :
    perform (put k xs :: as) doc = xs ++ perform as doc := by
  rw [perform]

theorem perform_pass (p : Bool) (x : β) :
    perform (pass p :: as) (x :: doc) = (if p then [x] else []) ++ perform as doc := by
  rw [perform]

theorem perform_replicate (p : Bool) {n : Nat} (h : n ≤ doc.length) :
    perform (List.replicate n (pass p) ++ as) doc
      = (if p then doc.take n else []) ++ perform as (doc.drop n) := by
  induction n generalizing doc with
  | zero => simp
  | succ n ih =>
    cases doc with
    | nil => simp at h
    | cons x doc =>
      rw [List.length_cons, Nat.succ_le_succ_iff] at h
      rw [List.replicate_succ, List.cons_append, perform_pass, ih h]
      cases p <;> simp

/-- Beside a change that keeps everything, a change does what it does alone. -/
theorem merge_keeping (before : Bool) (as : List (Act β)) (doc : List β) :
    merge before as (List.replicate doc.length (pass true)) doc = perform as doc := by
  induction as generalizing doc with
  | nil =>
    cases doc with
    | nil => rw [List.length_nil, List.replicate_zero, merge_nil, perform_nil]
    | cons x doc => rw [List.length_cons, List.replicate_succ, merge, perform_nil] <;> simp
  | cons a as ih =>
    cases a with
    | put k xs =>
      have hnone : Next (fun l => ¬ Yields before k l)
          (List.replicate doc.length (pass true : Act β)) := by
        intro l ys rest h
        cases doc <;> cases h
      rw [merge_left xs hnone, ih, perform_put]
    | pass p =>
      cases doc with
      | nil => rw [merge, perform] <;> simp
      | cons x doc =>
        rw [List.length_cons, List.replicate_succ, merge_pass, ih, perform_pass, Bool.and_true]

theorem mem_perform {x : β} (h : x ∈ perform as doc) :
    (∃ k xs, put k xs ∈ as ∧ x ∈ xs) ∨ x ∈ doc := by
  fun_induction perform as doc with
  | case1 k xs as doc ih =>
    rcases List.mem_append.mp h with h | h
    · exact Or.inl ⟨k, xs, List.mem_cons_self, h⟩
    · refine (ih h).imp_left ?_
      rintro ⟨l, ys, hmem, hx⟩
      exact ⟨l, ys, List.mem_cons_of_mem _ hmem, hx⟩
  | case2 p as y doc ih =>
    rcases List.mem_append.mp h with h | h
    · have hx : x = y := by cases p <;> simp_all
      exact Or.inr (hx ▸ List.mem_cons_self)
    · rcases ih h with ⟨l, ys, hmem, hx⟩ | hx
      · exact Or.inl ⟨l, ys, List.mem_cons_of_mem _ hmem, hx⟩
      · exact Or.inr (List.mem_cons_of_mem _ hx)
  | case3 => simp at h

/-- An item that neither change inserts is kept by both together if it is kept by each. -/
theorem mem_merge {x : β} (has : ∀ k xs, put k xs ∈ as → x ∉ xs)
    (hbs : ∀ l ys, put l ys ∈ bs → x ∉ ys) (hdoc : doc.Nodup) :
    x ∈ merge before as bs doc ↔ x ∈ perform as doc ∧ x ∈ perform bs doc := by
  fun_induction merge before as bs doc with
  | case1 k xs as l ys bs doc hyields ih =>
    have hys : x ∉ ys := hbs l ys List.mem_cons_self
    rw [perform_put l, List.mem_append, List.mem_append,
      ih has (fun l ys h => hbs l ys (List.mem_cons_of_mem _ h)) hdoc]
    tauto
  | case2 k xs as l ys bs doc hyields ih =>
    have hxs : x ∉ xs := has k xs List.mem_cons_self
    rw [perform_put k, List.mem_append, List.mem_append,
      ih (fun k xs h => has k xs (List.mem_cons_of_mem _ h)) hbs hdoc]
    tauto
  | case3 k xs as bs doc hnone ih =>
    have hxs : x ∉ xs := has k xs List.mem_cons_self
    rw [perform_put k, List.mem_append, List.mem_append,
      ih (fun k xs h => has k xs (List.mem_cons_of_mem _ h)) hbs hdoc]
    tauto
  | case4 as l ys bs doc hnone ih =>
    have hys : x ∉ ys := hbs l ys List.mem_cons_self
    rw [perform_put l, List.mem_append, List.mem_append,
      ih has (fun l ys h => hbs l ys (List.mem_cons_of_mem _ h)) hdoc]
    tauto
  | case5 p as q bs y doc ih =>
    obtain ⟨hy, hdoc⟩ := List.nodup_cons.mp hdoc
    have has' : ∀ k xs, put k xs ∈ as → x ∉ xs :=
      fun k xs h => has k xs (List.mem_cons_of_mem _ h)
    have hbs' : ∀ l ys, put l ys ∈ bs → x ∉ ys :=
      fun l ys h => hbs l ys (List.mem_cons_of_mem _ h)
    rw [perform_pass, perform_pass, List.mem_append, List.mem_append, List.mem_append,
      ih has' hbs' hdoc]
    -- The item that is passed here does not come again, and nobody inserts it.
    by_cases hx : x = y
    · subst hx
      have hleft : x ∉ perform as doc := fun h =>
        (mem_perform h).elim (fun ⟨k, xs, hmem, hin⟩ => has' k xs hmem hin) hy
      have hright : x ∉ perform bs doc := fun h =>
        (mem_perform h).elim (fun ⟨l, ys, hmem, hin⟩ => hbs' l ys hmem hin) hy
      cases p <;> cases q <;> simp [hleft, hright]
    · cases p <;> cases q <;> simp [hx]
  | case6 as bs doc h1 h2 h3 h4 =>
    refine ⟨fun h => absurd h List.not_mem_nil, fun ⟨hleft, hright⟩ => ?_⟩
    cases as with
    | nil => rwa [perform_nil] at hleft
    | cons a as =>
      cases bs with
      | nil => rwa [perform_nil] at hright
      | cons b bs =>
        cases a with
        | put k xs => exact absurd rfl (h2 k xs as)
        | pass p =>
          cases b with
          | put l ys => exact absurd rfl (h3 l ys bs)
          | pass q =>
            cases doc with
            | nil =>
              rw [perform] at hleft <;> simp_all
            | cons y doc => exact (h4 p as q bs y doc rfl rfl rfl).elim

@[simp] theorem volume_cons_put (k : Nat) (xs : List β) :
    volume (put k xs :: as) = xs.length + volume as :=
  sumBy_cons ..

@[simp] theorem volume_replicate (n : Nat) (p : Bool) :
    volume (List.replicate n (pass p) ++ as) = volume as := by
  induction n with
  | zero => rfl
  | succ n ih =>
    rw [List.replicate_succ, List.cons_append, volume, sumBy_cons, Nat.zero_add]
    exact ih

theorem next_nil {P : Nat → Prop} : Next P ([] : List (Act β)) :=
  fun _ _ _ h => by cases h

theorem next_pass {P : Nat → Prop} (p : Bool) : Next P (pass p :: as) :=
  fun _ _ _ h => by cases h

theorem next_put {P : Nat → Prop} {k : Nat} {xs : List β} (h : P k) : Next P (put k xs :: as) := by
  rintro k' xs' rest ⟨rfl, rfl⟩
  exact h

/-- A passed item comes next. -/
theorem next_replicate {P : Nat → Prop} {n : Nat} (p : Bool) (h : 0 < n) :
    Next P (List.replicate n (pass p) ++ as) := by
  obtain ⟨n, rfl⟩ := Nat.exists_eq_succ_of_ne_zero (Nat.ne_of_gt h)
  exact next_pass p

theorem Next.mono {P Q : Nat → Prop} (h : Next P as) (hPQ : ∀ k, P k → Q k) : Next Q as :=
  fun k xs rest has => hPQ k (h k xs rest has)

/-- The number of items that are passed. -/
def extent (as : List (Act β)) : Nat :=
  sumBy (fun
    | put _ _ => 0
    | pass _ => 1) as

@[simp] theorem extent_nil : extent ([] : List (Act β)) = 0 := rfl

@[simp] theorem extent_cons_put (k : Nat) (xs : List β) : extent (put k xs :: as) = extent as := by
  simp [extent]

@[simp] theorem extent_cons_pass (p : Bool) : extent (pass p :: as) = extent as + 1 := by
  simp [extent, Nat.add_comm]

@[simp] theorem extent_append (as bs : List (Act β)) : extent (as ++ bs) = extent as + extent bs :=
  sumBy_append ..

@[simp] theorem extent_replicate (n : Nat) (p : Bool) :
    extent (List.replicate n (pass p : Act β)) = n := by
  induction n with
  | zero => rfl
  | succ n ih => rw [List.replicate_succ, extent_cons_pass, ih]

/-- Where a merge comes to its end, nothing is left of changes that pass the whole sequence. -/
theorem eq_nil_of_stuck (hleft : ∀ k xs rest, as ≠ put k xs :: rest)
    (hright : ∀ l ys rest, bs ≠ put l ys :: rest)
    (hpass : ∀ p rest q rest' x rest'', as = pass p :: rest → bs = pass q :: rest' →
      doc ≠ x :: rest'')
    (ha : extent as = doc.length) (hb : extent bs = doc.length) : as = [] ∧ bs = [] ∧ doc = [] := by
  match as, bs, doc with
  | put k xs :: as, _, _ => exact absurd rfl (hleft k xs as)
  | _, put l ys :: bs, _ => exact absurd rfl (hright l ys bs)
  | pass p :: as, pass q :: bs, x :: doc => exact absurd rfl (hpass p as q bs x doc rfl rfl)
  | [], [], [] => exact ⟨rfl, rfl, rfl⟩
  | [], _, x :: doc => simp at ha
  | _, [], x :: doc => simp at hb
  | pass p :: as, _, [] => simp at ha
  | _, pass q :: bs, [] => simp at hb

/-- Where nothing is seen of the sequence and of what the second change inserts, two changes
together do what the first does alone. -/
theorem filterMap_merge {γ : Type} {f : β → Option γ} (hdoc : ∀ x ∈ doc, f x = none)
    (hbs : ∀ l ys, put l ys ∈ bs → ∀ y ∈ ys, f y = none) (ha : extent as = doc.length)
    (hb : extent bs = doc.length) :
    (merge before as bs doc).filterMap f = (perform as doc).filterMap f := by
  fun_induction merge before as bs doc with
  | case1 k xs as l ys bs doc hyields ih =>
    have hys : ys.filterMap f = [] := List.filterMap_eq_nil_iff.mpr (hbs l ys List.mem_cons_self)
    rw [List.filterMap_append, hys, List.nil_append,
      ih hdoc (fun l ys h => hbs l ys (List.mem_cons_of_mem _ h)) ha (by simpa using hb)]
  | case2 k xs as l ys bs doc hyields ih =>
    rw [perform_put, List.filterMap_append, List.filterMap_append,
      ih hdoc hbs (by simpa using ha) hb]
  | case3 k xs as bs doc hnone ih =>
    rw [perform_put, List.filterMap_append, List.filterMap_append,
      ih hdoc hbs (by simpa using ha) hb]
  | case4 as l ys bs doc hnone ih =>
    have hys : ys.filterMap f = [] := List.filterMap_eq_nil_iff.mpr (hbs l ys List.mem_cons_self)
    rw [List.filterMap_append, hys, List.nil_append,
      ih hdoc (fun l ys h => hbs l ys (List.mem_cons_of_mem _ h)) ha (by simpa using hb)]
  | case5 p as q bs x doc ih =>
    obtain ⟨hx, hdoc⟩ := List.forall_mem_cons.mp hdoc
    have hgone : ∀ b : Bool, (if b then [x] else []).filterMap f = [] := by
      intro b
      cases b <;> simp [hx]
    rw [perform_pass, List.filterMap_append, List.filterMap_append, hgone, hgone,
      ih hdoc (fun l ys h => hbs l ys (List.mem_cons_of_mem _ h)) (by simpa using ha)
        (by simpa using hb)]
  | case6 as bs doc h1 h2 h3 h4 =>
    obtain ⟨rfl, rfl, rfl⟩ := eq_nil_of_stuck h2 h3
      (fun p rest q rest' x rest'' hp hq => h4 p rest q rest' x rest'' hp hq) ha hb
    rw [perform_nil]

/-- The acts do not end with an insertion. -/
def EndsPassing (as : List (Act β)) : Prop :=
  ∀ k xs, as.getLast? ≠ some (put k xs)

theorem EndsPassing.tail {a : Act β} (h : EndsPassing (a :: as)) : EndsPassing as := by
  intro k xs hlast
  refine h k xs ?_
  rw [List.getLast?_cons, hlast]
  rfl

/-- Behind an insertion an item is passed. -/
theorem EndsPassing.extent_pos {k : Nat} {xs : List β} (h : EndsPassing (put k xs :: as)) :
    0 < extent as := by
  rcases List.eq_nil_or_concat' as with rfl | ⟨front, last, rfl⟩
  · exact absurd rfl (h k xs)
  · cases last with
    | put l ys => exact absurd List.getLast?_concat (h.tail l ys)
    | pass p => simp

/-- Acts that pass an item pass one next, if they do not insert something. -/
theorem next_append {P : Nat → Prop} (hnone : ∀ l ys rest, bs ≠ put l ys :: rest)
    (hpos : 0 < extent bs) (rest : List (Act β)) : Next P (bs ++ rest) := by
  match bs with
  | [] => cases hpos
  | put l ys :: bs => exact absurd rfl (hnone l ys bs)
  | pass p :: bs => exact next_pass p

/-- Changes are merged piece by piece, if no piece in front ends with an insertion. -/
theorem merge_append (ha : extent as = doc.length) (hb : extent bs = doc.length)
    (has : EndsPassing as) (hbs : EndsPassing bs) (as' bs' : List (Act β)) (doc' : List β) :
    merge before (as ++ as') (bs ++ bs') (doc ++ doc')
      = merge before as bs doc ++ merge before as' bs' doc' := by
  fun_induction merge before as bs doc with
  | case1 k xs as l ys bs doc hyields ih =>
    have hrest := ih ha (by simpa using hb) has hbs.tail
    rw [List.cons_append] at hrest
    rw [List.cons_append, List.cons_append, merge, if_pos hyields, hrest, List.append_assoc]
  | case2 k xs as l ys bs doc hyields ih =>
    have hrest := ih (by simpa using ha) hb has.tail hbs
    rw [List.cons_append] at hrest
    rw [List.cons_append, List.cons_append, merge, if_neg hyields, hrest, List.append_assoc]
  | case3 k xs as bs doc hnone ih =>
    have hpos := has.extent_pos
    rw [extent_cons_put] at ha
    rw [List.cons_append, merge_left xs (next_append hnone (by omega) bs'), ih ha hb has.tail hbs,
      List.append_assoc]
  | case4 as l ys bs doc hnone ih =>
    have hpos := hbs.extent_pos
    rw [extent_cons_put] at hb
    rw [List.cons_append, merge_right ys (next_append hnone (by omega) as'), ih ha hb has hbs.tail,
      List.append_assoc]
  | case5 p as q bs x doc ih =>
    rw [List.cons_append, List.cons_append, List.cons_append, merge_pass,
      ih (by simpa using ha) (by simpa using hb) has.tail hbs.tail, List.append_assoc]
  | case6 as bs doc h1 h2 h3 h4 =>
    obtain ⟨rfl, rfl, rfl⟩ := eq_nil_of_stuck h2 h3
      (fun p rest q rest' x rest'' hp hq => h4 p rest q rest' x rest'' hp hq) ha hb
    rfl

/-- Where two changes insert with the same rank, the flag says which insertion comes first. -/
theorem merge_puts {k : Nat} (xs ys : List β) (ha : Next (k < ·) as) (hb : Next (k < ·) bs) :
    merge before (put k xs :: as) (put k ys :: bs) doc
      = (if before then xs ++ ys else ys ++ xs) ++ merge before as bs doc := by
  cases before with
  | true =>
    have hfirst : Next (fun l => ¬ Yields true k l) (put k ys :: bs) :=
      next_put (by simp [Yields])
    have hsecond : Next (fun l => Yields true l k) as := ha.mono fun l hl => Or.inl hl
    rw [merge_left xs hfirst, merge_right ys hsecond, if_pos rfl, List.append_assoc]
  | false =>
    have hfirst : Next (fun l => Yields false l k) (put k xs :: as) := next_put (Or.inr ⟨rfl, rfl⟩)
    have hsecond : Next (fun l => ¬ Yields false k l) bs := by
      refine hb.mono fun l hl => ?_
      rintro (hlt | ⟨rfl, -⟩)
      · exact Nat.lt_asymm hl hlt
      · exact Nat.lt_irrefl _ hl
    rw [merge_right ys hfirst, merge_left xs hsecond, if_neg Bool.false_ne_true,
      List.append_assoc]

end Act

namespace Reading

variable [Insertion α] (I : Reading α β)

/-- The acts of what is left of a span, its insertion being told or still to come. An insertion
comes before the characters that are removed for it; it has the lowest rank if some of them were
passed before it was told. -/
def actsOf (told : Bool) (r : Rest α) : List (Act β) :=
  if r.count < 0 then List.replicate r.length (.pass true)
  else
    (if told then []
      else [.put (if r.passed = 0 then r.length + 1 else 0) (I.content r.text r.count.toNat)])
      ++ List.replicate r.length (.pass false)

/-- The acts of what is left of spans; `told` says of the first whether its insertion was. -/
def acts (told : Bool) : List (Rest α) → List (Act β)
  | [] => []
  | r :: rs => I.actsOf told r ++ acts false rs

variable {I}

@[simp] theorem acts_nil (told : Bool) : I.acts told [] = [] := rfl

theorem acts_cons (told : Bool) (r : Rest α) (rs : List (Rest α)) :
    I.acts told (r :: rs) = I.actsOf told r ++ I.acts false rs := rfl

theorem actsOf_kept {r : Rest α} (h : r.count < 0) (told : Bool) :
    I.actsOf told r = List.replicate r.length (.pass true) :=
  if_pos h

theorem actsOf_told {r : Rest α} (h : 0 ≤ r.count) :
    I.actsOf true r = List.replicate r.length (.pass false) := by
  rw [actsOf, if_neg (Int.not_lt.mpr h)]
  rfl

theorem actsOf_put {r : Rest α} (h : 0 ≤ r.count) :
    I.actsOf false r
      = .put (if r.passed = 0 then r.length + 1 else 0) (I.content r.text r.count.toNat)
        :: List.replicate r.length (.pass false) := by
  rw [actsOf, if_neg (Int.not_lt.mpr h)]
  rfl

theorem acts_append (rs ss : List (Rest α)) :
    I.acts false (rs ++ ss) = I.acts false rs ++ I.acts false ss := by
  induction rs with
  | nil => rfl
  | cons r rs ih => rw [List.cons_append, acts_cons, acts_cons, ih, List.append_assoc]

/-- The acts of spans pass the items that the spans are laid over. -/
@[simp] theorem extent_acts (ss : List (Span α)) :
    Act.extent (I.acts false (ss.map Rest.ofSpan)) = sumBy Span.length ss := by
  induction ss with
  | nil => rfl
  | cons s ss ih =>
    rw [List.map_cons, acts_cons, Act.extent_append, ih, sumBy_cons]
    congr 1
    by_cases hkept : s.count < 0
    · rw [actsOf_kept hkept, Act.extent_replicate]
      rfl
    · rw [actsOf_put (Int.not_lt.mp hkept), Act.extent_cons_put, Act.extent_replicate]
      rfl

/-- The acts of a change. -/
def actions (I : Reading α β) (c : Change α) : List (Act β) :=
  I.acts false (c.spans.map Rest.ofSpan)

/-- The acts of spans of which nothing was passed do what the spans do. -/
theorem perform_acts {ss : List (Span α)} {doc : List β} (h : sumBy Span.length ss ≤ doc.length) :
    Act.perform (I.acts false (ss.map Rest.ofSpan)) doc = I.run ss doc := by
  induction ss generalizing doc with
  | nil => exact Act.perform_nil doc
  | cons s ss ih =>
    rw [sumBy_cons] at h
    have hdrop : sumBy Span.length ss ≤ (doc.drop s.length).length := by
      rw [List.length_drop]
      omega
    have hle : (Rest.ofSpan s).length ≤ doc.length := Nat.le_trans (Nat.le_add_right _ _) h
    rw [List.map_cons, acts_cons, run_cons]
    by_cases hkept : s.count < 0
    · rw [actsOf_kept hkept, step_kept hkept, Act.perform_replicate true hle, if_pos rfl]
      exact congrArg _ (ih hdrop)
    · have hput : 0 ≤ s.count := Int.not_lt.mp hkept
      rw [actsOf_put hput, step_put hput, List.cons_append, Act.perform_put,
        Act.perform_replicate false hle]
      exact congrArg _ (ih hdrop)

theorem volume_acts {ss : List (Span α)} (h : ∀ s ∈ ss, I.Sound s) :
    Act.volume (I.acts false (ss.map Rest.ofSpan)) = sumBy Span.volume ss := by
  induction ss with
  | nil => rfl
  | cons s ss ih =>
    obtain ⟨hs, hss⟩ := List.forall_mem_cons.mp h
    rw [List.map_cons, acts_cons, sumBy_cons, ← ih hss]
    by_cases hkept : s.count < 0
    · rw [actsOf_kept hkept, Act.volume_replicate, Span.volume]
      omega
    · have hput : 0 ≤ s.count := Int.not_lt.mp hkept
      rw [actsOf_put hput, List.cons_append, Act.volume_cons_put, Act.volume_replicate]
      exact congrArg (· + _) (I.length_content _ _ hs.proper)

end Reading

end TextRevision
