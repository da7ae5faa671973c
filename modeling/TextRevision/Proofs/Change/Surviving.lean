import TextRevision.Proofs.Change.Piecewise
import TextRevision.Proofs.Change.Keeping
import TextRevision.Proofs.Change.Normal

/-!
# What survives rebasing

Rebasing a change over another one loses nothing of what it inserts, and removes no more than what
it removed before: of the characters that the other change keeps the same ones, and none that the
other change inserts. Where both insert at one place, the flag says whose insertion comes first.

Insertions are followed through the walk by reading them as something that is seen among nothing:
what is seen of both changes together is what is seen of one alone.

## Main definitions

- `Span.IsInsertion`: a run that inserts and removes nothing
- `Revision.Together`: what a revision leads to that is rebased over another, behind that one
- `Revision.InsertionAt`: an insertion of a revision at a place

## Main statements

- `Reading.content_rebase`: the insertions stay the same
- `Reading.removes_rebase_iff`: what is removed stays the same
- `Reading.merge_insertions`: two insertions at one place
- `Revision.Obtainable.rebase_preserves`
-/

namespace TextRevision

open Act (merge Next EndsPassing)
open TextRevision.Span (Separate)

variable {α β δ : Type}

/-- A run that inserts something and removes nothing. -/
structure Span.IsInsertion (s : Span α) : Prop where
  length : s.length = 0
  count : 0 < s.count

namespace Reading

variable [Insertion α] {I : Reading α β} {a b m : Change α} {before : Bool}

theorem Sound.of_map {s : Span α} {f : β → δ} (h : (I.map f).Sound s) : I.Sound s :=
  ⟨⟨h.mark, h.proper⟩, h.not_void⟩

/-- What a change has become that was rebased over another one. -/
theorem spec_of_rebase [Inhabited δ] {J K : Reading α δ} (ha : ∀ s ∈ a.spans, J.Sound s)
    (hb : ∀ s ∈ b.spans, K.Sound s) (hsame : b.length = a.length)
    (hm : a.rebase b before = .ok m) :
    (∀ s ∈ m.spans, J.Sound s) ∧ m.length = b.newLength
      ∧ ∀ doc, doc.length = b.length →
        J.run m.spans (K.run b.spans doc) = merge before (J.actions a) (K.actions b) doc := by
  obtain ⟨e, he, hsound, hlength, -, hrun⟩ := rebase_spec ha hb hsame before
  obtain rfl := Except.ok.inj (he.symm.trans hm)
  exact ⟨hsound, hlength, hrun⟩

theorem extent_actions (c : Change α) : Act.extent (I.actions c) = c.length :=
  extent_acts _

/-- Where nothing is seen of a sequence and of insertions, nothing is seen of what they lead to. -/
theorem eq_none_of_mem_run {doc : List (Option δ)} (hdoc : ∀ x ∈ doc, x = none)
    (ss : List (Span α)) : ∀ x ∈ (I.map fun _ => (none : Option δ)).run ss doc, x = none := by
  induction ss generalizing doc with
  | nil => simp
  | cons s ss ih =>
    intro x hx
    rcases List.mem_append.mp hx with hx | hx
    · by_cases hkept : s.count < 0
      · rw [step_kept hkept] at hx
        exact hdoc x (List.mem_of_mem_take hx)
      · rw [step_put (Int.not_lt.mp hkept)] at hx
        obtain ⟨y, -, rfl⟩ := List.mem_map.mp hx
        rfl
    · exact ih (fun y hy => hdoc y (List.mem_of_mem_drop hy)) x hx

/-- Where nothing is seen of a sequence, what is seen are the insertions. -/
theorem filterMap_run_some {ss : List (Span α)} (hss : ∀ s ∈ ss, I.Sound s)
    {doc : List (Option β)} (hdoc : ∀ x ∈ doc, x = none) :
    ((I.map some).run ss doc).filterMap id
      = ss.flatMap fun s => I.content s.text s.count.toNat := by
  induction ss generalizing doc with
  | nil => rfl
  | cons s ss ih =>
    obtain ⟨hs, hss⟩ := List.forall_mem_cons.mp hss
    rw [run_cons, List.filterMap_append, List.flatMap_cons,
      ih hss fun x hx => hdoc x (List.mem_of_mem_drop hx)]
    congr 1
    by_cases hkept : s.count < 0
    · have hzero : s.count.toNat = 0 := by omega
      rw [step_kept hkept, hzero, content_zero (hzero ▸ hs.proper), List.filterMap_eq_nil_iff]
      exact fun x hx => hdoc x (List.mem_of_mem_take hx)
    · rw [step_put (Int.not_lt.mp hkept)]
      exact (List.filterMap_map ..).trans List.filterMap_some

/-- Where nothing is seen of a sequence and of what the second change inserts, two changes together
show what the first does alone. -/
theorem filterMap_merge_unseen {J : Reading α (Option δ)} (hsame : b.length = a.length)
    {doc : List (Option δ)} (hdoc : ∀ x ∈ doc, x = none) (hlength : doc.length = b.length) :
    (merge before (J.actions a) ((I.map fun _ => none).actions b) doc).filterMap id
      = (J.run a.spans doc).filterMap id := by
  have hunseen : ∀ l ys, Act.put l ys ∈ (I.map fun _ => (none : Option δ)).actions b →
      ∀ y ∈ ys, id y = none := by
    intro l ys hput y hy
    obtain ⟨r, -, rfl⟩ := exists_of_put_mem_acts hput
    obtain ⟨x, -, rfl⟩ := List.mem_map.mp hy
    rfl
  have ha : Act.extent (J.actions a) = doc.length :=
    (extent_actions a).trans (hsame.symm.trans hlength.symm)
  have hb : Act.extent ((I.map fun _ => (none : Option δ)).actions b) = doc.length :=
    (extent_actions b).trans hlength.symm
  rw [Act.filterMap_merge (f := id) hdoc hunseen ha hb, actions,
    perform_acts (Nat.le_of_eq (hsame.symm.trans hlength.symm))]

/-- Something that stands for nothing, and nothing that stands for something: what is inserted is
seen then, and the characters of the document are not. -/
def unseen : Option Nat → Option Nat
  | none => some 0
  | some _ => none

section Rebasing

variable (ha : ∀ s ∈ a.spans, I.Sound s) (hb : ∀ s ∈ b.spans, I.Sound s)
  (hsame : b.length = a.length) (hm : a.rebase b before = .ok m)

include ha hb hsame hm

/-- A change that is rebased inserts what it inserted before, in the same order. -/
theorem content_rebase :
    (m.spans.flatMap fun s => I.content s.text s.count.toNat)
      = a.spans.flatMap fun s => I.content s.text s.count.toNat := by
  obtain ⟨hmsound, -, hrun⟩ := spec_of_rebase (J := I.map some) (K := I.map fun _ => none)
    (fun s hs => (ha s hs).map some) (fun s hs => (hb s hs).map _) hsame hm
  have hblank : ∀ x ∈ List.replicate b.length (none : Option β), x = none :=
    fun x hx => List.eq_of_mem_replicate hx
  have hlength : (List.replicate b.length (none : Option β)).length = b.length :=
    List.length_replicate
  rw [← filterMap_run_some (fun s hs => (hmsound s hs).of_map)
      (eq_none_of_mem_run (I := I) hblank b.spans), hrun _ hlength,
    filterMap_merge_unseen hsame hblank hlength, filterMap_run_some ha hblank]

/-- Of the characters that both changes keep, a change that is rebased keeps each where the other
one has put it. -/
theorem keeps_rebase_iff (p : Nat) :
    (∃ q, b.Keeps p q ∧ ∃ q', m.Keeps q q') ↔ (∃ q, a.Keeps p q) ∧ ∃ q, b.Keeps p q := by
  obtain ⟨hmsound, hlength, hrun⟩ := spec_of_rebase (J := I.nowhere) (K := I.nowhere)
    (fun s hs => (ha s hs).map _) (fun s hs => (hb s hs).map _) hsame hm
  have hmade : (I.nowhere.run b.spans (origins b.length)).length = m.length :=
    (length_run (fun s hs => (hb s hs).map _) (length_origins _)).trans hlength.symm
  have hboth := some_mem_merge_iff ha hb hsame.symm before p
  rw [← hsame, ← hrun _ (length_origins b.length),
    some_mem_run_iff (fun s hs => (hmsound s hs).of_map) hmade] at hboth
  simp only [← keeps_iff hb] at hboth
  exact hboth

/-- A change that is rebased keeps what the other one inserted. -/
theorem keeps_of_inserted {q : Nat}
    (hq : (I.nowhere.run b.spans (origins b.length))[q]? = some none) : ∃ q', m.Keeps q q' := by
  obtain ⟨hmsound, hlength, hrun⟩ :=
    spec_of_rebase (J := I.nowhere) (K := I.map fun _ => unseen none)
    (fun s hs => (ha s hs).map _) (fun s hs => (hb s hs).map _) hsame hm
  have hblank : ∀ x ∈ (origins b.length).map unseen, x = none := by
    intro x hx
    obtain ⟨o, ho, rfl⟩ := List.mem_map.mp hx
    obtain ⟨p, -, rfl⟩ := List.mem_map.mp ho
    rfl
  have hdoc : ((origins b.length).map unseen).length = b.length := by
    rw [List.length_map, length_origins]
  have hmade : ((I.map fun _ => unseen none).run b.spans ((origins b.length).map unseen)).length
      = m.length :=
    (length_run (fun s hs => (hb s hs).map _) hdoc).trans hlength.symm
  have hseen : ((I.map fun _ => unseen none).run b.spans ((origins b.length).map unseen))[q]?
      = some (some 0) := by
    rw [run_nowhere_map, List.getElem?_map, hq]
    rfl
  refine keeps_of_length_eq (fun s hs => (hmsound s hs).of_map) hmade ?_ hseen
  rw [hrun _ hdoc, Act.merge_comm, nowhere, filterMap_merge_unseen hsame.symm hblank]
  exact hdoc.trans hsame

/-- A change that is rebased removes the characters that it removed before, if the other one keeps
them, and no others. -/
theorem removes_rebase_iff (q : Nat) :
    m.Removes q ↔ ∃ p, b.Keeps p q ∧ a.Removes p := by
  obtain ⟨-, hlength, -⟩ := spec_of_rebase (J := I.nowhere) (K := I.nowhere)
    (fun s hs => (ha s hs).map _) (fun s hs => (hb s hs).map _) hsame hm
  have hmade : (I.nowhere.run b.spans (origins b.length)).length = m.length :=
    (length_run (fun s hs => (hb s hs).map _) (length_origins _)).trans hlength.symm
  constructor
  · rintro ⟨hlt, hgone⟩
    rw [← hmade] at hlt
    cases hfrom : (I.nowhere.run b.spans (origins b.length))[q] with
    | none =>
      have hq := List.getElem?_eq_some_iff.mpr ⟨hlt, hfrom⟩
      exact absurd (keeps_of_inserted ha hb hsame hm hq) hgone
    | some p =>
      have hkept : b.Keeps p q :=
        (keeps_iff hb p q).mpr (List.getElem?_eq_some_iff.mpr ⟨hlt, hfrom⟩)
      refine ⟨p, hkept, hsame ▸ lt_length_of_keeps hb hkept, fun hstays => ?_⟩
      obtain ⟨q', hkept', hstays'⟩ := (keeps_rebase_iff ha hb hsame hm p).mpr ⟨hstays, q, hkept⟩
      rw [keeps_unique hb hkept' hkept] at hstays'
      exact hgone hstays'
  · rintro ⟨p, hkept, -, hgone⟩
    have hlt := (List.getElem?_eq_some_iff.mp ((keeps_iff hb p q).mp hkept)).1
    refine ⟨hmade ▸ hlt, fun hstays => ?_⟩
    exact hgone ((keeps_rebase_iff ha hb hsame hm p).mp ⟨q, hkept, hstays⟩).1

end Rebasing

section Meeting

variable {x y : Span α} {a₁ a₂ b₁ b₂ : List (Span α)}

/-- The acts of spans around an insertion. -/
theorem acts_insertion (hx : x.IsInsertion) (a₁ a₂ : List (Span α)) :
    I.acts false ((a₁ ++ x :: a₂).map Rest.ofSpan)
      = I.acts false (a₁.map Rest.ofSpan)
        ++ .put 1 (I.content x.text x.count.toNat) :: I.acts false (a₂.map Rest.ofSpan) := by
  have hlength : (Rest.ofSpan x).length = 0 := hx.length
  rw [List.map_append, acts_append, List.map_cons, acts_cons, actsOf_put (Int.le_of_lt hx.count),
    hlength]
  rfl

omit [Insertion α] in
/-- An insertion has no other one beside it. -/
theorem lengths_around (hx : x.length = 0) (h : Separate (a₁ ++ x :: a₂)) :
    (∀ s ∈ a₁.getLast?, 0 < s.length) ∧ ∀ s ∈ a₂.head?, 0 < s.length := by
  obtain ⟨-, hback, hfront⟩ := List.isChain_append.mp h
  refine ⟨fun s hs => ?_, fun s hs => ?_⟩
  · have hapart := (hfront s hs x rfl).inserted
    omega
  · have hapart := ((List.isChain_cons.mp hback).1 s hs).inserted
    omega

theorem endsPassing_acts (h : ∀ s ∈ a₁.getLast?, 0 < s.length) :
    EndsPassing (I.acts false (a₁.map Rest.ofSpan)) := by
  rcases List.eq_nil_or_concat' a₁ with rfl | ⟨front, last, rfl⟩
  · intro k xs hlast
    cases hlast
  · have hlength : 0 < last.length := h last List.getLast?_concat
    have hacts : ∃ acts p, I.acts false ((front ++ [last]).map Rest.ofSpan)
        = acts ++ List.replicate last.length (.pass p) := by
      rw [List.map_append, acts_append, List.map_singleton, acts_cons, acts_nil, List.append_nil]
      by_cases hkept : last.count < 0
      · exact ⟨_, true, congrArg _ (actsOf_kept hkept false)⟩
      · rw [actsOf_put (Int.not_lt.mp hkept)]
        exact ⟨_, false, List.append_cons ..⟩
    obtain ⟨acts, p, hacts⟩ := hacts
    intro k xs hlast
    rw [hacts, List.getLast?_append, List.getLast?_replicate,
      if_neg (Nat.ne_of_gt hlength)] at hlast
    cases hlast

theorem next_acts (h : ∀ s ∈ a₂.head?, 0 < s.length) :
    Next (1 < ·) (I.acts false (a₂.map Rest.ofSpan)) := by
  cases a₂ with
  | nil => exact Act.next_nil
  | cons s rest =>
    have hlength : 0 < (Rest.ofSpan s).length := h s rfl
    rw [List.map_cons, acts_cons]
    by_cases hkept : s.count < 0
    · rw [actsOf_kept hkept]
      exact Act.next_replicate true hlength
    · rw [actsOf_put (Int.not_lt.mp hkept)]
      exact Act.next_put (by simp [Rest.ofSpan] at hlength ⊢; exact hlength)

/-- Where two changes insert at one place, what they make together of the sequence in front of it
comes first, then the two insertions in the order that the flag tells, then what they make of the
sequence behind it. -/
theorem merge_insertions (hx : x.IsInsertion) (hy : y.IsInsertion)
    (ha : Separate (a₁ ++ x :: a₂)) (hb : Separate (b₁ ++ y :: b₂)) {front back : List β}
    (hafront : sumBy Span.length a₁ = front.length)
    (hbfront : sumBy Span.length b₁ = front.length) :
    merge before (I.acts false ((a₁ ++ x :: a₂).map Rest.ofSpan))
        (I.acts false ((b₁ ++ y :: b₂).map Rest.ofSpan)) (front ++ back)
      = merge before (I.acts false (a₁.map Rest.ofSpan)) (I.acts false (b₁.map Rest.ofSpan)) front
        ++ (if before then I.content x.text x.count.toNat ++ I.content y.text y.count.toNat
          else I.content y.text y.count.toNat ++ I.content x.text x.count.toNat)
        ++ merge before (I.acts false (a₂.map Rest.ofSpan)) (I.acts false (b₂.map Rest.ofSpan))
          back := by
  obtain ⟨hafar, hanear⟩ := lengths_around hx.length ha
  obtain ⟨hbfar, hbnear⟩ := lengths_around hy.length hb
  rw [acts_insertion hx, acts_insertion hy,
    Act.merge_append ((extent_acts a₁).trans hafront) ((extent_acts b₁).trans hbfront)
      (endsPassing_acts hafar) (endsPassing_acts hbfar),
    Act.merge_puts _ _ (next_acts hanear) (next_acts hbnear), List.append_assoc]

end Meeting

end Reading

namespace Revision

variable {a b : Revision} {doc r : Rope} {before : Bool}

/-- Making `b` to a document, and then `a` rebased over it, leads to `r`. -/
def Together (before : Bool) (a b : Revision) (doc r : Rope) : Prop :=
  ∃ (m : Revision) (mid : Rope),
    a.rebase b.outline before = .ok m ∧ b.apply doc = .ok mid ∧ m.apply mid = .ok r

/-- Revisions of one document can be made together, and do what their acts do when they are
merged. -/
theorem exists_together (ha : ∀ s ∈ a.spans, Rope.reading.Sound s)
    (hb : ∀ s ∈ b.spans, Rope.reading.Sound s) (hsame : b.length = a.length)
    (hdoc : doc.Obeys Rope.shareRule) (hlength : doc.length = b.length) (before : Bool) :
    ∃ (m : Revision) (mid r : Rope),
      a.rebase b before = .ok m ∧ b.apply doc = .ok mid ∧ m.apply mid = .ok r
        ∧ r.items = merge before (Rope.reading.actions a) (Rope.reading.actions b) doc.items := by
  obtain ⟨m, hm, hmsound, hmlength, -, hrun⟩ := Reading.rebase_spec ha hb hsame before
  obtain ⟨mid, hmid, hmidObeys, hmidItems⟩ := apply_spec hb hdoc hlength.symm
  have hitems : doc.items.length = b.length := hdoc.length_items.trans hlength
  have hmeet : m.length = mid.length := by
    rw [hmlength, ← hmidObeys.length_items, hmidItems, Reading.length_run hb hitems]
    rfl
  obtain ⟨r, hr, -, hrItems⟩ := apply_spec hmsound hmidObeys hmeet
  exact ⟨m, mid, r, hm, hmid, hr, by rw [hrItems, hmidItems, hrun doc.items hitems]⟩

/-- The insertions of a revision are those of its spans. -/
theorem items_insertedOf {spans : List (Span Rope)} (h : ∀ s ∈ spans, Rope.reading.Sound s) :
    (insertedOf spans).flatMap Rope.items = spans.flatMap fun s => s.text.items := by
  have htold := congrArg (List.flatMap Rope.items) (map_insertionOf spans)
  have hempty : (List.replicate (spans.length - (insertedOf spans).length) Rope.empty).flatMap
      Rope.items = [] := by
    rw [List.flatMap_eq_nil_iff]
    intro r hr
    rw [List.eq_of_mem_replicate hr, Rope.items_empty]
  rw [List.flatMap_append, hempty, List.append_nil, List.flatMap_map] at htold
  rw [← htold]
  refine List.flatMap_congr fun s hs => ?_
  rw [insertionOf]
  split
  · next hnone => rw [(h s hs).proper.1.items_of_isEmpty hnone, Rope.items_empty]
  · rfl

/-- Documents are cut in two at a place. -/
theorem items_cut (hdoc : doc.Obeys Rope.shareRule) {place : Nat} (hle : place ≤ doc.length) :
    doc.items = (doc.extract 0 place).items ++ (doc.extract place doc.length).items := by
  have hback : (doc.items.drop place).length ≤ doc.length - place := by
    rw [List.length_drop, hdoc.length_items]
  rw [Rope.items_extract hdoc (Nat.zero_le place) hle, Rope.items_extract hdoc hle (Nat.le_refl _),
    List.drop_zero, Nat.sub_zero, List.take_of_length_le hback, List.take_append_drop]

/-- An insertion of a revision at a place of the document, and the spans around it. -/
structure InsertionAt (c : Revision) (place : Nat) where
  front : List (Span Rope)
  span : Span Rope
  back : List (Span Rope)
  spans_eq : c.spans = front ++ span :: back
  isInsertion : span.IsInsertion
  place_eq : sumBy Span.length front = place

theorem InsertionAt.length_back {c : Revision} {place : Nat} (x : c.InsertionAt place) :
    c.length = place + sumBy Span.length x.back := by
  rw [Change.length, x.spans_eq, sumBy_append, sumBy_cons, x.isInsertion.length, x.place_eq,
    Nat.zero_add]

/-- Where two revisions insert at one place, they can be made together in front of it and behind it,
and between what these lead to come the two insertions, in the order that the flag tells. -/
theorem together_around (ha : ∀ s ∈ a.spans, Rope.reading.Sound s)
    (hb : ∀ s ∈ b.spans, Rope.reading.Sound s) (haSeparate : Separate a.spans)
    (hbSeparate : Separate b.spans) (hsame : b.length = a.length)
    (hdoc : doc.Obeys Rope.shareRule) (hlength : doc.length = b.length)
    (hr : r.items = merge before (Rope.reading.actions a) (Rope.reading.actions b) doc.items)
    {place : Nat} (x : a.InsertionAt place) (y : b.InsertionAt place) :
    ∃ r₁ r₂, Together before ⟨x.front⟩ ⟨y.front⟩ (doc.extract 0 place) r₁
      ∧ Together before ⟨x.back⟩ ⟨y.back⟩ (doc.extract place doc.length) r₂
      ∧ r.items = r₁.items ++ (if before then x.span.text.items ++ y.span.text.items
          else y.span.text.items ++ x.span.text.items) ++ r₂.items := by
  have halength := x.length_back
  have hblength := y.length_back
  have hplace : place ≤ doc.length := by omega
  obtain ⟨hfrontObeys, hfrontLength⟩ :=
    (Rope.reading.extract doc doc.length 0 place ⟨hdoc, rfl⟩ (Nat.zero_le _) hplace).1
  obtain ⟨hbackObeys, hbackLength⟩ :=
    (Rope.reading.extract doc doc.length place doc.length ⟨hdoc, rfl⟩ hplace (Nat.le_refl _)).1
  rw [x.spans_eq] at ha haSeparate
  rw [y.spans_eq] at hb hbSeparate
  obtain ⟨m₁, mid₁, r₁, hm₁, hmid₁, hr₁, hitems₁⟩ := exists_together
    (a := ⟨x.front⟩) (b := ⟨y.front⟩) (fun s hs => ha s (List.mem_append_left _ hs))
    (fun s hs => hb s (List.mem_append_left _ hs)) (y.place_eq.trans x.place_eq.symm) hfrontObeys
    (hfrontLength.trans y.place_eq.symm) before
  obtain ⟨m₂, mid₂, r₂, hm₂, hmid₂, hr₂, hitems₂⟩ := exists_together
    (a := ⟨x.back⟩) (b := ⟨y.back⟩)
    (fun s hs => ha s (List.mem_append_right _ (List.mem_cons_of_mem _ hs)))
    (fun s hs => hb s (List.mem_append_right _ (List.mem_cons_of_mem _ hs)))
    (show sumBy Span.length y.back = sumBy Span.length x.back by omega) hbackObeys
    (hbackLength.trans (show doc.length - place = sumBy Span.length y.back by omega)) before
  refine ⟨r₁, r₂, ⟨m₁, mid₁, (Change.rebase_outline _ _ _).trans hm₁, hmid₁, hr₁⟩,
    ⟨m₂, mid₂, (Change.rebase_outline _ _ _).trans hm₂, hmid₂, hr₂⟩, ?_⟩
  have hfront : place = (doc.extract 0 place).items.length :=
    (hfrontObeys.length_items.trans hfrontLength).symm
  rw [hr, Reading.actions, Reading.actions, x.spans_eq, y.spans_eq, items_cut hdoc hplace,
    Reading.merge_insertions x.isInsertion y.isInsertion haSeparate hbSeparate
      (x.place_eq.trans hfront) (y.place_eq.trans hfront), hitems₁, hitems₂]
  rfl

/-- A revision that is rebased over another one of the same document is a revision of what that one
leads to. It inserts what it inserted before, and removes the characters that it removed before and
the other one keeps, and no others. Where both insert at one place, the flag says whose insertion
comes first. All this is for lengths up to the limit of written changes. -/
theorem Obtainable.rebase_preserves {fits : Nat → Prop}
    (ha : Revision.Obtainable (· ≤ lengthLimit) a) (hb : Revision.Obtainable (· ≤ lengthLimit) b)
    (hsame : a.length = b.length) (hdoc : Rope.Reachable fits doc) (hlength : doc.length = a.length)
    (before : Bool) :
    ∃ (m : Revision) (mid r : Rope), a.rebase b.outline before = .ok m
      ∧ m.length = b.newLength
      ∧ m.inserted.flatMap Rope.items = a.inserted.flatMap Rope.items
      ∧ (∀ q, m.Removes q ↔ ∃ p, b.Keeps p q ∧ a.Removes p)
      ∧ b.apply doc = .ok mid ∧ m.apply mid = .ok r
      ∧ ∀ place (x : a.InsertionAt place) (y : b.InsertionAt place), ∃ r₁ r₂,
        Together before ⟨x.front⟩ ⟨y.front⟩ (doc.extract 0 place) r₁
          ∧ Together before ⟨x.back⟩ ⟨y.back⟩ (doc.extract place doc.length) r₂
          ∧ r.items = r₁.items ++ (if before then x.span.text.items ++ y.span.text.items
              else y.span.text.items ++ x.span.text.items) ++ r₂.items := by
  have hobeys := hdoc.obeys
  obtain ⟨m, mid, r, hm, hmid, hr, hitems⟩ := exists_together ha.sound hb.sound hsame.symm hobeys
    (hlength.trans hsame) before
  obtain ⟨hmsound, hmlength, -⟩ := Reading.spec_of_rebase ha.sound hb.sound hsame.symm hm
  refine ⟨m, mid, r, (Change.rebase_outline a b before).trans hm, hmlength, ?_,
    Reading.removes_rebase_iff ha.sound hb.sound hsame.symm hm, hmid, hr, fun place x y =>
      together_around ha.sound hb.sound ha.normalSpans.separate hb.normalSpans.separate hsame.symm
        hobeys (hlength.trans hsame) hitems x y⟩
  rw [inserted, inserted, items_insertedOf hmsound, items_insertedOf ha.sound]
  exact Reading.content_rebase ha.sound hb.sound hsame.symm hm

/-- A revision that puts a line behind two characters. -/
def appendLine : Revision :=
  ⟨[Span.keep 2, ⟨0, 2, Rope.ofBlock ["", "y"]⟩]⟩

theorem obtainable_appendLine {fits : Nat → Prop} (hfits : ∀ m ≤ 4, fits m) :
    Revision.Obtainable fits appendLine := by
  have hread : Revision.ofJson (.arr [.int 2, .arr [.int 0, .str "", .str "y"]])
      = .ok appendLine := by
    cbv
  have hkeep : part? (.int 2) = some (Span.keep 2) := by
    cbv
  have hput : part? (.arr [.int 0, .str "", .str "y"]) = some ⟨0, 2, Rope.ofBlock ["", "y"]⟩ := by
    cbv
  refine .ofJson hread ⟨hfits 2 (by decide), hfits 4 (by decide)⟩
    fun items hitems item hitem s hs => ?_
  obtain rfl := Option.some.inj hitems
  rcases List.mem_pair.mp hitem with rfl | rfl
  · obtain rfl := Option.some.inj (hkeep.symm.trans hs)
    exact hfits 0 (by decide)
  · obtain rfl := Option.some.inj (hput.symm.trans hs)
    exact hfits 2 (by decide)

/-- A character and a line put behind two characters: the line comes first. -/
theorem rebase_preserves_two_characters :
    Rope.ofLines? ["ab"] = .ok (Rope.ofBlock ["ab"])
      ∧ ∃ (m : Revision) (mid r r₁ r₂ : Rope),
        (insertBehind 2).rebase appendLine.outline false = .ok m ∧ m.length = 4
          ∧ appendLine.apply (Rope.ofBlock ["ab"]) = .ok mid ∧ m.apply mid = .ok r
          ∧ r.items = r₁.items ++ Block.items ["", "yx"] ++ r₂.items := by
  have hlines : Rope.ofLines? ["ab"] = .ok (Rope.ofBlock ["ab"]) := rfl
  have hdoc : Rope.Reachable (fun _ => True) (Rope.ofBlock ["ab"]) := .ofLines hlines
  have ha : Revision.Obtainable (· ≤ lengthLimit) (insertBehind 2) :=
    obtainable_insertBehind (by decide) fun _ hm => Nat.le_trans hm (by decide)
  have hb : Revision.Obtainable (· ≤ lengthLimit) appendLine :=
    obtainable_appendLine fun _ hm => Nat.le_trans hm (by decide)
  obtain ⟨m, mid, r, hm, hmlength, -, -, hmid, hr, htogether⟩ :=
    Obtainable.rebase_preserves ha hb rfl hdoc rfl false
  obtain ⟨r₁, r₂, -, -, hitems⟩ := htogether 2
    ⟨[Span.keep 2], ⟨0, 1, Rope.ofBlock ["x"]⟩, [], rfl, ⟨rfl, by decide⟩, rfl⟩
    ⟨[Span.keep 2], ⟨0, 2, Rope.ofBlock ["", "y"]⟩, [], rfl, ⟨rfl, by decide⟩, rfl⟩
  exact ⟨hlines, m, mid, r, r₁, r₂, hm, hmlength, hmid, hr, hitems⟩

/-- A revision that puts a character in the place of all the characters of a document. -/
def replaceAll (n : Nat) : Revision :=
  ⟨[⟨n, 1, Rope.ofBlock ["y"]⟩]⟩

theorem obtainable_replaceAll {n : Nat} (hpos : 0 < n) :
    Revision.Obtainable (fun _ => True) (replaceAll n) := by
  have htext : Rope.ofString "y" none = Rope.ofBlock ["y"] := rfl
  have hword : signedWord (Rope.ofBlock ["y"]).length = 1 := by decide
  have hmake : Revision.ofEdit (.replace 0 n (.string "y")) n none = .ok (replaceAll n) := by
    rw [Revision.ofEdit_replace (Nat.zero_le n) (Nat.le_refl n) fun h => Nat.ne_of_lt hpos h.1]
    simp only [Draft.putReplaced, Draft.batch, replaceAll, Span.push, Span.pushRun, Span.attach,
      Span.keep, Span.replace, Span.isVoid, Span.keptMark, Inserted.toRope, htext, hword]
    simp [Nat.ne_of_gt hpos]
    rfl
  exact .ofEdit (.string 0 n trivial) hmake trivial trivial ⟨trivial, trivial⟩

/-- A revision that keeps a character, and inserts one without telling of it. -/
def keepFilled : Revision :=
  ⟨[⟨1, Span.keptMark, Rope.ofBlock ["x"]⟩]⟩

/-- Where all characters are replaced, an insertion that is not told of is left with the character
that takes their place. -/
theorem filled_rebase_replaceAll {n : Nat} (hpos : 0 < n) :
    (⟨[⟨n, 0, Rope.ofBlock ["x"]⟩]⟩ : Revision).rebase (replaceAll n).outline false
      = .ok keepFilled := by
  have hsame : (replaceAll n).length = (⟨[⟨n, 0, Rope.ofBlock ["x"]⟩]⟩ : Revision).length := rfl
  have hsome : ¬ (replaceAll n).isEmpty = true := Bool.false_ne_true
  have habsorb : Change.absorb [Rest.ofSpan ⟨n, 0, Rope.ofBlock ["x"]⟩] false n
      (Span.push false [] (Span.keep 1)) = some ([], false, keepFilled.spans) := by
    obtain ⟨k, rfl⟩ := Nat.exists_eq_succ_of_ne_zero (Nat.ne_of_gt hpos)
    simp [Change.absorb, Rest.ofSpan, Span.push, Span.attach, Span.pushRun, Span.isVoid, Span.keep,
      Span.keptMark, keepFilled]
    rfl
  have hwalk : Change.rebaseSpans false ([⟨n, 0, Rope.ofBlock ["x"]⟩].map Rest.ofSpan) false
      ((replaceAll n).spans.map Rest.ofSpan) [] = .finished keepFilled.spans := by
    simp only [replaceAll, List.map_cons, List.map_nil]
    rw [Change.rebaseSpans, if_neg (by simp [Rest.ofSpan, Span.endMark]),
      if_neg (by simp [Rest.ofSpan, Span.keptMark]),
      if_pos (by simp [Rest.ofSpan, Change.yieldsTo])]
    split
    · next as' told' later hrest =>
      obtain ⟨rfl, rfl, rfl⟩ : [] = as' ∧ false = told' ∧ keepFilled.spans = later := by
        simpa using habsorb.symm.trans hrest
      simp [Change.rebaseSpans, keepFilled]
    · next hrest => cases habsorb.symm.trans hrest
  rw [Change.rebase_outline, Change.rebase_eq, if_pos hsame, if_neg hsome, hwalk]

theorem obtainable_keepFilled : Revision.Obtainable (fun _ => True) keepFilled := by
  have hall : Revision.Obtainable (fun _ => True) (replaceAll 9223372036854775809) :=
    obtainable_replaceAll (by decide)
  exact .rebase false obtainable_joined (.outline hall) (filled_rebase_replaceAll (by decide))
    ⟨trivial, trivial⟩

/-- A revision that removes the only character of a document. -/
def removeOnly : Revision :=
  ⟨[⟨1, 0, Rope.empty⟩]⟩

theorem obtainable_removeOnly : Revision.Obtainable (fun _ => True) removeOnly := by
  have hread : Revision.ofJson (.arr [.arr [.int 1]]) = .ok removeOnly := rfl
  exact .ofJson hread ⟨trivial, trivial⟩ fun _ _ _ _ _ _ => trivial

/-- What is inserted without being told of is lost with the character that it was left with. -/
theorem not_rebase_preserves :
    ∃ a b, Revision.Obtainable (fun _ => True) a ∧ Revision.Obtainable (fun _ => True) b
      ∧ a.length = b.length ∧ ∃ m : Revision, a.rebase b.outline false = .ok m
        ∧ m.inserted.flatMap Rope.items = []
        ∧ a.inserted.flatMap Rope.items = Block.items ["x"] := by
  refine ⟨keepFilled, removeOnly, obtainable_keepFilled, obtainable_removeOnly, rfl, ⟨[]⟩,
    ?_, rfl, rfl⟩
  have hsame : removeOnly.length = keepFilled.length := rfl
  have hsome : ¬ removeOnly.isEmpty = true := Bool.false_ne_true
  rw [Change.rebase_outline, Change.rebase_eq, if_pos hsame, if_neg hsome]
  simp [removeOnly, keepFilled, Change.rebaseSpans, Rest.ofSpan, Span.push, Span.attach,
    Span.pushRun, Span.isVoid, Span.keptMark, Span.endMark, Span.keep, Change.absorb,
    Change.yieldsTo]

end Revision

end TextRevision
