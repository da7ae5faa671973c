import TextRevision.Change.Compose
import TextRevision.Change.Rebase
import TextRevision.Proofs.Change.Outcome
import TextRevision.Proofs.Change.Run

/-!
# Changes without their insertions

Neither walk over two changes looks at what they insert: it takes the same branches for any changes
with the same lengths and counts. So a function of insertions that keeps what is done to them can be
applied in front of a walk as well as behind it, and leaving the insertions out is such a function.
A change is rebased over the outline of another as it is over the other change itself, and outlines
are rebased and put behind each other as the changes are whose outlines they are.

## Main definitions

- `Insertion.Hom`: a function of insertions that keeps what is done to them

## Main statements

- `Change.rebaseSpans_map`, `Change.composeSpans_map`: a walk over spans with other insertions
- `Change.rebase_outline`, `Change.outline_rebase`, `Change.andThen_outline`
-/

namespace TextRevision

variable {α β γ δ : Type}

/-- A function of insertions that keeps what is done to them in a walk. -/
structure Insertion.Hom [Insertion α] [Insertion γ] (f : α → γ) : Prop where
  empty : f Insertion.empty = Insertion.empty
  join : ∀ x y, f (Insertion.join x y) = Insertion.join (f x) (f y)
  extract : ∀ x start stop, f (Insertion.extract x start stop) = Insertion.extract (f x) start stop

theorem Insertion.hom_id [Insertion α] : Insertion.Hom (id : α → α) :=
  ⟨rfl, fun _ _ => rfl, fun _ _ _ => rfl⟩

/-- Leaving insertions out keeps what is done to them: nothing is left of them. -/
theorem Insertion.hom_shape [Insertion α] : Insertion.Hom fun _ : α => () :=
  ⟨rfl, fun _ _ => rfl, fun _ _ _ => rfl⟩

namespace Span

variable [Insertion α] [Insertion γ] {f : α → γ}

theorem map_keep (hf : Insertion.Hom f) (length : Nat) :
    (keep length : Span α).map f = keep length := by
  rw [map, keep, keep, hf.empty]

/-- What a run inserts does not decide how it is put behind others. -/
theorem map_push (hf : Insertion.Hom f) (join : Bool) (spans : List (Span α)) (s : Span α) :
    (push join spans s).map (Span.map f) = push join (spans.map (Span.map f)) (s.map f) := by
  have hvoid : (s.map f).isVoid = s.isVoid := rfl
  have hattach : ∀ spans : List (Span α),
      (attach s.text spans).map (Span.map f) = attach (f s.text) (spans.map (Span.map f)) := by
    intro spans
    cases spans with
    | nil => rfl
    | cons last rest =>
      rw [attach, List.map_cons, map, hf.join]
      rfl
  rw [push, push, hattach]
  congr 1
  unfold pushRun
  rw [hvoid]
  split
  · rfl
  · cases spans with
    | nil => rw [List.map_nil, List.map_cons, map, hf.empty]; rfl
    | cons last rest =>
      have hlast : (last :: rest).map (Span.map f) = last.map f :: rest.map (Span.map f) := rfl
      have hcount : (s.map f).count = s.count ∧ (last.map f).count = last.count := ⟨rfl, rfl⟩
      have hlength : (s.map f).length = s.length ∧ (last.map f).length = last.length := ⟨rfl, rfl⟩
      rw [hlast]
      dsimp only
      rw [hcount.1, hcount.2, hlength.1, hlength.2]
      split
      · rfl
      · split
        · rfl
        · rw [List.map_cons, map, hf.empty]
          rfl

/-- Only the shape of a run decides how it is put behind others. -/
theorem map_shape_push (join : Bool) (spans : List (Span α)) (s : Span α) :
    (push join spans s).map shape = push join (spans.map shape) s.shape :=
  map_push Insertion.hom_shape join spans s

end Span

namespace Rest

variable (f : β → δ)

/-- The rest of a span with another insertion. -/
def map (r : Rest β) : Rest δ :=
  ⟨r.length, r.count, f r.text, r.passed⟩

@[simp] theorem length_map (r : Rest β) : (r.map f).length = r.length := rfl

@[simp] theorem count_map (r : Rest β) : (r.map f).count = r.count := rfl

theorem forward_map (len : Nat) (bs : List (Rest β)) :
    forward len (bs.map (map f)) = (forward len bs).map (map f) := by
  cases bs with
  | nil => rfl
  | cons b bs =>
    rw [List.map_cons, forward, forward, length_map]
    by_cases hall : len = b.length
    · rw [if_pos hall, if_pos hall]
    · rw [if_neg hall, if_neg hall]
      rfl

theorem forward_cons_map (len : Nat) (b : Rest β) (bs : List (Rest β)) :
    forward len (b.map f :: bs.map (map f)) = (forward len (b :: bs)).map (map f) :=
  forward_map f len (b :: bs)

theorem forwardNew_map (len : Nat) (bs : List (Rest β)) :
    forwardNew len (bs.map (map f)) = (forwardNew len bs).map (map f) := by
  cases bs with
  | nil => rfl
  | cons b bs =>
    rw [List.map_cons, forwardNew, forwardNew, count_map]
    split
    · exact forward_map f len (b :: bs)
    · split
      · rfl
      · simp only [List.map_cons, map]

end Rest

/-- How a walk ends whose result is seen through a function. -/
def Walk.map (f : γ → δ) : Walk γ → Walk δ
  | finished result => finished (f result)
  | mismatch => mismatch
  | stalled => stalled

namespace Change

section Walks

theorem passKept_map (f : β → δ) (left : Nat) (bs : List (Rest β)) :
    passKept left (bs.map (Rest.map f))
      = ⟨(passKept left bs).kept, (passKept left bs).left,
          (passKept left bs).spans.map (Rest.map f)⟩ := by
  fun_induction passKept left bs with
  | case1 left => rfl
  | case2 b bs => rfl
  | case3 left b bs hpos hkept hle later ih =>
    rw [List.map_cons, passKept, Rest.count_map, Rest.length_map, if_neg hpos, if_pos hkept,
      if_pos hle]
    exact congrArg (fun later : Passage δ =>
      Passage.mk (b.length + later.kept) later.left later.spans) ih
  | case4 left b bs hpos hkept hlt =>
    rw [List.map_cons, passKept, Rest.count_map, Rest.length_map, if_neg hpos, if_pos hkept,
      if_neg hlt]
    exact congrArg _ (Rest.forward_map f left (b :: bs))
  | case5 left b bs hpos hkept hdel ih =>
    rw [List.map_cons, passKept, Rest.count_map, Rest.length_map, if_neg hpos, if_neg hkept,
      if_pos hdel]
    exact ih
  | case6 left b bs hpos hkept hput =>
    rw [List.map_cons, passKept, Rest.count_map, Rest.length_map, if_neg hpos, if_neg hkept,
      if_neg hput]

variable [Insertion α] [Insertion γ] {f : α → γ}

theorem absorb_map (hf : Insertion.Hom f) (as : List (Rest α)) (told : Bool) (len : Nat)
    (spans : List (Span α)) :
    absorb (as.map (Rest.map f)) told len (spans.map (Span.map f))
      = (absorb as told len spans).map fun (as, told, spans) =>
          (as.map (Rest.map f), told, spans.map (Span.map f)) := by
  fun_induction absorb as told len spans with
  | case1 as told spans => rw [absorb, Option.map_some]
  | case2 told len spans => rfl
  | case3 a as told len spans hle ih =>
    rw [List.map_cons, absorb, Rest.length_map, Rest.count_map, if_pos hle, ← ih,
      apply_ite (List.map (Span.map f)), Span.map_push hf]
    rfl
  | case4 a as told len spans hlt =>
    have hforward := Rest.forward_map f (len + 1) (a :: as)
    rw [List.map_cons] at hforward ⊢
    rw [absorb, Rest.length_map, if_neg hlt, hforward]
    rfl

theorem absorb_cons_map (hf : Insertion.Hom f) (a : Rest α) (as : List (Rest α)) (told : Bool)
    (len : Nat) (spans : List (Span α)) :
    absorb (a.map f :: as.map (Rest.map f)) told len (spans.map (Span.map f))
      = (absorb (a :: as) told len spans).map fun (as, told, spans) =>
          (as.map (Rest.map f), told, spans.map (Span.map f)) :=
  absorb_map hf (a :: as) told len spans

/-- A replaced run of which the insertion was told inserts nothing more, whatever it inserted. -/
theorem push_put_map (hf : Insertion.Hom f) (told : Bool) (kept : Nat) (a : Rest α)
    (spans : List (Span α)) :
    Span.push false (spans.map (Span.map f))
        (if told = true then ⟨kept, 0, Insertion.empty⟩ else ⟨kept, a.count, (a.map f).text⟩)
      = (Span.push false spans
          (if told = true then ⟨kept, 0, Insertion.empty⟩ else ⟨kept, a.count, a.text⟩)).map
            (Span.map f) := by
  rw [Span.map_push hf]
  cases told with
  | false => rfl
  | true => rw [if_pos rfl, if_pos rfl, Span.map, hf.empty]

/-- A kept run has no insertion to look at. -/
theorem push_keep_map (hf : Insertion.Hom f) (spans : List (Span α)) (len : Nat) :
    Span.push false (spans.map (Span.map f)) (.keep len)
      = (Span.push false spans (.keep len)).map (Span.map f) := by
  rw [Span.map_push hf, Span.map_keep hf]

/-- The walk that rebases a change looks at the insertions of neither change. -/
theorem rebaseSpans_map (hf : Insertion.Hom f) (g : β → δ) (before : Bool) (as : List (Rest α))
    (told : Bool) (bs : List (Rest β)) (spans : List (Span α)) :
    rebaseSpans before (as.map (Rest.map f)) told (bs.map (Rest.map g)) (spans.map (Span.map f))
      = (rebaseSpans before as told bs spans).map (List.map (Span.map f)) := by
  -- The walk takes the same branch on both sides.
  fun_induction rebaseSpans before as told bs spans with
  | case1 told spans => rw [List.map_nil, List.map_nil, rebaseSpans, Walk.map, List.map_reverse]
  | case2 told b bs spans hpos =>
    rw [List.map_nil, List.map_cons, rebaseSpans, Rest.length_map, if_pos hpos, Walk.map]
  | case3 told b bs spans hzero hput ih =>
    rw [List.map_nil, List.map_cons, rebaseSpans, Rest.length_map, Rest.count_map, if_neg hzero,
      if_pos hput, push_keep_map hf]
    exact ih
  | case4 told b bs spans hzero hput hend =>
    rw [List.map_nil, List.map_cons, rebaseSpans, Rest.length_map, Rest.count_map, if_neg hzero,
      if_neg hput, if_pos hend, Walk.map, List.map_reverse]
  | case5 told b bs spans hzero hput hend =>
    rw [List.map_nil, List.map_cons, rebaseSpans, Rest.length_map, Rest.count_map, if_neg hzero,
      if_neg hput, if_neg hend, Walk.map]
  | case6 a as told spans hpos =>
    rw [List.map_nil, List.map_cons, rebaseSpans, Rest.length_map, if_pos hpos, Walk.map]
  | case7 a as told spans hzero hput ih =>
    rw [List.map_nil, List.map_cons, rebaseSpans, Rest.length_map, Rest.count_map, if_neg hzero,
      if_pos hput]
    refine Eq.trans ?_ ih
    cases told with
    | false => exact congrArg _ (Span.map_push hf false spans ⟨0, a.count, a.text⟩).symm
    | true => rfl
  | case8 a as told spans hzero hput hend =>
    rw [List.map_nil, List.map_cons, rebaseSpans, Rest.length_map, Rest.count_map, if_neg hzero,
      if_neg hput, if_pos hend, Walk.map, List.map_reverse]
  | case9 a as told spans hzero hput hend =>
    rw [List.map_nil, List.map_cons, rebaseSpans, Rest.length_map, Rest.count_map, if_neg hzero,
      if_neg hput, if_neg hend, Walk.map]
  | case10 a as told b bs spans hend =>
    exact rebaseSpans_of_ended (a := a.map f) (b := b.map g) hend
  | case11 a as told b bs spans hend hkept spans' hle ih =>
    refine (rebaseSpans_of_kept (a := a.map f) (b := b.map g) hend hkept).trans ?_
    rw [Rest.length_map, Rest.length_map, if_pos hle, push_keep_map hf, Rest.forward_cons_map]
    exact ih
  | case12 a as told b bs spans hend hkept spans' hlt ih =>
    refine (rebaseSpans_of_kept (a := a.map f) (b := b.map g) hend hkept).trans ?_
    rw [Rest.length_map, Rest.length_map, if_neg hlt, push_keep_map hf, Rest.forward_cons_map]
    exact ih
  | case13 a as told b bs spans hend hkept hyields as' told' spans' habsorb ih =>
    refine (rebaseSpans_of_yields (a := a.map f) (b := b.map g) hend hkept hyields).trans ?_
    rw [Rest.length_map, Rest.count_map, push_keep_map hf, absorb_cons_map hf, habsorb]
    exact ih
  | case14 a as told b bs spans hend hkept hyields habsorb =>
    refine (rebaseSpans_of_yields (a := a.map f) (b := b.map g) hend hkept hyields).trans ?_
    rw [Rest.length_map, Rest.count_map, push_keep_map hf, absorb_cons_map hf, habsorb]
    rfl
  | case15 a as told b bs spans hend hkept hyields hput met spans' hleft ih =>
    refine (rebaseSpans_of_replaces (a := a.map f) (b := b.map g) hend hkept hyields hput
      (passKept_map g a.length (b :: bs)) (push_put_map hf told met.kept a spans)).trans ?_
    rw [if_pos hleft]
    exact ih
  | case16 a as told b bs spans hend hkept hyields hput met hleft hstall =>
    refine (rebaseSpans_of_replaces (a := a.map f) (b := b.map g) hend hkept hyields hput
      (passKept_map g a.length (b :: bs)) (push_put_map hf told met.kept a spans)).trans ?_
    rw [if_neg hleft, List.length_map, List.length_map, if_pos hstall]
    rfl
  | case17 a as told b bs spans hend hkept hyields hput met spans' hleft hstall ih =>
    refine (rebaseSpans_of_replaces (a := a.map f) (b := b.map g) hend hkept hyields hput
      (passKept_map g a.length (b :: bs)) (push_put_map hf told met.kept a spans)).trans ?_
    rw [if_neg hleft, List.length_map, List.length_map, if_neg hstall, Rest.forward_cons_map]
    exact ih
  | case18 a as told b bs spans hend hkept hyields hput hends =>
    refine (rebaseSpans_of_left (a := a.map f) (b := b.map g) hend hkept hyields hput).trans ?_
    exact (if_pos hends).trans (congrArg Walk.finished (List.map_reverse ..).symm)
  | case19 a as told b bs spans hend hkept hyields hput hends =>
    refine (rebaseSpans_of_left (a := a.map f) (b := b.map g) hend hkept hyields hput).trans ?_
    exact if_neg hends

theorem map_meet (hf : Insertion.Hom f) (len : Nat) (a b : Rest α) :
    (meet len a b).map f = meet len (a.map f) (b.map f) := by
  have hremainder : (b.map f).remainder = b.remainder := rfl
  rw [meet, meet, Rest.count_map, Rest.count_map, hremainder]
  split
  · rw [Span.map, apply_ite f, hf.empty]
    rfl
  · dsimp only
    split
    · rw [Span.map, hf.extract, Rest.map]
    · rw [Span.map, apply_ite f, hf.empty]
      rfl

/-- The walk that puts one change behind another does not look at insertions. -/
theorem composeSpans_map (hf : Insertion.Hom f) (as bs : List (Rest α)) (joined : Bool)
    (spans : List (Span α)) :
    composeSpans (as.map (Rest.map f)) (bs.map (Rest.map f)) joined (spans.map (Span.map f))
      = (composeSpans as bs joined spans).map (List.map (Span.map f)) := by
  have hdelete : ∀ (spans : List (Span α)) (joined : Bool) (len : Nat),
      Span.push joined (spans.map (Span.map f)) ⟨len, 0, Insertion.empty⟩
        = (Span.push joined spans ⟨len, 0, Insertion.empty⟩).map (Span.map f) := by
    intro spans joined len
    rw [Span.map_push hf, Span.map, hf.empty]
  fun_induction composeSpans as bs joined spans with
  | case1 joined spans => rw [List.map_nil, composeSpans, Walk.map, List.map_reverse]
  | case2 b bs joined spans hend =>
    rw [List.map_nil, List.map_cons, composeSpans, Rest.count_map, if_pos hend, Walk.map,
      List.map_reverse]
  | case3 b bs joined spans hend hzero ih =>
    rw [List.map_nil, List.map_cons, composeSpans, Rest.count_map, Rest.length_map,
      if_neg hend, if_pos hzero, ← ih, Span.map_push hf]
    rfl
  | case4 b bs joined spans hend hpos =>
    rw [List.map_nil, List.map_cons, composeSpans, Rest.count_map, Rest.length_map,
      if_neg hend, if_neg hpos, Walk.map]
  | case5 a as joined spans hzero ih =>
    rw [List.map_nil, List.map_cons, composeSpans, Rest.count_map, Rest.length_map,
      if_pos hzero, hdelete]
    exact ih
  | case6 a as joined spans hzero hend =>
    rw [List.map_nil, List.map_cons, composeSpans, Rest.count_map, if_neg hzero, if_pos hend,
      Walk.map, List.map_reverse]
  | case7 a as joined spans hzero hend =>
    rw [List.map_nil, List.map_cons, composeSpans, Rest.count_map, if_neg hzero, if_neg hend,
      Walk.map]
  | case8 a as b bs joined spans hzero ih =>
    rw [List.map_cons, List.map_cons, composeSpans, Rest.count_map, Rest.length_map,
      if_pos hzero, hdelete]
    exact ih
  | case9 a as b bs joined spans hzero hfree ih =>
    rw [List.map_cons, List.map_cons, composeSpans, Rest.count_map, Rest.count_map,
      Rest.length_map f a, Rest.length_map f b, if_neg hzero, if_pos hfree, ← ih, Span.map_push hf]
    rfl
  | case10 a as b bs joined spans hzero hfree hend =>
    rw [List.map_cons, List.map_cons, composeSpans, Rest.count_map, Rest.count_map,
      Rest.length_map f a, Rest.length_map f b, if_neg hzero, if_neg hfree, if_pos hend, Walk.map,
      List.map_reverse]
  | case11 a as b bs joined spans hzero hfree hboth hend =>
    rw [List.map_cons, List.map_cons, composeSpans, Rest.count_map, Rest.count_map,
      Rest.length_map f a, Rest.length_map f b, if_neg hzero, if_neg hfree, if_neg hboth,
      if_pos hend, Walk.map]
  | case12 a as b bs joined spans hzero hfree hboth hend len hstall =>
    rw [List.map_cons, List.map_cons, composeSpans, Rest.count_map, Rest.count_map,
      Rest.length_map f a, Rest.length_map f b, if_neg hzero, if_neg hfree, if_neg hboth,
      if_neg hend]
    exact if_pos hstall
  | case13 a as b bs joined spans hzero hfree hboth hend len hstall spans' ih =>
    have hpush : Span.push joined (spans.map (Span.map f)) (meet len (a.map f) (b.map f))
        = spans'.map (Span.map f) := by
      rw [← map_meet hf, ← Span.map_push hf]
    have hopen : staysOpen len (a.map f) (b.map f) = staysOpen len a b := rfl
    have has := Rest.forwardNew_map f len (a :: as)
    have hbs := Rest.forward_map f len (b :: bs)
    rw [List.map_cons] at has hbs
    rw [List.map_cons, List.map_cons, composeSpans, Rest.count_map, Rest.count_map,
      Rest.length_map f a, Rest.length_map f b, if_neg hzero, if_neg hfree, if_neg hboth,
      if_neg hend]
    refine (if_neg hstall).trans ?_
    dsimp only
    rw [show min (a.map f).newLength b.length = len from rfl, hpush, hopen, has, hbs,
      List.length_map, List.length_map]
    exact ih

end Walks

@[simp] theorem length_outline (c : Change α) : c.outline.length = c.length := by
  rw [length, length, outline, sumBy_map]
  rfl

@[simp] theorem newLength_outline (c : Change α) : c.outline.newLength = c.newLength := by
  rw [newLength, newLength, outline, sumBy_map]
  rfl

theorem isEmpty_outline (c : Change α) : c.outline.isEmpty = c.isEmpty := by
  obtain ⟨spans⟩ := c
  cases spans with
  | nil => rfl
  | cons s rest =>
    cases rest with
    | nil => rfl
    | cons t rest => rfl

theorem rests_outline (c : Change α) :
    c.outline.spans.map Rest.ofSpan = (c.spans.map Rest.ofSpan).map (Rest.map fun _ => ()) := by
  simp only [outline, List.map_map]
  rfl

/-- A change can be rebased over another of which only the outline is known. -/
theorem rebase_outline [Insertion α] [Insertion β] (c : Change α) (d : Change β)
    (before : Bool) : c.rebase d.outline before = c.rebase d before := by
  have hwalk := rebaseSpans_map (Insertion.hom_id (α := α)) (fun _ : β => ()) before
    (c.spans.map Rest.ofSpan) false (d.spans.map Rest.ofSpan) []
  have hsame : ∀ as : List (Rest α), as.map (Rest.map id) = as := fun as => List.map_id as
  have hspans : ∀ walk : Walk (List (Span α)), walk.map (List.map (Span.map id)) = walk := by
    intro walk
    cases walk with
    | finished spans => exact congrArg Walk.finished (List.map_id spans)
    | mismatch => rfl
    | stalled => rfl
  rw [hsame, hspans, List.map_nil] at hwalk
  rw [rebase_eq, rebase_eq, length_outline, isEmpty_outline, rests_outline, hwalk]

/-- The outline of a change that is rebased is the outline of the change, rebased. -/
theorem outline_rebase [Insertion α] [Insertion β] (c : Change α) (d : Change β)
    (before : Bool) : c.outline.rebase d.outline before = (c.rebase d before).map outline := by
  have hwalk := rebaseSpans_map (Insertion.hom_shape (α := α)) (fun _ : β => ()) before
    (c.spans.map Rest.ofSpan) false (d.spans.map Rest.ofSpan) []
  rw [List.map_nil] at hwalk
  rw [rebase_eq, rebase_eq, length_outline, length_outline, isEmpty_outline, rests_outline,
    rests_outline, hwalk]
  split
  · split
    · rfl
    · cases rebaseSpans before (c.spans.map Rest.ofSpan) false (d.spans.map Rest.ofSpan) [] <;> rfl
  · rfl

/-- The outline of one change behind another is the outline of the one behind that of the other. -/
theorem andThen_outline [Insertion α] (c d : Change α) :
    c.outline.andThen d.outline = (c.andThen d).map outline := by
  have hwalk := composeSpans_map (Insertion.hom_shape (α := α)) (c.spans.map Rest.ofSpan)
    (d.spans.map Rest.ofSpan) false []
  rw [List.map_nil] at hwalk
  rw [andThen_eq, andThen_eq, newLength_outline, length_outline, isEmpty_outline, isEmpty_outline,
    rests_outline, rests_outline, hwalk]
  split
  · split
    · rfl
    · split
      · rfl
      · cases composeSpans (c.spans.map Rest.ofSpan) (d.spans.map Rest.ofSpan) false [] <;> rfl
  · rfl

end Change

end TextRevision
