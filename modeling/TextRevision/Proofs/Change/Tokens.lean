import TextRevision.Change.Walk
import TextRevision.Proofs.Change.Pushing

/-!
# Changes, token by token

What a change does is told item by item: each item that it inserts and each that it passes. The
tokens say of an insertion whether the run that makes it removes something too, for a concurrent
insertion comes before such a run and behind every other. Otherwise they forget how a change is
divided into spans. So a span that is put behind others puts its tokens behind theirs, whatever it
is merged into.

## Main definitions

- `Token`, `Token.perform`
- `Reading.tokens`: the tokens of what is left of spans
- `Reading.Fresh`: a span of which no insertion was told

## Main statements

- `Reading.written_push`, `Reading.written_push_joined`
- `Reading.perform_tokens`: the tokens of spans do what the spans do
-/

namespace TextRevision

variable {α β : Type}

/-- What a change does at a place of a sequence, with an item of it or a new one. -/
inductive Token (β : Type) where
  /-- Inserts an item, in the place of items that are removed or between others. -/
  | put (replacing : Bool) (x : β)
  /-- Passes an item. -/
  | pass (kept : Bool)

/-- What tokens make of a sequence. -/
def Token.perform : List (Token β) → List β → List β
  | [], _ => []
  | .put _ x :: ts, doc => x :: perform ts doc
  | .pass kept :: ts, doc => (if kept then doc.take 1 else []) ++ perform ts (doc.drop 1)

namespace Token

/-- A run of passed items is told in two parts. -/
theorem passes_eq_append {m n : Nat} (h : m ≤ n) (kept : Bool) :
    List.replicate n (pass kept : Token β)
      = List.replicate m (pass kept) ++ List.replicate (n - m) (pass kept) := by
  rw [← List.replicate_add, Nat.add_sub_cancel' h]

theorem perform_puts (replacing : Bool) (xs : List β) (ts : List (Token β)) (doc : List β) :
    perform (xs.map (put replacing) ++ ts) doc = xs ++ perform ts doc := by
  induction xs with
  | nil => rfl
  | cons x xs ih => exact congrArg (x :: ·) ih

theorem perform_passes (kept : Bool) (n : Nat) (ts : List (Token β)) (doc : List β) :
    perform (List.replicate n (pass kept) ++ ts) doc
      = (if kept then doc.take n else []) ++ perform ts (doc.drop n) := by
  induction n generalizing doc with
  | zero => cases kept <;> rfl
  | succ n ih =>
    rw [List.replicate_succ, List.cons_append, perform, ih, List.drop_drop, Nat.add_comm 1 n,
      ← List.append_assoc]
    congr 1
    cases kept with
    | false => rfl
    | true =>
      rw [if_pos rfl, if_pos rfl, if_pos rfl, Nat.add_comm n 1]
      exact List.take_add.symm

end Token

namespace Reading

variable [Insertion α] (I : Reading α β)

/-- The tokens of what is left of a span. An insertion comes before the items that are removed for
it, and goes with the first of them. -/
def tokensOf (r : Rest α) : List (Token β) :=
  if r.count < 0 then List.replicate r.length (.pass true)
  else
    (if r.passed = 0 then (I.content r.text r.count.toNat).map (.put (0 < r.length)) else [])
      ++ List.replicate r.length (.pass false)

/-- The tokens of what is left of spans. -/
def tokens (rs : List (Rest α)) : List (Token β) :=
  rs.flatMap I.tokensOf

/-- The tokens of spans that are told newest first. -/
def written (spans : List (Span α)) : List (Token β) :=
  I.tokens (spans.reverse.map Rest.ofSpan)

/-- A span of which no insertion was told. -/
structure Fresh (r : Rest α) : Prop where
  mark : Span.keptMark ≤ r.count
  proper : I.Proper r.text r.count.toNat
  not_void : 0 < r.length ∨ 0 < r.count
  whole : 0 ≤ r.count → r.passed = 0

variable {I} {r : Rest α} {rs : List (Rest α)} {len : Nat}

@[simp] theorem tokens_nil : I.tokens [] = [] := rfl

theorem tokens_cons (r : Rest α) (rs : List (Rest α)) :
    I.tokens (r :: rs) = I.tokensOf r ++ I.tokens rs :=
  List.flatMap_cons

theorem tokensOf_kept (h : r.count < 0) : I.tokensOf r = List.replicate r.length (.pass true) :=
  if_pos h

theorem tokensOf_put (h : 0 ≤ r.count) (hpassed : r.passed = 0) :
    I.tokensOf r = (I.content r.text r.count.toNat).map (.put (0 < r.length))
      ++ List.replicate r.length (.pass false) := by
  rw [tokensOf, if_neg (Int.not_lt.mpr h), if_pos hpassed]

theorem tokensOf_passed (h : 0 ≤ r.count) (hpassed : 0 < r.passed) :
    I.tokensOf r = List.replicate r.length (.pass false) := by
  rw [tokensOf, if_neg (Int.not_lt.mpr h), if_neg (Nat.ne_of_gt hpassed), List.nil_append]

theorem Fresh.kept (h : I.Fresh r) (hkept : r.count < 0) : 0 < r.length := by
  have := h.not_void
  omega

theorem Fresh.fit_text (h : I.Fresh r) (n : Nat) : I.Fit ⟨n, r.count, r.text⟩ :=
  ⟨h.mark, h.proper⟩

theorem Sound.fresh {s : Span α} (h : I.Sound s) : I.Fresh (Rest.ofSpan s) where
  mark := h.mark
  proper := h.proper
  not_void := Span.isVoid_eq_false_iff.mp h.not_void
  whole _ := rfl

/-- What is left behind some items of a kept run is fresh. -/
theorem Fresh.forward (h : I.Fresh r) (hrs : ∀ t ∈ rs, I.Fresh t) (hkept : r.count < 0)
    (hlen : len ≤ r.length) : ∀ t ∈ Rest.forward len (r :: rs), I.Fresh t := by
  rw [Rest.forward]
  split
  · exact hrs
  · next hpart =>
    refine List.forall_mem_cons.mpr ⟨⟨h.mark, h.proper, ?_, fun hput => ?_⟩, hrs⟩
    · exact Or.inl (Nat.sub_pos_of_lt (by omega))
    · exact absurd hkept (Int.not_lt.mpr hput)

/-- Some items of a kept run are passed. -/
theorem tokens_forward_kept (hkept : r.count < 0) (hlen : len ≤ r.length) :
    I.tokens (r :: rs)
      = List.replicate len (.pass true) ++ I.tokens (Rest.forward len (r :: rs)) := by
  rw [tokens_cons, tokensOf_kept hkept, Rest.forward]
  split
  · next hall => rw [hall]
  · have hrest : (Rest.mk (r.length - len) r.count r.text (r.passed + len)).count < 0 := hkept
    rw [tokens_cons, tokensOf_kept hrest, ← List.append_assoc, ← List.replicate_add,
      Nat.add_sub_cancel' hlen]

/-- Some items of a replaced run are passed, and its insertion goes with them. -/
theorem tokens_forward_put (hput : 0 ≤ r.count) (hpos : 0 < len) (hlen : len ≤ r.length) :
    I.tokens (r :: rs)
      = (if r.passed = 0 then I.content r.text r.count.toNat else []).map (.put true)
        ++ (List.replicate len (.pass false) ++ I.tokens (Rest.forward len (r :: rs))) := by
  have hreplacing : decide (0 < r.length) = true := by
    rw [decide_eq_true_eq]
    omega
  have hrest : List.replicate len (.pass false) ++ I.tokens (Rest.forward len (r :: rs))
      = List.replicate r.length (.pass false) ++ I.tokens rs := by
    rw [Rest.forward]
    split
    · next hall => rw [hall]
    · have hcount : 0 ≤ (Rest.mk (r.length - len) r.count r.text (r.passed + len)).count := hput
      rw [tokens_cons, tokensOf_passed hcount (show 0 < r.passed + len by omega),
        ← List.append_assoc, ← List.replicate_add, Nat.add_sub_cancel' hlen]
  rw [hrest, tokens_cons, tokensOf, if_neg (Int.not_lt.mpr hput), hreplacing, List.append_assoc]
  split <;> rfl

section Spans

variable {n : Nat} {count : Int} {text x y : α}

theorem tokensOf_keep (n : Nat) :
    I.tokensOf (Rest.ofSpan (Span.keep n)) = List.replicate n (.pass true) :=
  tokensOf_kept (show Span.keptMark < 0 by decide)

theorem tokensOf_span_kept (hkept : count < 0) :
    I.tokensOf (Rest.ofSpan ⟨n, count, text⟩) = List.replicate n (.pass true) :=
  tokensOf_kept hkept

theorem tokensOf_span_put (hput : 0 ≤ count) :
    I.tokensOf (Rest.ofSpan ⟨n, count, text⟩)
      = (I.content text count.toNat).map (.put (0 < n)) ++ List.replicate n (.pass false) :=
  tokensOf_put hput rfl

theorem tokensOf_deletion (h : I.Proper text 0) :
    I.tokensOf (Rest.ofSpan ⟨n, 0, text⟩) = List.replicate n (.pass false) := by
  rw [tokensOf_span_put (Int.le_refl 0), Int.toNat_zero, content_zero h]
  rfl

/-- The tokens of a run only depend on what its insertion stands for. -/
theorem tokensOf_congr (h : I.content x count.toNat = I.content y count.toNat) :
    I.tokensOf (Rest.ofSpan ⟨n, count, x⟩) = I.tokensOf (Rest.ofSpan ⟨n, count, y⟩) := by
  by_cases hkept : count < 0
  · rw [tokensOf_span_kept hkept, tokensOf_span_kept hkept]
  · rw [tokensOf_span_put (Int.not_lt.mp hkept), tokensOf_span_put (Int.not_lt.mp hkept), h]

/-- A void span has no tokens. -/
theorem tokensOf_void {s : Span α} (h : I.Fit s) (hvoid : s.isVoid = true) :
    I.tokensOf (Rest.ofSpan s) = [] := by
  obtain ⟨n, count, text⟩ := s
  obtain ⟨rfl, hcount⟩ : n = 0 ∧ count ≤ 0 := Span.isVoid_iff.mp hvoid
  by_cases hkept : count < 0
  · exact tokensOf_span_kept hkept
  · obtain rfl : count = 0 := by omega
    exact tokensOf_deletion h.proper

/-- Two kept runs or two deletions are told as one. -/
theorem tokensOf_same {s t : Span α} (hs : I.Fit s) (ht : I.Fit t) (hcount : s.count ≤ 0)
    (hsame : s.count = t.count) :
    I.tokensOf (Rest.ofSpan ⟨t.length + s.length, t.count, Insertion.join t.text s.text⟩)
      = I.tokensOf (Rest.ofSpan t) ++ I.tokensOf (Rest.ofSpan s) := by
  obtain ⟨m, count, x⟩ := s
  obtain ⟨n, _, y⟩ := t
  obtain rfl : count = _ := hsame
  dsimp only at hcount ⊢
  by_cases hkept : count < 0
  · rw [tokensOf_span_kept hkept, tokensOf_span_kept hkept, tokensOf_span_kept hkept,
      List.replicate_add]
  · obtain rfl : count = 0 := by omega
    have hx : I.Proper x 0 := hs.proper
    have hy : I.Proper y 0 := ht.proper
    rw [tokensOf_deletion hx, tokensOf_deletion hy, tokensOf_deletion (I.join _ _ _ _ hy hx).1,
      List.replicate_add]

/-- Two insertions at one place are told as one. -/
theorem tokensOf_inserted {s t : Span α} (hs : I.Sound s) (ht : I.Sound t) (hlength : s.length = 0)
    (htlength : t.length = 0) :
    I.tokensOf (Rest.ofSpan ⟨t.length + s.length, t.count + s.count,
        Insertion.join t.text s.text⟩)
      = I.tokensOf (Rest.ofSpan t) ++ I.tokensOf (Rest.ofSpan s) := by
  have hvoid := hs.not_void
  have htvoid := ht.not_void
  rw [Span.isVoid_eq_false_iff] at hvoid htvoid
  obtain ⟨m, count, x⟩ := s
  obtain ⟨n, count', y⟩ := t
  obtain rfl : m = 0 := hlength
  obtain rfl : n = 0 := htlength
  have hput : 0 ≤ count := Int.le_of_lt (hvoid.resolve_left (Nat.lt_irrefl 0))
  have hput' : 0 ≤ count' := Int.le_of_lt (htvoid.resolve_left (Nat.lt_irrefl 0))
  obtain ⟨-, hcontent⟩ := I.join _ _ _ _ ht.proper hs.proper
  dsimp only at hcontent ⊢
  rw [tokensOf_span_put hput, tokensOf_span_put hput',
    tokensOf_span_put (Int.add_nonneg hput' hput), Int.toNat_add hput' hput, hcontent]
  simp

/-- A replaced run that removes more items. -/
theorem tokensOf_extended {t : Span α} (ht : I.Sound t) (hput : 0 ≤ t.count) (hpos : 0 < t.length)
    (n : Nat) :
    I.tokensOf (Rest.ofSpan ⟨t.length + n, t.count, Insertion.join t.text Insertion.empty⟩)
      = I.tokensOf (Rest.ofSpan t) ++ List.replicate n (.pass false) := by
  obtain ⟨m, count, x⟩ := t
  obtain ⟨-, hcontent⟩ := I.join _ _ _ _ ht.proper I.empty
  rw [Nat.add_zero, content_empty, List.append_nil] at hcontent
  dsimp only at hput hpos hcontent ⊢
  have hmore : decide (0 < m + n) = decide (0 < m) := by
    rw [decide_eq_decide]
    omega
  rw [tokensOf_span_put hput, tokensOf_span_put hput, hcontent, hmore, List.replicate_add,
    List.append_assoc]

end Spans

theorem written_cons (s : Span α) (spans : List (Span α)) :
    I.written (s :: spans) = I.written spans ++ I.tokensOf (Rest.ofSpan s) := by
  rw [written, written, List.reverse_cons, List.map_append, tokens, tokens, List.flatMap_append,
    List.map_singleton, List.flatMap_singleton]

section Push

variable {spans : List (Span α)} {s : Span α}

/-- A span that is merged into the newest one. -/
theorem written_merge {last merged : Span α} {rest : List (Span α)} {ts : List (Token β)}
    (h : I.tokensOf (Rest.ofSpan merged) = I.tokensOf (Rest.ofSpan last) ++ ts) :
    I.written (merged :: rest) = I.written (last :: rest) ++ ts := by
  rw [written_cons, written_cons, h, List.append_assoc]

/-- A span put behind others puts its tokens behind theirs. -/
theorem written_push (hspans : ∀ t ∈ spans, I.Sound t) (hs : I.Fit s) :
    I.written (Span.push false spans s) = I.written spans ++ I.tokensOf (Rest.ofSpan s) := by
  have hpushing := Span.pushing false spans s
  revert hpushing
  generalize Span.push false spans s = spans'
  intro hpushing
  cases hpushing with
  | none hvoid => rw [tokensOf_void hs hvoid, List.append_nil]
  | @void last rest hvoid =>
    have hlast := hspans last List.mem_cons_self
    have hproper : I.Proper s.text 0 := by
      have hzero : s.count.toNat = 0 := Int.toNat_of_nonpos (Span.isVoid_iff.mp hvoid).2
      exact hzero ▸ hs.proper
    obtain ⟨-, hcontent⟩ := I.join _ _ _ _ hlast.proper hproper
    rw [Nat.add_zero, content_zero hproper, List.append_nil] at hcontent
    refine written_merge ?_
    rw [tokensOf_void hs hvoid, List.append_nil]
    exact tokensOf_congr hcontent
  | alone hvoid =>
    obtain ⟨-, hcontent⟩ := I.join _ _ _ _ I.empty hs.proper
    rw [Nat.zero_add, content_empty, List.nil_append] at hcontent
    rw [written_cons]
    exact congrArg _ (tokensOf_congr hcontent)
  | same hvoid hcount hsame =>
    exact written_merge (tokensOf_same hs (hspans _ List.mem_cons_self).toFit hcount hsame)
  | merged hvoid hdiffer hmerge =>
    obtain ⟨hlength, hlastLength⟩ := hmerge.resolve_right Bool.false_ne_true
    exact written_merge
      (tokensOf_inserted ⟨hs, hvoid⟩ (hspans _ List.mem_cons_self) hlength hlastLength)

/-- The newest span, if there is one, replaces some items. -/
def HeadReplacing (spans : List (Span α)) : Prop :=
  ∀ last ∈ spans.head?, 0 ≤ last.count ∧ 0 < last.length

/-- A run that replaces some items is the newest one if it is put alone. -/
theorem headReplacing_push {join : Bool} (hput : 0 ≤ s.count) (hpos : 0 < s.length)
    (h : spans.length < (Span.push join spans s).length) :
    HeadReplacing (Span.push join spans s) := by
  have hpushing := Span.pushing join spans s
  revert hpushing h
  generalize Span.push join spans s = spans'
  intro h hpushing
  cases hpushing with
  | none | void | same | merged => exact absurd h (Nat.lt_irrefl _)
  | alone =>
    rintro _ ⟨⟩
    exact ⟨hput, hpos⟩

/-- A deletion that is joined to a run that replaces some items goes on with it. -/
theorem written_push_joined {n : Nat} (hspans : ∀ t ∈ spans, I.Sound t)
    (hhead : HeadReplacing spans) :
    I.written (Span.push true spans ⟨n, 0, Insertion.empty⟩)
        = I.written spans ++ List.replicate n (.pass false)
      ∧ HeadReplacing (Span.push true spans ⟨n, 0, Insertion.empty⟩) := by
  have hpushing := Span.pushing true spans ⟨n, 0, Insertion.empty⟩
  revert hpushing
  generalize Span.push true spans ⟨n, 0, Insertion.empty⟩ = spans'
  intro hpushing
  have hextended : ∀ last rest, spans = last :: rest → ∀ m count, m = last.length + n →
      count = last.count →
      I.written (⟨m, count, Insertion.join last.text Insertion.empty⟩ :: rest)
          = I.written (last :: rest) ++ List.replicate n (.pass false)
        ∧ HeadReplacing
          ((⟨m, count, Insertion.join last.text Insertion.empty⟩ : Span α) :: rest) := by
    rintro last rest rfl m count rfl rfl
    obtain ⟨hput, hpos⟩ := hhead last rfl
    refine ⟨written_merge (tokensOf_extended (hspans last List.mem_cons_self) hput hpos n), ?_⟩
    rintro _ ⟨⟩
    exact ⟨hput, Nat.add_pos_left hpos n⟩
  cases hpushing with
  | none hvoid =>
    obtain rfl : n = 0 := (Span.isVoid_iff.mp hvoid).1
    exact ⟨rfl, hhead⟩
  | void hvoid =>
    obtain rfl : n = 0 := (Span.isVoid_iff.mp hvoid).1
    exact hextended _ _ rfl _ _ rfl rfl
  | alone hvoid hdiffer =>
    cases spans with
    | nil =>
      have hpos : 0 < n := by
        have := Span.isVoid_eq_false_iff.mp hvoid
        dsimp only at this
        omega
      refine ⟨?_, ?_⟩
      · rw [written_cons, tokensOf_deletion (I.join _ _ _ _ I.empty I.empty).1]
      · rintro _ ⟨⟩
        exact ⟨Int.le_refl _, hpos⟩
    | cons last rest => cases (hdiffer last rfl).2.2
  | same => exact hextended _ _ rfl _ _ rfl rfl
  | merged => exact hextended _ _ rfl _ _ rfl (Int.add_zero _)

end Push

/-- The tokens of spans do what the spans do. -/
theorem perform_tokens (ss : List (Span α)) (doc : List β) :
    Token.perform (I.tokens (ss.map Rest.ofSpan)) doc = I.run ss doc := by
  induction ss generalizing doc with
  | nil => rfl
  | cons s ss ih =>
    rw [List.map_cons, tokens_cons, run_cons]
    by_cases hkept : s.count < 0
    · rw [tokensOf_kept (show (Rest.ofSpan s).count < 0 from hkept), Token.perform_passes, ih,
        step_kept hkept]
      rfl
    · have hput : 0 ≤ s.count := Int.not_lt.mp hkept
      rw [tokensOf_put (show 0 ≤ (Rest.ofSpan s).count from hput) rfl, List.append_assoc,
        Token.perform_puts, Token.perform_passes, ih, step_put hput]
      rfl

end Reading

end TextRevision
