import TextRevision.Proofs.Change.Following
import TextRevision.Proofs.Change.Writing

/-!
# What spans keep and what they add

Spans decide for each character of the old document whether it is kept, and each run that inserts
something adds it at one place. This is all that there is to a change up to the way in which it is
cut into spans: a span that is put behind others may become one with the newest of them, and still
each character has the fate that the span gives it. What it adds stays apart from what the others
add, as long as two insertions do not meet at one place.

## Main definitions

- `Change.fates`: for each character of the old document, whether it is kept
- `Addition`, `Change.additions`: what replaced runs insert, and where
- `Span.Unmixed`: spans of which no two neighbours insert at one place

## Main statements

- `Change.exists_keeps_iff`, `Change.removes_iff`: what becomes of a character is its fate
- `Span.fatesOf_push`, `Span.additionsFrom_push`: one span put behind others
- `Span.fatesOf_foldl_push`, `Span.additionsFrom_foldl_push`: any number of them
-/

namespace TextRevision

variable {α β : Type}

/-- What a replaced run inserts, and where. -/
structure Addition (α : Type) where
  /-- Where the run starts in the old document. -/
  place : Nat
  /-- Whether the run removes nothing. -/
  isPure : Bool
  count : Int
  text : α
  deriving DecidableEq, Repr

/-- What is known of an addition without its text. -/
def Addition.shape (a : Addition α) : Addition Unit :=
  ⟨a.place, a.isPure, a.count, ()⟩

namespace Span

/-- For each character that spans are about, whether it is kept. -/
def fatesOf (spans : List (Span α)) : List Bool :=
  spans.flatMap fun s => List.replicate s.length s.isKept

/-- What spans that start at a place of the old document add. -/
def additionsFrom : (pos : Nat) → List (Span α) → List (Addition α)
  | _, [] => []
  | pos, s :: rest =>
    let later := additionsFrom (pos + s.length) rest
    if 0 < s.count then ⟨pos, s.length = 0, s.count, s.text⟩ :: later else later

end Span

namespace Change

def fates (c : Change α) : List Bool :=
  Span.fatesOf c.spans

def additions (c : Change α) : List (Addition α) :=
  Span.additionsFrom 0 c.spans

end Change

namespace Span

variable {s : Span α} {spans : List (Span α)} {pos : Nat}

@[simp] theorem fatesOf_nil : fatesOf ([] : List (Span α)) = [] := rfl

@[simp] theorem fatesOf_cons (s : Span α) (spans : List (Span α)) :
    fatesOf (s :: spans) = List.replicate s.length s.isKept ++ fatesOf spans := rfl

@[simp] theorem fatesOf_append (ss ts : List (Span α)) :
    fatesOf (ss ++ ts) = fatesOf ss ++ fatesOf ts :=
  List.flatMap_append

theorem length_fatesOf (spans : List (Span α)) : (fatesOf spans).length = sumBy length spans := by
  induction spans with
  | nil => rfl
  | cons s spans ih => rw [fatesOf_cons, List.length_append, List.length_replicate, ih, sumBy_cons]

theorem additionsFrom_append (pos : Nat) (ss ts : List (Span α)) :
    additionsFrom pos (ss ++ ts)
      = additionsFrom pos ss ++ additionsFrom (pos + sumBy length ss) ts := by
  induction ss generalizing pos with
  | nil => rfl
  | cons s ss ih =>
    rw [List.cons_append, additionsFrom, additionsFrom, ih, sumBy_cons, Nat.add_assoc]
    split <;> rfl

/-- Spans keep a character if and only if its fate is to be kept. -/
theorem exists_keepsFrom_iff (start newStart p : Nat) :
    (∃ q, Change.KeepsFrom start newStart spans p q)
      ↔ start ≤ p ∧ (fatesOf spans)[p - start]? = some true := by
  induction spans generalizing start newStart with
  | nil => simp
  | cons s spans ih =>
    have hhere : (∃ q, s.KeepsAt start newStart p q)
        ↔ s.isKept = true ∧ start ≤ p ∧ p < start + s.length := by
      simp [KeepsAt]
    simp only [Change.keepsFrom_cons, exists_or, ih, fatesOf_cons, hhere]
    rcases Nat.lt_or_ge p (start + s.length) with hlt | hge
    · have hlater : ¬ start + s.length ≤ p := Nat.not_le.mpr hlt
      by_cases hstart : start ≤ p
      · have hfate : (List.replicate s.length s.isKept ++ fatesOf spans)[p - start]?
            = some s.isKept := by
          rw [List.getElem?_append_left (by rw [List.length_replicate]; omega),
            List.getElem?_replicate_of_lt (by omega)]
        simp [hstart, hlt, hlater, hfate]
      · simp [hstart, hlater]
    · have hfate : (List.replicate s.length s.isKept ++ fatesOf spans)[p - start]?
          = (fatesOf spans)[p - (start + s.length)]? := by
        rw [List.getElem?_append_right (by rw [List.length_replicate]; omega),
          List.length_replicate, Nat.sub_sub]
      have hstart : start ≤ p := (Nat.le_add_right _ _).trans hge
      simp [hge, hstart, hfate, Nat.not_lt.mpr hge]

section Push

variable [Insertion α]

/-- An insertion that is one if and only if characters are counted. -/
structure Plain (s : Span α) : Prop where
  join : Insertion.join Insertion.empty s.text = s.text
  isEmpty : s.count ≤ 0 → Insertion.isEmpty s.text = true

/-- An insertion that is empty leaves the one that it is put behind as it is. -/
theorem Plain.join_text (h : s.Plain) (hcount : s.count ≤ 0) (text : α) :
    Insertion.join text s.text = text :=
  if_pos (h.isEmpty hcount)

theorem plain_keep (hempty : Insertion.isEmpty (Insertion.empty : α) = true) (n : Nat) :
    (keep n : Span α).Plain :=
  ⟨if_pos hempty, fun _ => hempty⟩

/-- A kept run adds nothing. -/
theorem additionsFrom_keep_cons (pos n : Nat) (rest : List (Span α)) :
    additionsFrom pos (keep n :: rest) = additionsFrom (pos + n) rest := by
  rw [additionsFrom]
  exact if_neg (show ¬ 0 < keptMark by decide)

/-- A span put behind others decides for its characters, and for no others. -/
theorem fatesOf_push (spans : List (Span α)) (s : Span α) :
    fatesOf (push false spans s).reverse = fatesOf (s :: spans).reverse := by
  have hpushing := pushing false spans s
  generalize push false spans s = spans' at hpushing ⊢
  cases hpushing with
  | none hvoid => simp [(isVoid_iff.mp hvoid).1]
  | void hvoid => simp [(isVoid_iff.mp hvoid).1, isKept]
  | alone => simp [isKept]
  | same _ _ hsame => simp [isKept, hsame]
  | merged _ _ hmerge =>
    obtain ⟨hs, hlast⟩ : s.length = 0 ∧ _ := hmerge.resolve_right Bool.false_ne_true
    simp [hs, hlast]

/-- What a span adds stays apart from what those add that it is put behind, if it does not insert at
the place where the newest of them does. -/
theorem additionsFrom_push (hs : s.Plain)
    (hunmixed : ∀ last ∈ spans.head?, ¬ (s.length = 0 ∧ last.length = 0)) :
    additionsFrom pos (push false spans s).reverse = additionsFrom pos (s :: spans).reverse := by
  have hpushing := pushing false spans s
  generalize push false spans s = spans' at hpushing ⊢
  cases hpushing with
  | none hvoid =>
    simp [additionsFrom, Int.not_lt.mpr (isVoid_iff.mp hvoid).2]
  | @void last rest hvoid =>
    have hcount := (isVoid_iff.mp hvoid).2
    rw [hs.join_text hcount]
    simp [additionsFrom_append, additionsFrom, Int.not_lt.mpr hcount]
  | alone => rw [hs.join]
  | @same last rest _ hcount hsame =>
    have hlast : ¬ 0 < last.count := hsame ▸ Int.not_lt.mpr hcount
    simp [additionsFrom_append, additionsFrom, Int.not_lt.mpr hcount, hlast]
  | merged _ _ hmerge =>
    exact absurd (hmerge.resolve_right Bool.false_ne_true) (hunmixed _ rfl)

/-- Of spans that are put behind others one after the other, each decides for its characters. -/
theorem fatesOf_foldl_push (spans pieces : List (Span α)) :
    fatesOf (pieces.foldl (push false) spans).reverse = fatesOf (spans.reverse ++ pieces) := by
  induction pieces generalizing spans with
  | nil => simp
  | cons s pieces ih =>
    rw [List.foldl_cons, ih, fatesOf_append, fatesOf_push, ← fatesOf_append, List.reverse_cons,
      List.append_assoc]
    rfl

omit [Insertion α] in
/-- No two neighbours insert at one place. -/
def Unmixed (spans : List (Span α)) : Prop :=
  spans.IsChain fun s t => ¬ (s.length = 0 ∧ t.length = 0)

/-- The newest span has characters of the old document if the one that was put last has. -/
theorem head_push_pos (hs : s.length ≠ 0) : ∀ t ∈ (push false spans s).head?, t.length ≠ 0 := by
  have hpushing := pushing false spans s
  generalize push false spans s = spans' at hpushing ⊢
  cases hpushing with
  | none hvoid => exact absurd (isVoid_iff.mp hvoid).1 hs
  | void hvoid => exact absurd (isVoid_iff.mp hvoid).1 hs
  | alone => simpa using hs
  | same => simp [hs]
  | merged => simp [hs]

/-- What spans add stays apart when they are put behind others one after the other. -/
theorem additionsFrom_foldl_push {pieces : List (Span α)} (hpieces : ∀ s ∈ pieces, s.Plain)
    (hunmixed : Unmixed pieces)
    (hspans : ∀ last ∈ spans.head?, ∀ s ∈ pieces.head?, ¬ (last.length = 0 ∧ s.length = 0)) :
    additionsFrom pos (pieces.foldl (push false) spans).reverse
      = additionsFrom pos (spans.reverse ++ pieces) := by
  induction pieces generalizing spans with
  | nil => simp
  | cons s pieces ih =>
    obtain ⟨hs, hlater⟩ := List.forall_mem_cons.mp hpieces
    obtain ⟨hnext, hrest⟩ := List.isChain_cons.mp hunmixed
    have hpush : additionsFrom pos (push false spans s).reverse
        = additionsFrom pos (s :: spans).reverse :=
      additionsFrom_push hs fun last hlast => fun h => hspans last hlast s rfl ⟨h.2, h.1⟩
    have hlength := (pushing false spans s).length_eq
    have hsplit : additionsFrom pos (spans.reverse ++ s :: pieces)
        = additionsFrom pos (s :: spans).reverse
          ++ additionsFrom (pos + (sumBy length spans + s.length)) pieces := by
      rw [List.append_cons, additionsFrom_append]
      simp
    rw [List.foldl_cons, ih hlater hrest ?_, additionsFrom_append, hpush, sumBy_reverse, hlength,
      hsplit]
    · rintro last hlast t ht ⟨hlastZero, htZero⟩
      exact head_push_pos (fun hzero => hnext t ht ⟨hzero, htZero⟩) last hlast hlastZero

end Push

end Span

namespace Change

variable {c : Change α} {p : Nat}

theorem length_fates (c : Change α) : c.fates.length = c.length :=
  Span.length_fatesOf c.spans

/-- A change keeps a character if and only if its fate is to be kept. -/
theorem exists_keeps_iff : (∃ q, c.Keeps p q) ↔ c.fates[p]? = some true :=
  (Span.exists_keepsFrom_iff 0 0 p).trans (and_iff_right (Nat.zero_le p))

theorem removes_iff : c.Removes p ↔ c.fates[p]? = some false := by
  rw [Removes, exists_keeps_iff, ← length_fates, List.getElem?_eq_some_iff,
    List.getElem?_eq_some_iff]
  constructor
  · rintro ⟨hlt, hnot⟩
    exact ⟨hlt, by simpa [hlt] using hnot⟩
  · rintro ⟨hlt, hfate⟩
    exact ⟨hlt, by simp [hfate]⟩

section Told

variable {γ : Type} {xs : List γ} {fate : γ → Bool}

/-- Where a list tells the fates of the characters, it has one entry for each. -/
theorem length_of_fates (h : c.fates = xs.map fate) : c.length = xs.length := by
  rw [← length_fates, h, List.length_map]

theorem exists_keeps_iff_of_fates (h : c.fates = xs.map fate) :
    (∃ q, c.Keeps p q) ↔ ∃ x, xs[p]? = some x ∧ fate x = true := by
  rw [exists_keeps_iff, h, List.getElem?_map, Option.map_eq_some_iff]

theorem removes_iff_of_fates (h : c.fates = xs.map fate) :
    c.Removes p ↔ ∃ x, xs[p]? = some x ∧ fate x = false := by
  rw [removes_iff, h, List.getElem?_map, Option.map_eq_some_iff]

end Told

end Change

end TextRevision
