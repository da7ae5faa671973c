/-!
# Counts and machine words

Lengths, places and counts are kept in words of 64 bits. Two things can happen to a number that its
word cannot hold. A length that is put into a signed word is read as the negative number with the
same bits (`signedWord`), and nothing is noticed. A sum that leaves its word is noticed, and what
was to be done with it breaks off (`word?`, `signed?`).

## Main definitions

- `sumBy`: a count summed over the items of a list
- `signedWord`: a number put into a signed word
- `word?`, `signed?`: a number that is held to its word
- `sumBy?`: a sum of which every part is held to its word
-/

namespace TextRevision

/-- The sum of what is counted in each item of a list. -/
def sumBy {γ : Type} (count : γ → Nat) (xs : List γ) : Nat :=
  xs.foldr (fun x n => count x + n) 0

section Sum

variable {γ : Type} (count : γ → Nat)

@[simp] theorem sumBy_nil : sumBy count [] = 0 := rfl

@[simp] theorem sumBy_cons (x : γ) (xs : List γ) :
    sumBy count (x :: xs) = count x + sumBy count xs := rfl

@[simp] theorem sumBy_append (xs ys : List γ) :
    sumBy count (xs ++ ys) = sumBy count xs + sumBy count ys := by
  induction xs with
  | nil => simp
  | cons x xs ih => simp [ih, Nat.add_assoc]

@[simp] theorem sumBy_reverse (xs : List γ) : sumBy count xs.reverse = sumBy count xs := by
  induction xs with
  | nil => rfl
  | cons x xs ih => simp [ih, Nat.add_comm]

theorem sumBy_map {ι : Type} (f : ι → γ) (xs : List ι) :
    sumBy count (xs.map f) = sumBy (fun x => count (f x)) xs := by
  induction xs with
  | nil => rfl
  | cons x xs ih => simp [ih]

theorem sumBy_congr {other : γ → Nat} {xs : List γ} (h : ∀ x ∈ xs, count x = other x) :
    sumBy count xs = sumBy other xs := by
  induction xs with
  | nil => rfl
  | cons x xs ih =>
    rw [List.forall_mem_cons] at h
    rw [sumBy_cons, sumBy_cons, h.1, ih h.2]

theorem le_sumBy {x : γ} {xs : List γ} (h : x ∈ xs) : count x ≤ sumBy count xs := by
  induction xs with
  | nil => cases h
  | cons y xs ih =>
    rw [sumBy_cons]
    rcases List.mem_cons.mp h with rfl | h
    · exact Nat.le_add_right ..
    · exact Nat.le_trans (ih h) (Nat.le_add_left ..)

end Sum

/-- The number of words of 64 bits, 2⁶⁴. -/
def wordCount : Nat := 18446744073709551616

/-- The number of signed words that are not negative, 2⁶³. -/
def signBound : Nat := 9223372036854775808

/-- The greatest length that a written change may have, the greatest signed word of 64 bits. -/
def lengthLimit : Nat :=
  signBound - 1

theorem lt_signBound {n : Nat} (h : n ≤ lengthLimit) : n < signBound := by
  have hlimit : lengthLimit < signBound := Nat.sub_one_lt (by simp [signBound])
  exact Nat.lt_of_le_of_lt h hlimit

/-- The number that a signed word of 64 bits holds when `n` is put into it. -/
def signedWord (n : Nat) : Int :=
  (n : Int).bmod wordCount

theorem signedWord_of_lt {n : Nat} (h : n < signBound) : signedWord n = n := by
  simp only [signBound] at h
  exact Int.bmod_eq_of_le (by simp only [wordCount]; omega) (by simp only [wordCount]; omega)

/-- A number from the upper half of the words is read as a negative one. -/
theorem signedWord_of_le {n : Nat} (h : signBound ≤ n) (h' : n < wordCount) :
    signedWord n = (n : Int) - wordCount := by
  have hword : ((n : Int) - wordCount).bmod wordCount = (n : Int).bmod wordCount :=
    Int.sub_bmod_right ..
  simp only [signBound, wordCount] at h h'
  refine hword.symm.trans (Int.bmod_eq_of_le ?_ ?_) <;> simp only [wordCount] <;> omega

/-- An unsigned number, if a word of 64 bits holds it. -/
def word? (n : Nat) : Option Nat :=
  if n < wordCount then some n else none

theorem word?_of_lt {n : Nat} (h : n < wordCount) : word? n = some n :=
  if_pos h

theorem word?_of_le {n : Nat} (h : wordCount ≤ n) : word? n = none :=
  if_neg (Nat.not_lt.mpr h)

theorem eq_of_word? {m n : Nat} (h : word? n = some m) : n = m := by
  rw [word?] at h
  split at h
  · exact Option.some.inj h
  · cases h

/-- A signed number, if a word of 64 bits holds it. -/
def signed? (n : Int) : Option Int :=
  if -(signBound : Int) ≤ n ∧ n < signBound then some n else none

theorem signed?_of_lt {n : Int} (h : -(signBound : Int) ≤ n) (h' : n < signBound) :
    signed? n = some n :=
  if_pos ⟨h, h'⟩

/-- The sum of what is counted in each item of a list, on from `sum`, if words of 64 bits hold it as
far as it was counted at each item. -/
def sumFrom? {γ : Type} (count : γ → Nat) : (sum : Nat) → List γ → Option Nat
  | sum, [] => some sum
  | sum, x :: xs =>
    match word? (sum + count x) with
    | some sum => sumFrom? count sum xs
    | none => none

/-- The sum of what is counted in each item of a list, each part of it held to its word. -/
def sumBy? {γ : Type} (count : γ → Nat) (xs : List γ) : Option Nat :=
  sumFrom? count 0 xs

/-- A sum only grows, so that it stays in its word if its end does. -/
theorem sumFrom?_eq {γ : Type} (count : γ → Nat) (xs : List γ) {sum : Nat} (h : sum < wordCount) :
    sumFrom? count sum xs = word? (sum + sumBy count xs) := by
  induction xs generalizing sum with
  | nil => exact (word?_of_lt h).symm
  | cons x xs ih =>
    rw [sumFrom?, sumBy_cons, ← Nat.add_assoc]
    by_cases hword : sum + count x < wordCount
    · rw [word?_of_lt hword]
      exact ih hword
    · have hle : wordCount ≤ sum + count x := Nat.not_lt.mp hword
      rw [word?_of_le hle, word?_of_le (Nat.le_trans hle (Nat.le_add_right _ _))]

theorem sumBy?_eq {γ : Type} (count : γ → Nat) (xs : List γ) :
    sumBy? count xs = word? (sumBy count xs) := by
  rw [sumBy?, sumFrom?_eq count xs (by decide), Nat.zero_add]

end TextRevision
