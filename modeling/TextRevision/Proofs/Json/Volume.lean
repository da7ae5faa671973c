import TextRevision.Json.Reader
import TextRevision.Change.Outline

/-!
# How much a value holds

The strings of a value, taken together, have as many characters as memory can hold. A value that is
read off a text holds no more than the text: each character of a string is spelled by at least one
character, and its quotes come on top.

## Main definitions

- `Json.volume`: the number of characters in the strings of a value
- `Json.Addressable`: a value that memory can hold

## Main statements

- `Json.Reader.value_bound`: what a reader takes off the front of a text, one case for each function
- `Json.volume_le_of_read`
-/

namespace TextRevision.Json

mutual

/-- The number of characters in the strings of a value, one more being counted for each string. -/
def volume : Json → Nat
  | str s => s.length + 1
  | arr items => volumeOf items
  | obj members => volumeOfMembers members
  | _ => 0

def volumeOf : List Json → Nat
  | [] => 0
  | x :: xs => x.volume + volumeOf xs

def volumeOfMembers : List (String × Json) → Nat
  | [] => 0
  | (name, x) :: ms => name.length + 1 + x.volume + volumeOfMembers ms

end

/-- A value that memory can hold, the strings of which have no more characters than the greatest
signed word tells. -/
def Addressable (v : Json) : Prop :=
  v.volume ≤ lengthLimit

instance (v : Json) : Decidable v.Addressable :=
  inferInstanceAs (Decidable (v.volume ≤ lengthLimit))

theorem volumeOf_eq (xs : List Json) : volumeOf xs = sumBy volume xs := by
  induction xs with
  | nil => rfl
  | cons x xs ih => rw [volumeOf, sumBy_cons, ih]

theorem volume_le_of_mem {x : Json} {items : List Json} (h : x ∈ items) :
    x.volume ≤ (arr items).volume := by
  rw [volume, volumeOf_eq]
  exact le_sumBy volume h

/-- Strings have the characters of the lines that they are. -/
theorem volumeOf_strings (lines : List String) :
    volumeOf (lines.map str) = sumBy (fun line => line.length + 1) lines := by
  rw [volumeOf_eq, sumBy_map]
  exact sumBy_congr _ fun line _ => by rw [volume]

namespace Reader

theorem length_skipBlank_le (cs : List Char) : (skipBlank cs).length ≤ cs.length :=
  (List.dropWhile_suffix isBlank).length_le

/-- A string has a character less than what spells it, at most. -/
theorem stringTail_bound {seen cs rest : List Char} {s : String}
    (h : stringTail seen cs = some (s, rest)) :
    s.length + 1 + rest.length ≤ seen.length + cs.length := by
  fun_induction stringTail seen cs with
  | case1 => cases h
  | case2 seen rest' =>
    cases h
    simp [Nat.add_assoc, Nat.add_comm 1]
  | case3 => cases h
  | case4 => cases h
  | case5 => cases h
  | case6 seen a b c d unit hunit hlow hhigh e f g h' rest' low hlow' hlowSurrogate ih =>
    have := ih h
    simp only [List.length_cons] at this ⊢
    omega
  | case7 => cases h
  | case8 => cases h
  | case9 seen a b c d rest' unit hunit hlow hhigh ih =>
    have := ih h
    simp only [List.length_cons] at this ⊢
    omega
  | case10 => cases h
  | case11 seen letter rest' hletter c hc ih =>
    have := ih h
    simp only [List.length_cons] at this ⊢
    omega
  | case12 => cases h
  | case13 seen c rest' _ _ _ hc ih =>
    have := ih h
    simp only [List.length_cons] at this ⊢
    omega

section Numbers

variable {cs rest text : List Char}

theorem length_le_of_digits? (h : digits? cs = some (text, rest)) : rest.length ≤ cs.length := by
  rw [digits?] at h
  split at h
  · cases h
  · obtain ⟨-, rfl⟩ := Prod.mk.inj (Option.some.inj h)
    exact (List.dropWhile_suffix Char.isDigit).length_le

/-- Digits behind a sign or a point, with which they are told. -/
theorem length_le_of_map_digits? {tell : List Char × List Char → List Char × List Char}
    (h : (digits? cs).map tell = some (text, rest)) (htell : ∀ p, (tell p).2 = p.2) :
    rest.length ≤ cs.length := by
  obtain ⟨⟨ds, rest'⟩, hdigits, hpair⟩ := Option.map_eq_some_iff.mp h
  obtain rfl : rest' = rest := (htell (ds, rest')).symm.trans (congrArg Prod.snd hpair)
  exact length_le_of_digits? hdigits

theorem length_le_of_whole? (h : whole? cs = some (text, rest)) : rest.length ≤ cs.length := by
  unfold whole? at h
  split at h
  · obtain ⟨-, rfl⟩ := Prod.mk.inj (Option.some.inj h)
    exact Nat.le_succ _
  · exact length_le_of_digits? h

theorem length_le_of_fraction? (h : fraction? cs = some (text, rest)) :
    rest.length ≤ cs.length := by
  unfold fraction? at h
  split at h
  · exact Nat.le_succ_of_le (length_le_of_map_digits? h fun _ => rfl)
  · obtain ⟨-, rfl⟩ := Prod.mk.inj (Option.some.inj h)
    exact Nat.le_refl _

theorem length_le_of_exponent? (h : exponent? cs = some (text, rest)) :
    rest.length ≤ cs.length := by
  unfold exponent? at h
  split at h
  · split at h
    · split at h
      · have hle := length_le_of_map_digits? h fun _ => rfl
        simp only [List.length_cons]
        omega
      · have hle := length_le_of_map_digits? h fun _ => rfl
        simp only [List.length_cons]
        omega
      · exact Nat.le_succ_of_le (length_le_of_map_digits? h fun _ => rfl)
    · obtain ⟨-, rfl⟩ := Prod.mk.inj (Option.some.inj h)
      exact Nat.le_refl _
  · obtain ⟨-, rfl⟩ := Prod.mk.inj (Option.some.inj h)
    exact Nat.le_refl _

theorem volume_ofParts (negative : Bool) (whole fraction exponent : List Char) :
    (ofParts negative whole fraction exponent).volume = 0 := by
  unfold ofParts
  dsimp only
  split <;> split <;> rfl

theorem unsigned?_bound {negative : Bool} {v : Json} (h : unsigned? negative cs = some (v, rest)) :
    v.volume + rest.length ≤ cs.length := by
  obtain ⟨⟨whole, cs₁⟩, hwhole, h⟩ := Option.bind_eq_some_iff.mp h
  obtain ⟨⟨fraction, cs₂⟩, hfraction, h⟩ := Option.bind_eq_some_iff.mp h
  obtain ⟨⟨exponent, cs₃⟩, hexponent, h⟩ := Option.bind_eq_some_iff.mp h
  obtain ⟨rfl, rfl⟩ := Prod.mk.inj (Option.some.inj h)
  have hle₁ := length_le_of_whole? hwhole
  have hle₂ := length_le_of_fraction? hfraction
  have hle₃ := length_le_of_exponent? hexponent
  rw [volume_ofParts]
  omega

/-- A number holds no strings. -/
theorem number?_bound {v : Json} (h : number? cs = some (v, rest)) :
    v.volume + rest.length ≤ cs.length := by
  unfold number? at h
  split at h
  · exact Nat.le_succ_of_le (unsigned?_bound h)
  · exact unsigned?_bound h

end Numbers

mutual

/-- A value that is taken off the front of a text, and what is left of the text, are no more than
the text. -/
theorem value_bound : (fuel : Nat) → {cs rest : List Char} → {v : Json} →
    value fuel cs = some (v, rest) → v.volume + rest.length ≤ cs.length
  | 0, _, _, _, h => by cases h
  | fuel + 1, cs, rest, v, h => by
    have hblank := length_skipBlank_le cs
    rw [value] at h
    split at h
    · next hcs =>
      cases h
      rw [hcs] at hblank
      simp only [volume, List.length_cons] at hblank ⊢
      omega
    · next hcs =>
      cases h
      rw [hcs] at hblank
      simp only [volume, List.length_cons] at hblank ⊢
      omega
    · next hcs =>
      cases h
      rw [hcs] at hblank
      simp only [volume, List.length_cons] at hblank ⊢
      omega
    · next hcs =>
      obtain ⟨⟨s, rest'⟩, hs, hpair⟩ := Option.map_eq_some_iff.mp h
      obtain ⟨rfl, rfl⟩ := Prod.mk.inj hpair
      have hbound := stringTail_bound hs
      rw [hcs] at hblank
      simp only [volume, List.length_cons, List.length_nil] at hblank hbound ⊢
      omega
    · next tail hcs =>
      have htail := length_skipBlank_le tail
      rw [hcs] at hblank
      split at h
      · next hclose =>
        cases h
        rw [hclose] at htail
        simp only [volume, volumeOf, List.length_cons] at hblank htail ⊢
        omega
      · obtain ⟨⟨xs, rest'⟩, hxs, hpair⟩ := Option.map_eq_some_iff.mp h
        obtain ⟨rfl, rfl⟩ := Prod.mk.inj hpair
        have hbound := items_bound fuel hxs
        simp only [volume, List.length_cons] at hblank ⊢
        omega
    · next tail hcs =>
      have htail := length_skipBlank_le tail
      rw [hcs] at hblank
      split at h
      · next hclose =>
        cases h
        rw [hclose] at htail
        simp only [volume, volumeOfMembers, List.length_cons] at hblank htail ⊢
        omega
      · obtain ⟨⟨ms, rest'⟩, hms, hpair⟩ := Option.map_eq_some_iff.mp h
        obtain ⟨rfl, rfl⟩ := Prod.mk.inj hpair
        have hbound := members_bound fuel hms
        simp only [volume, List.length_cons] at hblank ⊢
        omega
    · exact Nat.le_trans (number?_bound h) hblank

theorem items_bound : (fuel : Nat) → {cs rest : List Char} → {xs : List Json} →
    items fuel cs = some (xs, rest) → volumeOf xs + rest.length ≤ cs.length
  | 0, _, _, _, h => by cases h
  | fuel + 1, cs, rest, xs, h => by
    rw [items] at h
    split at h
    · cases h
    · next x tail hx =>
      have hfirst := value_bound fuel hx
      have htail := length_skipBlank_le tail
      split at h
      · next hcomma =>
        obtain ⟨⟨ys, rest'⟩, hys, hpair⟩ := Option.map_eq_some_iff.mp h
        obtain ⟨rfl, rfl⟩ := Prod.mk.inj hpair
        have hbound := items_bound fuel hys
        rw [hcomma, List.length_cons] at htail
        rw [volumeOf]
        omega
      · next hclose =>
        cases h
        rw [hclose, List.length_cons] at htail
        simp only [volumeOf]
        omega
      · cases h

theorem members_bound : (fuel : Nat) → {cs rest : List Char} → {ms : List (String × Json)} →
    members fuel cs = some (ms, rest) → volumeOfMembers ms + rest.length ≤ cs.length
  | 0, _, _, _, h => by cases h
  | fuel + 1, cs, rest, ms, h => by
    have hblank := length_skipBlank_le cs
    rw [members] at h
    split at h
    · next hcs =>
      rw [hcs, List.length_cons] at hblank
      split at h
      · cases h
      · next name afterName hname =>
        have hnameBound := stringTail_bound hname
        have hcolon := length_skipBlank_le afterName
        rw [List.length_nil, Nat.zero_add] at hnameBound
        split at h
        · next hcs' =>
          rw [hcs', List.length_cons] at hcolon
          split at h
          · cases h
          · next x tail hx =>
            have hfirst := value_bound fuel hx
            have htail := length_skipBlank_le tail
            split at h
            · next hcomma =>
              obtain ⟨⟨later, rest'⟩, hlater, hpair⟩ := Option.map_eq_some_iff.mp h
              obtain ⟨rfl, rfl⟩ := Prod.mk.inj hpair
              have hbound := members_bound fuel hlater
              rw [hcomma, List.length_cons] at htail
              rw [volumeOfMembers]
              omega
            · next hclose =>
              cases h
              rw [hclose, List.length_cons] at htail
              simp only [volumeOfMembers]
              omega
            · cases h
        · cases h
    · cases h

end

end Reader

/-- A value that is read holds no more than the text that spells it. -/
theorem volume_le_of_read {text : String} {v : Json} (h : read text = some v) :
    v.volume ≤ text.length := by
  rw [read] at h
  split at h
  · next v' rest hvalue =>
    have hbound := Reader.value_bound _ hvalue
    rw [String.length_toList] at hbound
    split at h
    · obtain rfl := Option.some.inj h
      omega
    · cases h
  · cases h

end TextRevision.Json
