import Mathlib
import TextRevision.Json.Format

/-!
# Values written as text and read again

Numbers that fit a word, strings, and arrays of these are read off their text as they were written.
The reader is followed along what the writer puts down: an escape is read as the character that it
was written for, the digits of a number end where the number does, and an item of an array is closed
by what comes behind it.

## Main definitions

- `Json.Plain`: numbers and strings, in arrays to a depth
- `Json.Format.Faithful`: a data format that keeps plain values

## Main statements

- `Json.Reader.stringTail_escape`: one escape
- `Json.Reader.value_render`: one plain value, by induction on the depth
- `Json.read_render`, `Json.text_faithful`
-/

namespace TextRevision.Json

/-- Numbers that fit a word and strings, in arrays up to a depth. -/
def Plain : (depth : Nat) → Json → Prop
  | _, int n => isWord n = true
  | _, str _ => True
  | depth + 1, arr items => ∀ x ∈ items, Plain depth x
  | _, _ => False

/-- A data format in which plain values up to a depth are what they were. -/
def Format.Faithful {ω ε : Type} (format : Format ω ε) (depth : Nat) : Prop :=
  ∀ v, v.Plain depth → ∃ form, format.write v = .ok form ∧ format.read form = .ok v

theorem toList_render_ofNat (n : Nat) : (render (int n)).toList = Nat.toDigits 10 n := by
  rw [render, Int.toString_eq_repr]
  exact Nat.toList_repr

theorem toList_render_negSucc (n : Nat) :
    (render (int (Int.negSucc n))).toList = '-' :: Nat.toDigits 10 (n + 1) := by
  rw [render, Int.toString_eq_repr, Int.repr]
  simp only [String.toList_append, Nat.toList_repr]
  rfl

theorem toList_render_str (s : String) :
    (render (str s)).toList = '"' :: (s.toList.flatMap Writer.escape ++ ['"']) := by
  rw [render, Writer.quote]
  simp

/-- The text of the items of an array up to its closing bracket. -/
def itemsText (xs : List Json) : List Char :=
  [','].intercalate (xs.map fun x => x.render.toList)

theorem toList_render_arr (xs : List Json) :
    (render (arr xs)).toList = '[' :: (itemsText xs ++ [']']) := by
  have hitems : renderItems xs = xs.map render := by
    induction xs with
    | nil => rfl
    | cons x xs ih => rw [renderItems, List.map_cons, ih]
  rw [render, hitems, itemsText]
  simp [String.toList_intercalate, Function.comp_def]

theorem itemsText_singleton (x : Json) : itemsText [x] = x.render.toList := by
  simp [itemsText]

theorem itemsText_cons (x : Json) {xs : List Json} (hne : xs ≠ []) :
    itemsText (x :: xs) = x.render.toList ++ ',' :: itemsText xs := by
  rw [itemsText, List.map_cons, List.intercalate_cons_of_ne_nil (by simpa using hne)]
  simp [itemsText]

namespace Reader

/-- What may stand behind an item of an array. -/
def Closing (rest : List Char) : Prop :=
  ∀ c ∈ rest.head?, c = ',' ∨ c = ']'

section Numbers

variable {rest : List Char} (hrest : Closing rest)

include hrest

theorem digits?_append {ds : List Char} (hds : ∀ d ∈ ds, d.isDigit = true) (hne : ds ≠ []) :
    digits? (ds ++ rest) = some (ds, rest) := by
  have hstop : rest.takeWhile Char.isDigit = [] ∧ rest.dropWhile Char.isDigit = rest := by
    cases rest with
    | nil => exact ⟨rfl, rfl⟩
    | cons c rest =>
      rcases hrest c rfl with rfl | rfl
      · exact ⟨rfl, rfl⟩
      · exact ⟨rfl, rfl⟩
  rw [digits?, List.takeWhile_append_of_pos hds, List.dropWhile_append_of_pos hds, hstop.1,
    hstop.2, List.append_nil]
  split
  · exact absurd rfl hne
  · rfl

theorem fraction?_closing : fraction? rest = some ([], rest) := by
  unfold fraction?
  split
  · rcases hrest '.' rfl with h | h <;> cases h
  · rfl

theorem exponent?_closing : exponent? rest = some ([], rest) := by
  unfold exponent?
  split
  · next c rest' =>
    rcases hrest c rfl with rfl | rfl
    · rfl
    · rfl
  · rfl

omit hrest in
theorem isDigit_of_mem_digits {n : Nat} : ∀ d ∈ Nat.toDigits 10 n, d.isDigit = true :=
  fun _ hd => Nat.isDigit_of_mem_toDigits (by decide) (by decide) hd

omit hrest in
theorem exists_cons_toDigits (n : Nat) :
    ∃ d ds, Nat.toDigits 10 n = d :: ds ∧ d.isDigit = true := by
  obtain ⟨d, ds, hdigits⟩ := List.exists_cons_of_ne_nil (@Nat.toDigits_ne_nil n 10)
  exact ⟨d, ds, hdigits, isDigit_of_mem_digits d (hdigits ▸ List.mem_cons_self)⟩

omit hrest in
theorem head?_toDigits {n : Nat} (hpos : 0 < n) : (Nat.toDigits 10 n).head? ≠ some '0' := by
  induction n using Nat.strongRecOn with
  | ind n ih =>
    rw [Nat.toDigits_eq_if (by decide)]
    split
    · simpa using Nat.ne_of_gt hpos
    · have hfirst := ih (n / 10) (by omega) (by omega)
      rwa [List.head?_append_of_ne_nil _ Nat.toDigits_ne_nil]

theorem whole?_toDigits (n : Nat) :
    whole? (Nat.toDigits 10 n ++ rest) = some (Nat.toDigits 10 n, rest) := by
  by_cases hzero : n = 0
  · rw [hzero, Nat.toDigits_zero]
    rfl
  · have hdigits : digits? (Nat.toDigits 10 n ++ rest) = some (Nat.toDigits 10 n, rest) :=
      digits?_append hrest isDigit_of_mem_digits Nat.toDigits_ne_nil
    have hhead := head?_toDigits (Nat.pos_of_ne_zero hzero)
    unfold whole?
    split
    · next rest' hcs =>
      have hsame : (Nat.toDigits 10 n ++ rest).head? = (Nat.toDigits 10 n).head? :=
        List.head?_append_of_ne_nil _ Nat.toDigits_ne_nil
      rw [← hsame, hcs] at hhead
      exact absurd rfl hhead
    · exact hdigits

theorem unsigned?_toDigits (negative : Bool) (n : Nat) :
    unsigned? negative (Nat.toDigits 10 n ++ rest)
      = some (ofParts negative (Nat.toDigits 10 n) [] [], rest) := by
  rw [unsigned?, whole?_toDigits hrest, Option.bind_eq_bind, Option.bind_some]
  dsimp only
  rw [fraction?_closing hrest, Option.bind_some, exponent?_closing hrest]
  rfl

omit hrest in
theorem ofDigits_toDigits (n : Nat) : ofDigits (Nat.toDigits 10 n) = n :=
  Nat.ofDigitChars_ten_toDigits

omit hrest in
theorem ofParts_toDigits {n : Nat} (hword : isWord n = true) :
    ofParts false (Nat.toDigits 10 n) [] [] = int n := by
  unfold ofParts
  dsimp only
  rw [if_neg Bool.false_ne_true, ofDigits_toDigits, hword]
  rfl

omit hrest in
theorem ofParts_neg_toDigits {n : Nat} (hpos : 0 < n) (hword : isWord (-n) = true) :
    ofParts true (Nat.toDigits 10 n) [] [] = int (-n) := by
  have hsome : (n == 0) = false := beq_false_of_ne (Nat.ne_of_gt hpos)
  unfold ofParts
  dsimp only
  rw [if_pos rfl, ofDigits_toDigits, hword, hsome]
  rfl

/-- An integer that fits a word is read off its digits. -/
theorem number?_render {n : Int} (hword : isWord n = true) :
    number? ((render (int n)).toList ++ rest) = some (int n, rest) := by
  cases n with
  | ofNat m =>
    obtain ⟨d, ds, hdigits, hdigit⟩ := exists_cons_toDigits m
    have htext : (render (int (Int.ofNat m))).toList = d :: ds :=
      (toList_render_ofNat m).trans hdigits
    rw [htext]
    unfold number?
    split
    · next rest' hcs =>
      obtain rfl := (List.cons.inj hcs).1
      cases hdigit
    · rw [← hdigits, unsigned?_toDigits hrest, ofParts_toDigits hword]
      rfl
  | negSucc m =>
    rw [toList_render_negSucc]
    exact (unsigned?_toDigits hrest true (m + 1)).trans
      (congrArg (fun v => some (v, rest)) (ofParts_neg_toDigits (Nat.succ_pos m) hword))

end Numbers

section Strings

theorem hexDigit?_digitChar {k : Nat} (h : k < 16) : hexDigit? (Nat.digitChar k) = some k := by
  decide +revert

/-- Four digits are read as the number that they were written for. -/
theorem stringTail_hex4 {n : Nat} (hsmall : n < 65536) (hlow : isLowSurrogate n = false)
    (hhigh : isHighSurrogate n = false) (seen rest : List Char) :
    stringTail seen ('\\' :: 'u' :: (Writer.hex4 n ++ rest))
      = stringTail (Char.ofNat n :: seen) rest := by
  have hunit : hexUnit? (Nat.digitChar (n / 4096 % 16)) (Nat.digitChar (n / 256 % 16))
      (Nat.digitChar (n / 16 % 16)) (Nat.digitChar (n % 16)) = some n := by
    have hdigits : ∀ k, hexDigit? (Nat.digitChar (k % 16)) = some (k % 16) :=
      fun k => hexDigit?_digitChar (Nat.mod_lt k (by decide))
    simp only [hexUnit?, hdigits, Option.bind_eq_bind, Option.bind_some, Option.pure_def,
      Option.some.injEq]
    omega
  show stringTail seen ('\\' :: 'u' :: Nat.digitChar (n / 4096 % 16)
    :: Nat.digitChar (n / 256 % 16) :: Nat.digitChar (n / 16 % 16) :: Nat.digitChar (n % 16)
    :: rest) = _
  rw [stringTail, hunit]
  dsimp only
  rw [hlow, hhigh]
  rfl

/-- A character is read off what is written for it. -/
theorem stringTail_escape (seen : List Char) (c : Char) (rest : List Char) :
    stringTail seen (Writer.escape c ++ rest) = stringTail (c :: seen) rest := by
  unfold Writer.escape
  split
  · rfl
  · rfl
  · rfl
  · rfl
  · rfl
  · rfl
  · rfl
  · next hquote hbackslash _ _ _ _ _ =>
    split
    · next hescaped =>
      have hlow : isLowSurrogate c.toNat = false := by
        simp only [isLowSurrogate, Bool.and_eq_false_iff, decide_eq_false_iff_not]
        omega
      have hhigh : isHighSurrogate c.toNat = false := by
        simp only [isHighSurrogate, Bool.and_eq_false_iff, decide_eq_false_iff_not]
        omega
      rw [List.cons_append, List.cons_append, stringTail_hex4 (by omega) hlow hhigh,
        Char.ofNat_toNat]
    · next hplain =>
      rw [List.singleton_append, stringTail]
      · rw [if_neg (by omega)]
      · exact hquote
      · exact fun _ _ _ _ _ h _ => hbackslash h
      · exact fun _ _ h _ => hbackslash h

/-- A string is read off its quoted text behind the opening quote. -/
theorem stringTail_quoted (seen s rest : List Char) :
    stringTail seen (s.flatMap Writer.escape ++ '"' :: rest)
      = some (String.ofList (seen.reverse ++ s), rest) := by
  induction s generalizing seen with
  | nil => simp [stringTail]
  | cons c s ih =>
    rw [List.flatMap_cons, List.append_assoc, stringTail_escape, ih, List.reverse_cons,
      List.append_assoc, List.singleton_append]

end Strings

section Values

/-- A text starts with a character that is no blank and closes nothing. -/
def Opening (cs : List Char) : Prop :=
  ∃ c rest, cs = c :: rest ∧ isBlank c = false ∧ c ≠ ']'

/-- The text of a number starts with a sign or a digit. -/
theorem exists_numeral (n : Int) :
    ∃ c rest, (render (int n)).toList = c :: rest ∧ (c = '-' ∨ c.isDigit = true) := by
  cases n with
  | ofNat m =>
    obtain ⟨d, ds, hdigits, hdigit⟩ := exists_cons_toDigits m
    exact ⟨d, ds, (toList_render_ofNat m).trans hdigits, Or.inr hdigit⟩
  | negSucc m => exact ⟨'-', _, toList_render_negSucc m, Or.inl rfl⟩

theorem opening_render {depth : Nat} {v : Json} (h : v.Plain depth) : Opening v.render.toList := by
  cases v with
  | int n =>
    obtain ⟨c, rest, hcs, hc⟩ := exists_numeral n
    refine ⟨c, rest, hcs, ?_, ?_⟩
    · simp only [isBlank, Bool.or_eq_false_iff, decide_eq_false_iff_not]
      refine ⟨⟨⟨?_, ?_⟩, ?_⟩, ?_⟩ <;> rintro rfl <;> rcases hc with hc | hc <;> cases hc
    · rintro rfl
      rcases hc with hc | hc <;> cases hc
  | str s => exact ⟨'"', _, toList_render_str s, rfl, by decide⟩
  | arr xs => exact ⟨'[', _, toList_render_arr xs, rfl, by decide⟩
  | null => cases depth <;> cases h
  | bool b => cases depth <;> cases h
  | decimal s => cases depth <;> cases h
  | obj ms => cases depth <;> cases h

theorem skipBlank_of_opening {cs : List Char} (h : Opening cs) (rest : List Char) :
    skipBlank (cs ++ rest) = cs ++ rest := by
  obtain ⟨c, cs, rfl, hblank, -⟩ := h
  rw [List.cons_append, skipBlank, List.dropWhile_cons_of_neg (by simp [hblank])]

theorem value_number (fuel : Nat) {n : Int} (hword : isWord n = true) {rest : List Char}
    (hrest : Closing rest) :
    value (fuel + 1) ((render (int n)).toList ++ rest) = some (int n, rest) := by
  have hopening : Opening (render (int n)).toList :=
    opening_render (show (int n).Plain 0 from hword)
  have hread := number?_render hrest hword
  obtain ⟨c, cs, hcs, hc⟩ := exists_numeral n
  rw [value, skipBlank_of_opening hopening]
  rw [hcs, List.cons_append] at hread ⊢
  -- Every other branch starts with a character that no number starts with.
  have hfirst : ∀ d ds, c :: (cs ++ rest) = d :: ds → d = '-' ∨ d.isDigit = true :=
    fun d ds heq => (List.cons.inj heq).1 ▸ hc
  split
  case h_7 => exact hread
  all_goals exact absurd (hfirst _ _ (by assumption)) (by decide)

theorem value_string (fuel : Nat) (s : String) (rest : List Char) :
    value (fuel + 1) ((render (str s)).toList ++ rest) = some (str s, rest) := by
  have hread := stringTail_quoted [] s.toList rest
  have hopening : Opening (render (str s)).toList :=
    opening_render (show (str s).Plain 0 from trivial)
  rw [value, skipBlank_of_opening hopening, toList_render_str, List.cons_append,
    List.append_assoc, List.singleton_append]
  show (stringTail [] (s.toList.flatMap Writer.escape ++ '"' :: rest)).map _ = _
  rw [hread]
  simp

/-- The items of an array are read off their text, if each of them is. -/
theorem items_itemsText {xs : List Json} (hne : xs ≠ [])
    (hread : ∀ x ∈ xs, ∀ fuel rest, 2 * x.render.length ≤ fuel → Closing rest →
      value fuel (x.render.toList ++ rest) = some (x, rest))
    {fuel : Nat} (hfuel : 2 * (itemsText xs).length + 1 ≤ fuel) (rest : List Char) :
    items fuel (itemsText xs ++ ']' :: rest) = some (xs, rest) := by
  induction xs generalizing fuel with
  | nil => exact absurd rfl hne
  | cons x xs ih =>
    obtain ⟨hx, hxs⟩ := List.forall_mem_cons.mp hread
    obtain ⟨fuel, rfl⟩ := Nat.exists_eq_succ_of_ne_zero (Nat.ne_zero_of_lt hfuel)
    by_cases hlast : xs = []
    · have htext : itemsText (x :: xs) = x.render.toList := by
        rw [hlast, itemsText_singleton]
      rw [htext, String.length_toList] at hfuel
      have hvalue := hx fuel (']' :: rest) (by omega) fun c hc => Or.inr (Option.some.inj hc).symm
      rw [htext, hlast, items, hvalue]
      rfl
    · have htext := itemsText_cons x hlast
      rw [htext, List.length_append, List.length_cons, String.length_toList] at hfuel
      have hvalue := hx fuel (',' :: (itemsText xs ++ ']' :: rest)) (by omega)
        fun c hc => Or.inl (Option.some.inj hc).symm
      have hlater : items fuel (itemsText xs ++ ']' :: rest) = some (xs, rest) :=
        ih hlast hxs (by omega)
      rw [htext, List.append_assoc, List.cons_append, items, hvalue]
      show (items fuel (itemsText xs ++ ']' :: rest)).map _ = _
      rw [hlater]
      rfl

theorem opening_itemsText {depth : Nat} {xs : List Json} (hne : xs ≠ [])
    (h : ∀ x ∈ xs, x.Plain depth) : Opening (itemsText xs) := by
  obtain ⟨x, xs, rfl⟩ := List.exists_cons_of_ne_nil hne
  obtain ⟨c, rest, hcs, hblank, hopen⟩ := opening_render (h x List.mem_cons_self)
  by_cases hlast : xs = []
  · exact ⟨c, rest, by rw [hlast, itemsText_singleton, hcs], hblank, hopen⟩
  · exact ⟨c, rest ++ ',' :: itemsText xs, by rw [itemsText_cons x hlast, hcs, List.cons_append],
      hblank, hopen⟩

/-- Behind an opening bracket come the items of an array, unless it is closed at once. -/
theorem value_bracket (fuel : Nat) {cs : List Char} (h : Opening cs) :
    value (fuel + 1) ('[' :: cs) = (items fuel cs).map fun p => (arr p.1, p.2) := by
  have hblank := skipBlank_of_opening h []
  obtain ⟨c, cs, rfl, -, hopen⟩ := h
  rw [List.append_nil] at hblank
  have hbracket : skipBlank ('[' :: c :: cs) = '[' :: c :: cs := rfl
  simp only [value, hbracket, hblank]
  split
  · next heq => exact absurd (List.cons.inj heq).1 hopen
  · rfl

theorem value_array {depth fuel : Nat} {xs : List Json} (h : ∀ x ∈ xs, x.Plain depth)
    (hread : ∀ x ∈ xs, ∀ fuel rest, 2 * x.render.length ≤ fuel → Closing rest →
      value fuel (x.render.toList ++ rest) = some (x, rest))
    (hfuel : 2 * (itemsText xs).length + 1 ≤ fuel) (rest : List Char) :
    value (fuel + 1) ((render (arr xs)).toList ++ rest) = some (arr xs, rest) := by
  rw [toList_render_arr, List.cons_append, List.append_assoc, List.singleton_append]
  by_cases hne : xs = []
  · rw [hne]
    rfl
  · obtain ⟨c, cs, hcs, hblank, hopen⟩ := opening_itemsText hne h
    have hopening : Opening (itemsText xs ++ ']' :: rest) :=
      ⟨c, cs ++ ']' :: rest, by rw [hcs, List.cons_append], hblank, hopen⟩
    rw [value_bracket fuel hopening, items_itemsText hne hread hfuel]
    rfl

/-- What is enough to read a value is not nothing. -/
theorem exists_succ_of_length_render {depth fuel : Nat} {v : Json} (h : v.Plain depth)
    (hfuel : 2 * v.render.length ≤ fuel) : ∃ left, fuel = left + 1 := by
  obtain ⟨c, cs, hcs, -⟩ := opening_render h
  have hlength := congrArg List.length hcs
  rw [String.length_toList, List.length_cons] at hlength
  exact Nat.exists_eq_succ_of_ne_zero (by omega)

/-- A plain value is read off its text. -/
theorem value_render {depth fuel : Nat} {v : Json} {rest : List Char} (h : v.Plain depth)
    (hfuel : 2 * v.render.length ≤ fuel) (hrest : Closing rest) :
    value fuel (v.render.toList ++ rest) = some (v, rest) := by
  induction depth generalizing v fuel rest with
  | zero =>
    obtain ⟨fuel, rfl⟩ := exists_succ_of_length_render h hfuel
    cases v with
    | int n => exact value_number fuel h hrest
    | str s => exact value_string fuel s rest
    | null => cases h
    | bool b => cases h
    | decimal s => cases h
    | arr xs => cases h
    | obj ms => cases h
  | succ depth ih =>
    obtain ⟨fuel, rfl⟩ := exists_succ_of_length_render h hfuel
    cases v with
    | int n => exact value_number fuel h hrest
    | str s => exact value_string fuel s rest
    | arr xs =>
      have hlength := congrArg List.length (toList_render_arr xs)
      rw [String.length_toList, List.length_cons, List.length_append, List.length_singleton]
        at hlength
      exact value_array h (fun x hx _ _ hfuel hrest => ih (h x hx) hfuel hrest) (by omega) rest
    | null => cases h
    | bool b => cases h
    | decimal s => cases h
    | obj ms => cases h

end Values

end Reader

/-- A plain value is read as it was written. -/
theorem read_render {depth : Nat} {v : Json} (h : v.Plain depth) : read v.render = some v := by
  have hvalue : Reader.value (2 * v.render.length + 2) (v.render.toList ++ []) = some (v, []) :=
    Reader.value_render h (Nat.le_add_right _ 2) (by simp [Reader.Closing])
  rw [List.append_nil] at hvalue
  rw [read, hvalue]
  rfl

/-- JSON text keeps plain values. -/
theorem text_faithful (depth : Nat) : text.Faithful depth := by
  intro v h
  refine ⟨v.render, rfl, ?_⟩
  dsimp only [text]
  rw [read_render h]

end TextRevision.Json
