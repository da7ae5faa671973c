import Mathlib
import TextRevision.Line.Block

/-!
# Documents as sequences of items

What a document says is the sequence of its items: its characters, and a break between every two
of its lines. Operations on lines are described by what they do to this sequence, and the lines can
be read off it again.

## Main definitions

- `Item`: a character or a break
- `Block.items`: the items of lines that stand under each other
- `Block.ofItems`: the lines of a sequence of items
-/

namespace TextRevision

/-- What stands at a place of a document: a character, or (`none`) the break between two lines. -/
abbrev Item := Option Char

/-- The items of one line. -/
def Line.items (line : String) : List Item :=
  line.toList.map some

namespace Block

/-- The items of lines that stand under each other. -/
def items (block : List String) : List Item :=
  [none].intercalate (block.map Line.items)

/-- The lines between the breaks of a sequence. -/
def ofItems (xs : List Item) : List String :=
  (xs.splitOn none).map fun line => String.ofList (line.filterMap id)

@[simp] theorem length_lineItems (line : String) : (Line.items line).length = line.length := by
  simp [Line.items, String.length_toList]

theorem isSome_of_mem_lineItems {line : String} {x : Item} (h : x ∈ Line.items line) :
    x.isSome := by
  obtain ⟨c, -, rfl⟩ := List.mem_map.mp h
  rfl

@[simp] theorem lineItems_append (s t : String) :
    Line.items (s ++ t) = Line.items s ++ Line.items t := by
  simp [Line.items]

@[simp] theorem lineItems_empty : Line.items "" = [] := rfl

@[simp] theorem lineItems_extract (s : String) (start stop : Nat) :
    Line.items (Line.extract s start stop) = ((Line.items s).drop start).take (stop - start) := by
  simp [Line.items, List.map_take, List.map_drop]

@[simp] theorem items_nil : items [] = [] := rfl

@[simp] theorem items_singleton (line : String) : items [line] = Line.items line := by
  simp [items]

theorem items_cons {block : List String} (line : String) (h : block ≠ []) :
    items (line :: block) = Line.items line ++ none :: items block := by
  rw [items, List.map_cons, List.intercalate_cons_of_ne_nil (by simpa using h)]
  simp [items]

theorem items_append {front back : List String} (hf : front ≠ []) (hb : back ≠ []) :
    items (front ++ back) = items front ++ none :: items back := by
  induction front with
  | nil => exact absurd rfl hf
  | cons line front ih =>
    by_cases h : front = []
    · subst h
      rw [List.singleton_append, items_cons line hb, items_singleton]
    · rw [List.cons_append, items_cons line (by simp [h]), ih h, items_cons line h]
      simp

/-- The length of a block counts its items. -/
theorem length_items (block : List String) : (items block).length = Line.total block := by
  induction block with
  | nil => rfl
  | cons line block ih =>
    by_cases h : block = []
    · subst h
      simp [Line.total]
    · obtain ⟨next, rest, rfl⟩ := List.exists_cons_of_ne_nil h
      rw [items_cons line h, List.length_append, List.length_cons, ih, length_lineItems]
      simp only [Line.total, sumBy_cons]
      omega

theorem total_append {a b : List String} (ha : a ≠ []) (hb : b ≠ []) :
    Line.total (a ++ b) = Line.total a + 1 + Line.total b := by
  simp only [← length_items, items_append ha hb, List.length_append, List.length_cons]
  omega

/-- A block of at least one line can be read off its items. -/
theorem ofItems_items {block : List String} (h : block ≠ []) : ofItems (items block) = block := by
  -- No line holds a break, so that splitting at the breaks gives the lines back.
  have hbreak : ∀ line ∈ block.map Line.items, (none : Item) ∉ line := by
    intro line hline
    obtain ⟨s, -, rfl⟩ := List.mem_map.mp hline
    simp [Line.items]
  rw [ofItems, items, List.splitOn_intercalate none hbreak (by simpa using h), List.map_map]
  refine (List.map_congr_left fun line _ => ?_).trans (List.map_id block)
  simp [Line.items, List.filterMap_map]

/-- Blocks with the same items are the same. -/
theorem eq_of_items_eq {a b : List String} (ha : a ≠ []) (hb : b ≠ [])
    (h : items a = items b) : a = b := by
  rw [← ofItems_items ha, h, ofItems_items hb]

theorem glue_cons (line next : String) (front back : List String) :
    glue (line :: next :: front) back = line :: glue (next :: front) back := by
  cases back <;> rfl

theorem glue_ne_nil {front : List String} (back : List String) (h : front ≠ []) :
    glue front back ≠ [] := by
  cases front with
  | nil => exact absurd rfl h
  | cons line front =>
    cases front with
    | nil => cases back <;> simp [glue]
    | cons next front => simp [glue_cons]

/-- Gluing two blocks puts their items behind each other. -/
@[simp] theorem items_glue (front back : List String) :
    items (glue front back) = items front ++ items back := by
  induction front with
  | nil => simp [glue]
  | cons line front ih =>
    cases front with
    | nil =>
      cases back with
      | nil => simp [glue]
      | cons first later =>
        by_cases h : later = []
        · subst h
          simp [glue]
        · simp [glue, items_cons _ h]
    | cons next front =>
      have hne : glue (next :: front) back ≠ [] := glue_ne_nil back (by simp)
      rw [glue_cons, items_cons line hne, ih, items_cons line (by simp)]
      simp

/-- The lines of a glued block: two of the lines become one. -/
theorem length_glue {front back : List String} (hf : front ≠ []) (hb : back ≠ []) :
    (glue front back).length + 1 = front.length + back.length := by
  induction front with
  | nil => exact absurd rfl hf
  | cons line front ih =>
    match front, back with
    | [], first :: later =>
      simp only [glue, List.length_cons, List.length_nil]
      omega
    | next :: front, first :: later =>
      have := ih (by simp)
      simp only [glue, List.length_cons] at this ⊢
      omega

theorem pieces_ne_nil {block : List String} {start stop : Nat} (h : block ≠ [])
    (hs : start ≤ Line.total block) (hle : start ≤ stop) : pieces block start stop ≠ [] := by
  induction block generalizing start stop with
  | nil => exact absurd rfl h
  | cons line block ih =>
    by_cases hl : start ≤ line.length
    · simp [pieces, hl]
    · by_cases hb : block = []
      · subst hb
        simp only [Line.total, sumBy_cons, sumBy_nil] at hs
        omega
      · obtain ⟨next, rest, rfl⟩ := List.exists_cons_of_ne_nil hb
        have htot : start - (line.length + 1) ≤ Line.total (next :: rest) := by
          simp only [Line.total, sumBy_cons] at hs ⊢
          omega
        have := ih hb htot (Nat.sub_le_sub_right hle (line.length + 1))
        simpa [pieces, hl, show ¬ stop ≤ line.length by omega] using this

section Window

variable {xs ys : List Item} {start stop : Nat}

/-- A range that ends in the front part of a sequence. -/
theorem window_front (h : stop ≤ xs.length) :
    ((xs ++ none :: ys).drop start).take (stop - start) = (xs.drop start).take (stop - start) := by
  by_cases hs : start ≤ xs.length
  · rw [List.drop_append_of_le_length hs, List.take_append_of_le_length]
    rw [List.length_drop]
    omega
  · simp [show stop - start = 0 by omega]

/-- A range that starts in the front part and ends in the back part holds the break between them. -/
theorem window_across (h : start ≤ xs.length) (h' : xs.length < stop) :
    ((xs ++ none :: ys).drop start).take (stop - start)
      = xs.drop start ++ none :: ys.take (stop - (xs.length + 1)) := by
  have hrest : stop - start - (xs.drop start).length = stop - (xs.length + 1) + 1 := by
    rw [List.length_drop]
    omega
  rw [List.drop_append_of_le_length h, List.take_append, hrest, List.take_succ_cons,
    List.take_of_length_le]
  rw [List.length_drop]
  omega

/-- A range that starts in the back part. -/
theorem window_back (h : xs.length < start) :
    ((xs ++ none :: ys).drop start).take (stop - start)
      = (ys.drop (start - (xs.length + 1))).take
          (stop - (xs.length + 1) - (start - (xs.length + 1))) := by
  have hstart : start - xs.length = start - (xs.length + 1) + 1 := by omega
  rw [List.drop_append, List.drop_eq_nil_of_le (by omega), List.nil_append, hstart,
    List.drop_succ_cons]
  congr 1
  omega

end Window

/-- The pieces of a range hold the items of the range. -/
@[simp] theorem items_pieces (block : List String) (start stop : Nat) :
    items (pieces block start stop) = ((items block).drop start).take (stop - start) := by
  induction block generalizing start stop with
  | nil => simp [pieces]
  | cons line block ih =>
    have hlen := length_lineItems line
    by_cases hb : block = []
    · subst hb
      by_cases hs : start ≤ line.length
      · simp only [pieces, hs, if_true, ite_self, List.append_nil, items_singleton,
          lineItems_extract]
        refine List.take_eq_take_iff.mpr ?_
        simp only [List.length_drop, hlen]
        omega
      · simp [pieces, hs, List.drop_eq_nil_of_le (show (Line.items line).length ≤ start by omega)]
    · rw [items_cons line hb]
      by_cases hstop : stop ≤ line.length
      · rw [window_front (by omega)]
        by_cases hs : start ≤ line.length
        · simp [pieces, hs, hstop]
        · simp [pieces, hs, hstop, show stop - start = 0 by omega]
      · by_cases hs : start ≤ line.length
        · -- the range runs over the end of the line, so that the break behind it belongs to it
          have hne : pieces block 0 (stop - (line.length + 1)) ≠ [] :=
            pieces_ne_nil hb (Nat.zero_le _) (Nat.zero_le _)
          have hzero : start - (line.length + 1) = 0 := by omega
          have hmin : min line.length stop = line.length := by omega
          rw [window_across (by omega) (by omega)]
          simp only [pieces, hs, hstop, if_true, if_false, hzero, hmin, List.singleton_append]
          rw [items_cons _ hne, ih, lineItems_extract, List.take_of_length_le, hlen]
          · simp
          · rw [List.length_drop]
            omega
        · rw [window_back (by omega)]
          simp [pieces, hs, hstop, ih]

/-- The block of a range holds the items of the range. -/
@[simp] theorem items_extract (block : List String) (start stop : Nat) :
    items (extract block start stop) = ((items block).drop start).take (stop - start) := by
  simp [extract]

theorem length_pieces_le (block : List String) (start stop : Nat) :
    (pieces block start stop).length ≤ block.length := by
  induction block generalizing start stop with
  | nil => simp [pieces]
  | cons line block ih =>
    have := ih (start - (line.length + 1)) (stop - (line.length + 1))
    simp only [pieces, List.length_append, List.length_cons]
    split <;> split <;> simp only [List.length_cons, List.length_nil] <;> omega

/-- A range does not have more lines than the block. -/
theorem length_extract_le (block : List String) (start stop : Nat) (h : block ≠ []) :
    (extract block start stop).length ≤ block.length := by
  have hle := length_pieces_le block start stop
  rw [extract]
  by_cases hp : pieces block start stop = []
  · rw [hp, glue_nil]
    exact List.length_pos_iff.mpr h
  · have := length_glue (show [""] ≠ [] by simp) hp
    simp only [List.length_cons, List.length_nil] at this
    omega

theorem extract_ne_nil (block : List String) (start stop : Nat) : extract block start stop ≠ [] :=
  glue_ne_nil _ (by simp)

end Block

end TextRevision
