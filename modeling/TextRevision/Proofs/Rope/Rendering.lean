import TextRevision.Proofs.Cursor.Place
import TextRevision.Proofs.Rope.Balance
import TextRevision.Rope.Render

/-!
# Ropes written as strings

The text of a range is written in a walk of its own over the tree, which asks of every line and of
every rope whether the range meets it and whether it holds the break in front. What it writes are
the items of the range, with the separator for each break, whatever the tree. These are the items
that the extract of the range holds, which is cut out of the tree and balanced.

## Main definitions

- `Item.written`: what an item is written as

## Main statements

- `Rope.range_spec`: a rope writes the items of a range
- `Rope.toList_render`
- `Rope.Reachable.extract_refines`: the string of a range joins the lines of its extract
-/

namespace TextRevision

/-- What an item is written as: a character as itself, a break as a separator. -/
def Item.written (sep : String) : Item → List Char
  | none => sep.toList
  | some c => [c]

/-- Without a break among them, items are written as their characters. -/
theorem Item.flatMap_written (sep : String) (cs : List Char) :
    (cs.map some).flatMap (Item.written sep) = cs := by
  simp [List.flatMap_map, Item.written]

namespace Rope

variable {rule : Rule} {sep : String}

/-- What a range holds of a break, the items behind it and what comes then, told from the place
behind the break. -/
theorem range_break_append (xs ys : List Item) {start stop pos : Nat} (h : pos ≤ stop) :
    (((none :: xs) ++ ys).take (stop + 1 - pos)).drop (start + 1 - pos)
      = (if start < pos then [none] else []) ++ (xs.take (stop - pos)).drop (start - pos)
        ++ (ys.take (stop + 1 - (pos + xs.length + 1))).drop
          (start + 1 - (pos + xs.length + 1)) := by
  have hstop : stop + 1 - pos = stop - pos + 1 := by omega
  have hback : stop - pos - xs.length = stop + 1 - (pos + xs.length + 1) := by omega
  rw [hstop, List.cons_append, List.take_succ_cons, List.take_append, hback]
  by_cases hbreak : start < pos
  · have hstart : start + 1 - pos = 0 ∧ start - pos = 0
        ∧ start + 1 - (pos + xs.length + 1) = 0 := by omega
    rw [if_pos hbreak, hstart.1, hstart.2.1, hstart.2.2]
    rfl
  · have hstart : start + 1 - pos = start - pos + 1 := by omega
    rw [if_neg hbreak, hstart, List.drop_succ_cons, List.drop_append, List.nil_append]
    congr 1
    -- Where the range ends in front of what comes behind, none of it is left to be dropped.
    by_cases hshort : stop - pos < xs.length
    · rw [show stop + 1 - (pos + xs.length + 1) = 0 by omega]
      simp
    · rw [List.length_take, Nat.min_eq_right (Nat.not_lt.mp hshort)]
      congr 1
      omega

/-- A break is written where the range holds it. Only in front of the first line there is none. -/
theorem written_break {start pos : Nat} {first : Bool} (hfirst : first = true → pos ≤ start) :
    (if start < pos ∧ !first then [sep] else []).flatMap String.toList
      = (if start < pos then [none] else []).flatMap (Item.written sep) := by
  by_cases hbreak : start < pos
  · have hinner : first = false := by
      by_contra hne
      exact absurd (hfirst (by simpa using hne)) (Nat.not_le.mpr hbreak)
    simp [hbreak, hinner, Item.written]
  · simp [hbreak]

/-- The part of a line that a range holds. -/
theorem written_line (line : String) (start stop pos : Nat) :
    (if start < pos + line.length ∧ pos < stop then
        [Line.extract line (start - pos) (stop - pos)] else []).flatMap String.toList
      = (((Line.items line).take (stop - pos)).drop (start - pos)).flatMap (Item.written sep) := by
  have hlength : line.toList.length = line.length := String.length_toList ..
  rw [Line.items, ← List.map_take, ← List.map_drop, Item.flatMap_written, List.drop_take]
  split
  · simp
  · next hmiss =>
    refine (List.eq_nil_of_length_eq_zero ?_).symm
    rw [List.length_take, List.length_drop]
    omega

/-- Lines from place `pos` on write the items of a range, and the breaks in front of them. -/
theorem rangeOfBlock_spec (sep : String) (start stop : Nat) (lines : List String) (pos : Nat)
    (first : Bool) (hfirst : first = true → pos ≤ start) :
    (rangeOfBlock sep start stop lines pos first).flatMap String.toList
      = (((lines.flatMap fun line => none :: Line.items line).take (stop + 1 - pos)).drop
          (start + 1 - pos)).flatMap (Item.written sep) := by
  induction lines generalizing pos first with
  | nil => simp [rangeOfBlock]
  | cons line lines ih =>
    rw [rangeOfBlock]
    split
    · next hbehind =>
      rw [show stop + 1 - pos = 0 by omega]
      simp
    · next hahead =>
      have hrest := ih (pos + line.length + 1) false (by simp)
      rw [List.flatMap_cons, range_break_append _ _ (Nat.not_lt.mp hahead), Block.length_lineItems,
        List.flatMap_append, List.flatMap_append, List.flatMap_append, List.flatMap_append,
        written_break hfirst, written_line, hrest]

mutual

/-- A rope writes the items of a range. -/
theorem range_spec : (r : Rope) → r.Obeys rule → ∀ start stop : Nat,
    (r.range sep start stop).flatMap String.toList
      = ((r.items.take stop).drop start).flatMap (Item.written sep)
  | leaf lines length, h, start, stop => by
    have hlines := rangeOfBlock_spec sep start stop lines 0 true fun _ => Nat.zero_le start
    rw [← Cursor.items_eq_flatMap_lines h.1] at hlines
    exact hlines
  | branch children length lineCount, h, start, stop => by
    have hchildren := rangeAmong_spec children h.1 start stop 0 true fun _ => Nat.zero_le start
    rw [← Cursor.itemsOf_eq_flatMap h.1 (Cursor.children_ne_nil h)] at hchildren
    exact hchildren

/-- So do ropes from place `pos` on, and the breaks in front of them. -/
theorem rangeAmong_spec : (rs : List Rope) → AllObey rule rs → ∀ (start stop pos : Nat)
    (first : Bool), (first = true → pos ≤ start) →
    (rangeAmong sep rs start stop pos first).flatMap String.toList
      = (((rs.flatMap fun r => none :: r.items).take (stop + 1 - pos)).drop
          (start + 1 - pos)).flatMap (Item.written sep)
  | [], _, _, _, _, _, _ => by simp [rangeAmong]
  | r :: rs, h, start, stop, pos, first, hfirst => by
    have hlength : r.items.length = r.length := h.1.length_items
    have hown := range_spec r h.1 (start - pos) (stop - pos)
    have hrest := rangeAmong_spec rs h.2 start stop (pos + r.length + 1) false (by simp)
    have hmet : (if start < pos + r.length ∧ pos < stop then
          r.range sep (start - pos) (stop - pos) else []).flatMap String.toList
        = ((r.items.take (stop - pos)).drop (start - pos)).flatMap (Item.written sep) := by
      split
      · exact hown
      · next hmiss =>
        have hnone : (r.items.take (stop - pos)).drop (start - pos) = [] := by
          refine List.eq_nil_of_length_eq_zero ?_
          rw [List.length_drop, List.length_take, hlength]
          omega
        rw [hnone]
        rfl
    rw [rangeAmong]
    split
    · next hbehind =>
      rw [show stop + 1 - pos = 0 by omega]
      simp
    · next hahead =>
      rw [List.flatMap_cons, range_break_append _ _ (Nat.not_lt.mp hahead), hlength,
        List.flatMap_append, List.flatMap_append, List.flatMap_append, List.flatMap_append,
        written_break hfirst, hmet, hrest]

end

/-- The text between two places holds the items between them, their ends clipped to the document and
put in order, and the separator for each break. -/
theorem toList_render {r : Rope} (h : r.Obeys rule) (start stop : Nat) (sep : String) :
    (r.render start stop sep).toList
      = ((r.items.drop (clip r.length start stop).1).take
          ((clip r.length start stop).2 - (clip r.length start stop).1)).flatMap
            (Item.written sep) := by
  rw [← List.drop_take]
  exact String.toList_join.trans (range_spec r h _ _)

end Rope

/-- Lines joined by a separator are their items, written with the separator for each break. -/
theorem Block.toList_intercalate (sep : String) (lines : List String) :
    (sep.intercalate lines).toList = (Block.items lines).flatMap (Item.written sep) := by
  induction lines with
  | nil => rw [String.intercalate_nil, Block.items_nil]; rfl
  | cons line lines ih =>
    by_cases hlines : lines = []
    · subst hlines
      rw [String.intercalate_singleton, Block.items_singleton, Line.items, Item.flatMap_written]
    · rw [String.intercalate_cons_of_ne_nil hlines, Block.items_cons line hlines,
        String.toList_append, String.toList_append, ih, List.flatMap_append, List.flatMap_cons,
        Line.items, Item.flatMap_written, List.append_assoc]
      rfl

/-- An extract holds the characters and the breaks of the range between its ends, clipped to the
document and put in order, and the string of that range is the lines of the extract, joined by the
separator. -/
theorem Rope.Reachable.extract_refines {fits : Nat → Prop} {r : Rope} (h : Rope.Reachable fits r)
    (start stop : Nat) (sep : String) :
    let low := min (min start stop) r.length
    let high := min (max start stop) r.length
    (r.extract start stop).items = (r.items.drop low).take (high - low)
      ∧ (r.extract start stop).length = high - low
      ∧ r.render start stop sep = sep.intercalate (r.extract start stop).lines := by
  intro low high
  obtain ⟨hobeys, hitems⟩ := extract_spec Rule.builds_shareRule h.obeys start stop
  refine ⟨hitems, ?_, ?_⟩
  · have hhigh : high ≤ r.length := Nat.min_le_right _ _
    rw [← hobeys.length_items, hitems, List.length_take, List.length_drop, h.obeys.length_items]
    exact Nat.min_eq_left (Nat.sub_le_sub_right hhigh low)
  · rw [← String.toList_inj, toList_render h.obeys, Block.toList_intercalate, ← hitems]
    rfl

/-- The middle of two lines, from the break on. -/
theorem Rope.Reachable.extract_refines_from_a_break :
    Rope.ofLines? ["ab", "", "cd"] = .ok (Rope.ofBlock ["ab", "", "cd"])
      ∧ ((Rope.ofBlock ["ab", "", "cd"]).extract 5 2).length = 3
      ∧ (Rope.ofBlock ["ab", "", "cd"]).render 5 2 "||" = "||||c" := by
  have hlines : Rope.ofLines? ["ab", "", "cd"] = .ok (Rope.ofBlock ["ab", "", "cd"]) := rfl
  have hreach : Rope.Reachable (fun _ => True) (Rope.ofBlock ["ab", "", "cd"]) := .ofLines hlines
  obtain ⟨-, hlength, hrender⟩ := Rope.Reachable.extract_refines hreach 5 2 "||"
  exact ⟨hlines, hlength, hrender.trans (by decide +kernel)⟩

end TextRevision
