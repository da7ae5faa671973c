import TextRevision.Proofs.Cursor.Lines
import TextRevision.Proofs.Rope.Addressing

/-!
# Lines with numbers in a range

A range of line numbers is looked up as a range of places, from the start of its first line to the
end of its last, and what is between these places is read line by line. Where the range has a line,
these are its lines. Where it has none, the places are the same one, and a line reader finds an
empty line there: a range of no lines is not told apart from one of an empty line.

## Main definitions

- `Rope.linesNumbered`: the lines with numbers in a range

## Main statements

- `Rope.lineReader_eq_ok`, `Rope.lineReader_eq_error`: the places that a range is looked up as
- `Rope.yields_linesNumbered`, `Rope.yields_of_behind_le`: what is read between them
- `Rope.lineReader?_eq`: ranges of which words hold both ends
- `Rope.Reachable.range_read`
-/

namespace TextRevision

namespace LineReader

theorem trail_append (dir : Direction) (front back : List String) :
    trail dir (front ++ back) = trail dir front ++ trail dir back := by
  simp [trail, Cursor.trail]

/-- With a break for each of them, lines have as many items as there are places up to what comes
behind them. -/
theorem length_trail (dir : Direction) (lines : List String) :
    (trail dir lines).length = Block.placeAfter lines := by
  induction lines with
  | nil => rfl
  | cons line lines ih =>
    simp only [trail_cons, List.length_append, List.length_cons, Direction.length_order,
      Block.length_lineItems, Block.placeAfter_cons, ih]

end LineReader

namespace Block

/-- The items from the start of some lines to the end of them. -/
theorem items_between (front back : List String) {middle : List String} (h : middle ≠ []) :
    ((items (front ++ (middle ++ back))).drop (placeAfter front)).take (Line.total middle)
      = items middle := by
  have hne : front ++ (middle ++ back) ≠ [] := by simp [h]
  have hall := LineReader.trail_order hne .forward
  have hmiddle := LineReader.trail_order h .forward
  simp only [Direction.order] at hall hmiddle
  have hbehind : (items (front ++ (middle ++ back))).drop (placeAfter front)
      = items middle ++ LineReader.trail .forward back := by
    rw [← List.drop_succ_cons (a := none), ← hall, LineReader.trail_append,
      LineReader.trail_append, hmiddle, List.drop_append, LineReader.length_trail]
    simp [LineReader.length_trail]
  rw [hbehind, ← length_items, List.take_left]

end Block

namespace Rope

variable {rule : Rule} {r : Rope} {lower upper : Bound}

/-- The lines with numbers in a range. -/
def linesNumbered (r : Rope) (lower upper : Bound) : List String :=
  (r.lines.drop (lower.first - 1)).take (upper.behind r.lineCount - lower.first)

theorem length_linesNumbered (h : r.Obeys rule) (hfirst : 1 ≤ lower.first)
    (hbehind : upper.behind r.lineCount ≤ r.lineCount + 1) :
    (r.linesNumbered lower upper).length = upper.behind r.lineCount - lower.first := by
  rw [h.lineCount_eq] at hbehind ⊢
  rw [linesNumbered, List.length_take, List.length_drop, h.lineCount_eq]
  omega

/-- The place of the first line of a range. -/
def rangeStart (r : Rope) (lower : Bound) : Nat :=
  Block.placeAfter (r.lines.take (lower.first - 1))

/-- The place behind the last line of a range, where there is such a line. -/
def rangeStop (r : Rope) (upper : Bound) : Nat :=
  Block.placeAfter (r.lines.take (upper.behind r.lineCount - 1)) - 1

/-- A line ends in front of the break that is in front of what comes behind it. -/
theorem exists_line (h : r.Obeys rule) {n : Nat} (hn : 1 ≤ n) (hle : n ≤ r.lineCount) :
    ∃ l, r.line n = .ok l ∧ l.start = Block.placeAfter (r.lines.take (n - 1))
      ∧ l.stop = Block.placeAfter (r.lines.take n) - 1 := by
  obtain ⟨i, rfl⟩ := Nat.exists_eq_add_of_le' hn
  have hi : i < r.lines.length := by
    rw [← h.lineCount_eq]
    exact hle
  have htext : r.lines[i]? = some r.lines[i] := List.getElem?_eq_getElem hi
  refine ⟨_, line_eq_ok h hn htext, rfl, ?_⟩
  rw [List.take_add_one, htext, Option.toList_some, Block.placeAfter_append, Block.placeAfter_cons,
    Block.placeAfter_nil]
  dsimp only
  rw [Nat.add_sub_cancel]
  omega

/-- A range of numbers of the document is looked up as one of places. -/
theorem lineReader_eq_ok (h : r.Obeys rule) (hfirst : 1 ≤ lower.first)
    (hle : lower.first ≤ r.lineCount) (hbehind : upper.behind r.lineCount ≤ r.lineCount + 1) :
    r.lineReader lower upper = .ok (LineReader.ofReader
      (Window.ofRope r (r.rangeStart lower) (max (r.rangeStart lower) (r.rangeStop upper)))) := by
  obtain ⟨l, hl, hstart, -⟩ := exists_line h hfirst hle
  simp only [lineReader, readerFrom, hl, bind, Except.bind, pure, Except.pure, hstart]
  split
  · next hend =>
    have hstop : r.rangeStop upper = r.length := by
      rw [rangeStop, hend, Nat.add_sub_cancel, h.lineCount_eq, List.take_length, h.length_eq,
        ← Block.total_add_one h.lines_ne_nil, Nat.add_sub_cancel]
    rw [hstop, rangeStart]
  · split
    · next hzero =>
      have hstop : r.rangeStop upper = 0 := by
        rw [rangeStop, Nat.sub_eq_zero_of_le hzero]
        rfl
      rw [hstop, rangeStart]
    · next hinner hmore =>
      obtain ⟨m, hm, -, hstop⟩ := exists_line h
        (show 1 ≤ upper.behind r.lineCount - 1 by omega) (by omega)
      rw [hm, rangeStop, ← hstop]
      rfl

/-- A range that begins or ends outside the document is refused with the number of a line that there
is not. -/
theorem lineReader_eq_error (h : r.Obeys rule) (hout : lower.first < 1 ∨ r.lineCount < lower.first
      ∨ r.lineCount + 1 < upper.behind r.lineCount) :
    ∃ n, (n < 1 ∨ r.lineCount < n)
      ∧ r.lineReader lower upper = .error (.lineNumber n r.lineCount) := by
  by_cases hfirst : lower.first < 1 ∨ r.lineCount < lower.first
  · refine ⟨lower.first, hfirst, ?_⟩
    simp only [lineReader, readerFrom, line_eq_error hfirst, bind, Except.bind]
  · obtain ⟨l, hl, -, -⟩ := exists_line h (show 1 ≤ lower.first by omega) (by omega)
    have hlast : r.lineCount < upper.behind r.lineCount - 1 := by omega
    refine ⟨upper.behind r.lineCount - 1, .inr hlast, ?_⟩
    simp only [lineReader, readerFrom, hl, bind, Except.bind]
    rw [if_neg (by omega), if_neg (by omega), line_eq_error (.inr hlast)]
    rfl

/-- A window over two places of the document is in front of what is between them. -/
theorem yields_between (h : r.Obeys rule) (hshort : r.length ≤ lengthLimit) {start stop : Nat}
    {lines : List String} (hle : start ≤ stop) (hstop : stop ≤ r.length) (hne : lines ≠ [])
    (hitems : (r.items.drop start).take (stop - start) = Block.items lines) :
    Chunked.Yields (LineReader.ofReader (Window.ofRope r start stop)) lines := by
  have hbetween : r.itemsBetween start stop = Block.items lines := by
    rw [← hitems, itemsBetween, clip_of_le hle hstop]
  have hyields := yields_window h hshort hne hbetween
  rwa [show (Excerpt.ofRope r start stop).dir = .forward from if_neg (by omega)] at hyields

/-- Where a range has a line, its lines are what is read between its places. -/
theorem yields_linesNumbered (h : r.Obeys rule) (hshort : r.length ≤ lengthLimit)
    (hfirst : 1 ≤ lower.first)
    (hbehind : upper.behind r.lineCount ≤ r.lineCount + 1)
    (hlt : lower.first < upper.behind r.lineCount) :
    Chunked.Yields (LineReader.ofReader
      (Window.ofRope r (r.rangeStart lower) (max (r.rangeStart lower) (r.rangeStop upper))))
      (r.linesNumbered lower upper) := by
  have hne : r.linesNumbered lower upper ≠ [] := by
    rw [← List.length_pos_iff, length_linesNumbered h hfirst hbehind]
    exact Nat.sub_pos_of_lt hlt
  have hfront : r.lines.take (upper.behind r.lineCount - 1)
      = r.lines.take (lower.first - 1) ++ r.linesNumbered lower upper := by
    rw [linesNumbered, ← List.take_add]
    congr 1
    omega
  have hlines : r.lines = r.lines.take (lower.first - 1) ++ (r.linesNumbered lower upper
      ++ r.lines.drop (upper.behind r.lineCount - 1)) := by
    rw [← List.append_assoc, ← hfront, List.take_append_drop]
  have htotal := Block.total_add_one hne
  have hstop : r.rangeStop upper
      = r.rangeStart lower + Line.total (r.linesNumbered lower upper) := by
    rw [rangeStop, hfront, Block.placeAfter_append, ← htotal, rangeStart]
    omega
  have hinside : r.rangeStop upper ≤ r.length := by
    have hall := Block.total_add_one h.lines_ne_nil
    rw [hlines, Block.placeAfter_append, Block.placeAfter_append, ← htotal, ← hlines,
      ← h.length_eq] at hall
    rw [hstop, rangeStart]
    omega
  have hle : r.rangeStart lower ≤ r.rangeStop upper := hstop ▸ Nat.le_add_right _ _
  rw [Nat.max_eq_right hle]
  refine yields_between h hshort hle hinside hne ?_
  rw [hstop, Nat.add_sub_cancel_left, items, hlines]
  exact Block.items_between _ _ hne

/-- Where a range has no line, its two places are one, and an empty line is read there. -/
theorem yields_of_behind_le (h : r.Obeys rule) (hshort : r.length ≤ lengthLimit)
    (hempty : upper.behind r.lineCount ≤ lower.first) :
    Chunked.Yields (LineReader.ofReader
      (Window.ofRope r (r.rangeStart lower) (max (r.rangeStart lower) (r.rangeStop upper))))
      [""] := by
  have hback : r.rangeStop upper ≤ r.rangeStart lower :=
    Nat.le_trans (Nat.sub_le _ _) (Block.placeAfter_take_le _ (Nat.sub_le_sub_right hempty 1))
  have hitems : r.itemsBetween (r.rangeStart lower) (r.rangeStart lower) = Block.items [""] := by
    simp [itemsBetween, clip, Block.items, Line.items]
  have hyields := yields_window h hshort (List.cons_ne_nil "" []) hitems
  rw [Nat.max_eq_left hback]
  rwa [show (Excerpt.ofRope r _ _).dir = .forward from if_neg (Nat.lt_irrefl _)] at hyields

end Rope

section Words

variable {r : Rope} {lower upper : Bound} {first behind lines : Nat}

theorem Bound.first_of_first? (h : lower.first? = some first) : lower.first = first := by
  cases lower with
  | included n => exact Option.some.inj h
  | excluded n => exact eq_of_word? h
  | unbounded => exact Option.some.inj h

theorem Bound.behind_of_behind? (h : upper.behind? lines = some behind) :
    upper.behind lines = behind := by
  cases upper with
  | included n => exact eq_of_word? h
  | excluded n => exact Option.some.inj h
  | unbounded => exact eq_of_word? h

/-- A range of which words hold both ends is read as it is. -/
theorem Rope.lineReader?_eq (hfirst : lower.first? = some first)
    (hbehind : upper.behind? r.lineCount = some behind) :
    r.lineReader? lower upper = .ofExcept (r.lineReader lower upper) := by
  rw [lineReader?, lineReader, hfirst, hbehind, Bound.first_of_first? hfirst,
    Bound.behind_of_behind? hbehind]
  rfl

theorem Rope.linesBetween?_eq (hfirst : lower.first? = some first)
    (hbehind : upper.behind? r.lineCount = some behind) :
    r.linesBetween? lower upper = .ofExcept (r.linesBetween lower upper) := by
  rw [linesBetween?, linesBetween, lineReader?_eq hfirst hbehind]
  cases r.lineReader lower upper <;> rfl

end Words

/-- A reader of the lines with numbers in a range yields these lines, if there is one; a range that
begins or ends outside the document is refused with the number of a line that there is not. Words
have to hold both ends of the range, and for what is read a signed one the length of the
document. -/
theorem Rope.Reachable.range_read {fits : Nat → Prop} {r : Rope} (h : Rope.Reachable fits r)
    (hlength : r.length ≤ lengthLimit) {lower upper : Bound} {first behind : Nat}
    (hfirst : lower.first? = some first) (hbehind : upper.behind? r.lineCount = some behind) :
    (1 ≤ first → first ≤ r.lineCount → behind ≤ r.lineCount + 1 →
      ∃ reader, r.lineReader? lower upper = .done reader
        ∧ (first < behind →
          Chunked.Yields reader (r.linesNumbered lower upper)
          ∧ r.linesBetween? lower upper = .done (r.linesNumbered lower upper)
          ∧ (r.linesNumbered lower upper).length = behind - first))
      ∧ (first < 1 ∨ r.lineCount < first ∨ r.lineCount + 1 < behind →
        ∃ n, (n < 1 ∨ r.lineCount < n)
          ∧ r.lineReader? lower upper = .refused (.lineNumber n r.lineCount)) := by
  have hobeys := h.obeys
  rw [Rope.lineReader?_eq hfirst hbehind, Rope.linesBetween?_eq hfirst hbehind]
  obtain rfl := Bound.first_of_first? hfirst
  obtain rfl := Bound.behind_of_behind? hbehind
  refine ⟨fun hstart hle hend => ?_, fun hout => ?_⟩
  · have hreader := Rope.lineReader_eq_ok hobeys hstart hle hend
    rw [Rope.linesBetween, hreader]
    refine ⟨_, rfl, fun hlt => ?_⟩
    have hyields := Rope.yields_linesNumbered hobeys hlength hstart hend hlt
    have hcount := Rope.length_linesNumbered hobeys hstart hend
    have hfew : r.lineCount ≤ r.length + 1 := by
      rw [hobeys.lineCount_eq, hobeys.length_eq, Block.total_add_one hobeys.lines_ne_nil]
      exact Block.length_le_placeAfter _
    exact ⟨hyields, congrArg Checked.done (hyields.toList (by omega)), hcount⟩
  · obtain ⟨n, hn, herror⟩ := Rope.lineReader_eq_error hobeys hout
    rw [herror]
    exact ⟨n, hn, rfl⟩

/-- Of three lines the second, which is empty; and a range that ends behind them. -/
theorem Rope.Reachable.range_read_an_empty_line :
    Rope.ofLines? ["a", "", "b"] = .ok (Rope.ofBlock ["a", "", "b"])
      ∧ (Rope.ofBlock ["a", "", "b"]).length ≤ lengthLimit
      ∧ (Bound.included 2).first? = some 2 ∧ (Bound.excluded 3).behind? 3 = some 3
      ∧ (Bound.included 4).behind? 3 = some 5
      ∧ (∃ reader,
        (Rope.ofBlock ["a", "", "b"]).lineReader? (.included 2) (.excluded 3) = .done reader
          ∧ Chunked.Yields reader [""])
      ∧ ∃ n, (n < 1 ∨ 3 < n)
        ∧ (Rope.ofBlock ["a", "", "b"]).lineReader? (.included 2) (.included 4)
          = .refused (.lineNumber n 3) := by
  have hlines : Rope.ofLines? ["a", "", "b"] = .ok (Rope.ofBlock ["a", "", "b"]) := rfl
  have hreach : Rope.Reachable (fun _ => True) (Rope.ofBlock ["a", "", "b"]) := .ofLines hlines
  have hlength : (Rope.ofBlock ["a", "", "b"]).length ≤ lengthLimit := by decide
  have hfirst : (Bound.included 2).first? = some 2 := rfl
  have hthree : (Bound.excluded 3).behind? 3 = some 3 := rfl
  have hfive : (Bound.included 4).behind? 3 = some 5 := rfl
  obtain ⟨hinside, -⟩ := Rope.Reachable.range_read hreach hlength hfirst hthree
  obtain ⟨-, houtside⟩ := Rope.Reachable.range_read hreach hlength hfirst hfive
  obtain ⟨reader, hreader, hread⟩ := hinside (by decide) (by decide) (by decide)
  exact ⟨hlines, hlength, hfirst, hthree, hfive, ⟨reader, hreader, (hread (by decide)).1⟩,
    houtside (.inr (.inr (by decide)))⟩

/-- A range of no lines inside the document is read as one empty line. -/
theorem Rope.Reachable.not_range_read :
    ∃ r, Rope.Reachable (fun _ => True) r ∧ r.lineCount = 2
      ∧ (∃ reader, r.lineReader? (.included 2) (.excluded 2) = .done reader
        ∧ Chunked.Yields reader [""])
      ∧ r.linesBetween? (.included 2) (.excluded 2) = .done [""]
      ∧ r.linesNumbered (.included 2) (.excluded 2) = [] := by
  have hlines : Rope.ofLines? ["one", "two"] = .ok (Rope.ofBlock ["one", "two"]) := rfl
  have hreach : Rope.Reachable (fun _ => True) (Rope.ofBlock ["one", "two"]) := .ofLines hlines
  have hfirst : 1 ≤ (Bound.included 2).first := by decide
  have hempty : (Bound.excluded 2).behind 2 ≤ (Bound.included 2).first := by decide
  have hreader := Rope.lineReader_eq_ok hreach.obeys hfirst (by decide)
    (show (Bound.excluded 2).behind 2 ≤ 3 by decide)
  have hyields := Rope.yields_of_behind_le hreach.obeys (by decide) hempty
  have hlower : (Bound.included 2).first? = some 2 := rfl
  have hupper : (Bound.excluded 2).behind? (Rope.ofBlock ["one", "two"]).lineCount = some 2 := rfl
  refine ⟨_, hreach, rfl, ⟨_, ?_, hyields⟩, ?_, rfl⟩
  · rw [Rope.lineReader?_eq hlower hupper, hreader]
    rfl
  · rw [Rope.linesBetween?_eq hlower hupper, Rope.linesBetween, hreader]
    exact congrArg Checked.done (hyields.toList (by decide))

end TextRevision
