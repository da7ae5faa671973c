import TextRevision.Cursor.LineReader
import TextRevision.Proofs.Cursor.Excerpt

/-!
# Readers by lines

Of the reader that it drives a line reader asks no more than whether something is left, whether a
break comes next, and the chunk. What is proved of it holds over every reader that has items left
and reads the first chunk of them, be it a cursor over a document or a window.

An empty line is no chunk of such a reader. It is known by two breaks that meet, or by a break that
meets an end. So the lines that are left are told with a break in front of each: the one in front
of the first of them is left to be read, or the line reader stands behind it. In front of a text it
stands behind a break, too, though there is none.

## Main definitions

- `Chunked.Yields`: the chunks that a reader yields until it is done
- `Chunked.Reads`: readers that read the chunks of the items they have left
- `LineReader.Comes`: the lines that a line reader has left

## Main statements

- `LineReader.Comes.advance`: one line
- `LineReader.yields_ofReader`: over every reader, the lines of what it has left
- `Rope.Reachable.lines_read`
-/

namespace TextRevision

namespace Chunked

variable {γ : Type} [Chunked γ]

/-- A reader that yields some chunks, one after the other, and then is done. -/
inductive Yields : γ → List String → Prop
  | done {c : γ} : isDone (advance c 0) = true → Yields c []
  | next {c : γ} {chunks : List String} :
    isDone (advance c 0) = false → Yields (advance c 0) chunks →
    Yields c (chunk (advance c 0) :: chunks)

theorem Yields.toList {c : γ} {chunks : List String} (h : Yields c chunks) {limit : Nat}
    (hlimit : chunks.length < limit) : Chunked.toList limit c = chunks := by
  induction h generalizing limit with
  | done hdone =>
    obtain ⟨limit, rfl⟩ := Nat.exists_eq_succ_of_ne_zero (Nat.ne_of_gt hlimit)
    simp [Chunked.toList, hdone]
  | next hmore _ ih =>
    obtain ⟨limit, rfl⟩ := Nat.exists_eq_succ_of_ne_zero (Nat.ne_zero_of_lt hlimit)
    simp [Chunked.toList, hmore, ih (Nat.lt_of_succ_lt_succ hlimit)]

/-- Readers in a direction of which it is known what items they have left: they read the first chunk
of these, and have left what comes behind it. -/
structure Reads (dir : Direction) (Left : γ → List Item → Prop) : Prop where
  left_advance {c : γ} {xs : List Item} :
    Left c xs → Left (advance c 0) (xs.drop (Cursor.lead xs).length)
  chunk_eq {c : γ} {xs : List Item} :
    Left c xs → chunk (advance c 0) = Cursor.spell dir (Cursor.lead xs)
  isBreak_iff {c : γ} {xs : List Item} :
    Left c xs → (isBreak (advance c 0) = true ↔ xs.head? = some none)
  isDone_iff {c : γ} {xs : List Item} : Left c xs → (isDone (advance c 0) = true ↔ xs = [])

end Chunked

/-- A cursor that has left the last items of a document, told in the direction of reading. -/
def Cursor.Left (rule : Rope.Rule) (r : Rope) (dir : Direction) (c : Cursor) (xs : List Item) :
    Prop :=
  c.dir = dir ∧ ∃ place, c.Stands rule r place ∧ xs = (dir.order r.items).drop place

theorem Cursor.reads (rule : Rope.Rule) (r : Rope) (dir : Direction) :
    Chunked.Reads dir (Cursor.Left rule r dir) := by
  have hfound : ∀ {c : Cursor} {xs : List Item}, Cursor.Left rule r dir c xs →
      ∃ place ≤ r.items.length, xs = (dir.order r.items).drop place
        ∧ Found rule r dir xs (c.advance 0) := by
    rintro c xs ⟨rfl, place, hstands, rfl⟩
    have hle := hstands.le
    refine ⟨place, hle, rfl, (hstands.advance 0).congr (congrArg (List.drop · _) ?_)⟩
    omega
  refine ⟨fun h => ?_, fun h => ?_, fun h => ?_, fun h => ?_⟩
  · obtain ⟨place, hle, rfl, h⟩ := hfound h
    exact ⟨h.turned, _, h.stands hle, by rw [List.drop_drop]⟩
  · obtain ⟨-, -, -, h⟩ := hfound h
    exact h.chunk
  · obtain ⟨-, -, -, h⟩ := hfound h
    exact h.isBreak
  · obtain ⟨-, -, -, h⟩ := hfound h
    exact h.isDone

/-- A window that has left what a reader of its range has left. -/
def Window.Left (rule : Rope.Rule) (r : Rope) (first last : Nat) (dir : Direction) (w : Window)
    (xs : List Item) : Prop :=
  ∃ s : Excerpt, Follows rule r first last s w ∧ s.dir = dir ∧ s.left = xs

theorem Window.reads (rule : Rope.Rule) (r : Rope) (first last : Nat) (dir : Direction) :
    Chunked.Reads dir (Window.Left rule r first last dir) := by
  have hnext : ∀ {w : Window} {xs : List Item}, Window.Left rule r first last dir w xs →
      Follows rule r first last (Excerpt.read dir xs) (w.advance 0) := by
    rintro w xs ⟨s, hfollows, rfl, rfl⟩
    exact hfollows.advance 0 (.inr (.inl (Nat.zero_le _)))
  refine ⟨fun h => ?_, fun h => ?_, fun h => ?_, fun h => ?_⟩
  · exact ⟨_, hnext h, rfl, rfl⟩
  · exact (hnext h).chunk
  · rw [show Chunked.isBreak (Chunked.advance _ 0) = _ from (hnext h).isBreak]
    exact decide_eq_true_iff
  · rw [show Chunked.isDone (Chunked.advance _ 0) = _ from (hnext h).isDone]
    exact List.isEmpty_iff

namespace LineReader

variable {γ : Type} [Chunked γ] {dir : Direction} {Left : γ → List Item → Prop}
  {lines : List String} {c : LineReader γ}

/-- The items of lines in the order in which they are read, with a break in front of each line. -/
def trail (dir : Direction) (lines : List String) : List Item :=
  Cursor.trail dir (lines.map .line)

@[simp] theorem trail_nil : trail dir [] = [] := rfl

@[simp] theorem trail_cons (line : String) (lines : List String) :
    trail dir (line :: lines) = none :: dir.order (Line.items line) ++ trail dir lines := rfl

/-- The items of a block are those of its lines, with a break in front of each but the first. -/
theorem trail_order (h : lines ≠ []) (dir : Direction) :
    trail dir (dir.order lines) = none :: dir.order (Block.items lines) := by
  have hforward := Cursor.items_eq_flatMap_lines h
  rw [trail, Cursor.trail, List.flatMap_map]
  cases dir with
  | forward => exact hforward.symm
  | backward => exact (Cursor.cons_reverse_eq_flatMap hforward).symm

/-- The lines that a line reader has left: they are what its inner reader has left, told with the
break in front of the first of them, behind which the line reader may stand. -/
structure Comes (dir : Direction) (Left : γ → List Item → Prop) (lines : List String)
    (c : LineReader γ) : Prop where
  undone : c.isDone = false
  left : ∃ xs, Left c.inner xs ∧ (if c.afterBreak then none :: xs else xs) = trail dir lines

/-- In front of the characters of a line, a reader reads the line. -/
theorem advance_line (hreads : Chunked.Reads dir Left) {inner : γ} {line : String}
    (hline : dir.order (Line.items line) ≠ [])
    (hleft : Left inner (dir.order (Line.items line) ++ trail dir lines)) :
    Chunked.isDone (Chunked.advance inner 0) = false
      ∧ Chunked.isBreak (Chunked.advance inner 0) = false
      ∧ Chunked.chunk (Chunked.advance inner 0) = line
      ∧ Left (Chunked.advance inner 0) (trail dir lines) := by
  have hsome : ∀ x ∈ dir.order (Line.items line), x.isSome := by
    intro x hx
    exact Block.isSome_of_mem_lineItems (Direction.mem_order.mp hx)
  have hbehind : ∀ y ∈ (trail dir lines).head?, y = none := by
    cases lines <;> simp
  have hlead := Cursor.lead_line hline hsome hbehind
  refine ⟨?_, ?_, ?_, ?_⟩
  · rw [Bool.eq_false_iff]
    intro hdone
    exact hline (List.append_eq_nil_iff.mp ((hreads.isDone_iff hleft).mp hdone)).1
  · rw [Bool.eq_false_iff]
    intro hbreak
    have hhead := (hreads.isBreak_iff hleft).mp hbreak
    rw [List.head?_append_of_ne_nil _ hline] at hhead
    cases hsome none (List.mem_of_head? hhead)
  · rw [hreads.chunk_eq hleft, hlead, Cursor.spell_order, Cursor.spell_lineItems]
  · have hnext := hreads.left_advance hleft
    rwa [hlead, List.drop_left] at hnext

/-- Behind a break comes a line: an empty one if the inner reader is done or another break comes. -/
theorem Comes.settle (hreads : Chunked.Reads dir Left) {inner : γ} {xs : List Item} {line : String}
    (hundone : c.isDone = false) (hleft : Left inner xs)
    (hxs : none :: xs = trail dir (line :: lines)) :
    Comes dir Left lines (c.settle (Chunked.advance inner 0))
      ∧ (c.settle (Chunked.advance inner 0)).chunk = line := by
  obtain rfl : xs = dir.order (Line.items line) ++ trail dir lines := (List.cons.inj hxs).2
  rw [LineReader.settle]
  by_cases hempty : dir.order (Line.items line) = []
  · obtain rfl : line = "" := by simpa [Line.items] using hempty
    rw [hempty, List.nil_append] at hleft
    have hnext := hreads.left_advance hleft
    have hdone := hreads.isDone_iff hleft
    have hbreak := hreads.isBreak_iff hleft
    cases lines with
    | nil =>
      rw [if_pos (hdone.mpr rfl)]
      exact ⟨⟨hundone, _, hnext, rfl⟩, rfl⟩
    | cons next lines =>
      rw [if_neg fun h => List.cons_ne_nil _ _ (hdone.mp h), if_pos (hbreak.mpr rfl)]
      exact ⟨⟨hundone, _, hnext, rfl⟩, rfl⟩
  · obtain ⟨hdone, hbreak, hchunk, hnext⟩ := advance_line hreads hempty hleft
    rw [hdone, hbreak]
    exact ⟨⟨hundone, _, hnext, rfl⟩, hchunk⟩

/-- A line reader that has lines left reads the first of them. -/
theorem Comes.advance (hreads : Chunked.Reads dir Left) {line : String}
    (h : Comes dir Left (line :: lines) c) :
    Comes dir Left lines (c.advance 0) ∧ (c.advance 0).chunk = line := by
  obtain ⟨hundone, xs, hleft, hxs⟩ := h
  rw [LineReader.advance]
  by_cases hafter : c.afterBreak = true
  · rw [if_pos hafter] at hxs ⊢
    exact Comes.settle hreads hundone hleft hxs
  · rw [if_neg hafter] at hxs
    subst hxs
    have hnext := hreads.left_advance hleft
    have hmore : ¬ Chunked.isDone (Chunked.advance c.inner 0) = true := by
      intro h
      cases (hreads.isDone_iff hleft).mp h
    have hbreak : Chunked.isBreak (Chunked.advance c.inner 0) = true :=
      (hreads.isBreak_iff hleft).mpr rfl
    rw [if_neg hafter, if_neg hmore, if_pos hbreak]
    exact Comes.settle hreads hundone hnext rfl

/-- A line reader that has no lines left is done. -/
theorem Comes.isDone_advance (hreads : Chunked.Reads dir Left) (h : Comes dir Left [] c) :
    (c.advance 0).isDone = true := by
  obtain ⟨-, xs, hleft, hxs⟩ := h
  by_cases hafter : c.afterBreak = true
  · rw [if_pos hafter] at hxs
    cases hxs
  · rw [if_neg hafter] at hxs
    have hdone := (hreads.isDone_iff hleft).mpr hxs
    rw [LineReader.advance, if_neg hafter, if_pos hdone]

/-- So a line reader yields the lines that it has left. -/
theorem Comes.yields (hreads : Chunked.Reads dir Left) (h : Comes dir Left lines c) :
    Chunked.Yields c lines := by
  induction lines generalizing c with
  | nil => exact .done (h.isDone_advance hreads)
  | cons line lines ih =>
    obtain ⟨hrest, hchunk⟩ := h.advance hreads
    rw [← hchunk]
    exact .next hrest.undone (ih hrest)

/-- In front of the items of a block, a line reader yields the lines of the block. -/
theorem yields_ofReader (hreads : Chunked.Reads dir Left) {inner : γ} (hne : lines ≠ [])
    (hleft : Left inner (dir.order (Block.items lines))) :
    Chunked.Yields (ofReader inner) (dir.order lines) :=
  Comes.yields hreads ⟨rfl, _, hleft, (trail_order hne dir).symm⟩

end LineReader

namespace Rope

variable {rule : Rule} {r : Rope}

/-- Over a window, the lines of a block that holds the items of the range. -/
theorem yields_window (h : r.Obeys rule) (hshort : r.length ≤ lengthLimit) {start stop : Nat}
    {lines : List String} (hne : lines ≠ [])
    (hitems : r.itemsBetween start stop = Block.items lines) :
    Chunked.Yields (LineReader.ofReader (Window.ofRope r start stop))
      ((Excerpt.ofRope r start stop).dir.order lines) := by
  obtain ⟨first, last, -, hfollows⟩ := Window.follows_ofRope h hshort start stop
  exact LineReader.yields_ofReader (Window.reads rule r first last _) hne
    ⟨_, hfollows, rfl, congrArg (Direction.order _) hitems⟩

end Rope

end TextRevision
