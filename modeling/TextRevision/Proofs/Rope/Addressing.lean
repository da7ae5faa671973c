import TextRevision.Proofs.Rope.Balance
import TextRevision.Rope.Lookup

/-!
# Lines by number and by place

One search serves two keys. It stops at the first line that reaches a target, and it passes a rope
whose last line does not, which the numbers stored in the rope tell. Numbers and places grow from
line to line, so that what the search finds in the tree is what it would find among the lines. A
break belongs to the line that it ends, also where it stands between two ropes.

## Main definitions

- `Block.placed`: lines with their numbers and the places where they stand

## Main statements

- `Rope.find?_spec`: the search in a tree is a search among its lines
- `Rope.line_of_mem_placed`, `Rope.lineAt_of_mem_placed`: every line is found by its number, and by
  every place in it
- `Rope.Reachable.lines_addressed`
-/

namespace TextRevision

namespace Block

/-- The place where a line starts that stands under others. -/
def placeAfter (lines : List String) : Nat :=
  sumBy (fun line => line.length + 1) lines

/-- Lines with the places where they stand and their numbers, from a number and a place on. -/
def placed : List String → (number start : Nat) → List PlacedLine
  | [], _, _ => []
  | line :: lines, number, start =>
    ⟨start, start + line.length, number, line⟩
      :: placed lines (number + 1) (start + line.length + 1)

variable {lines : List String} {number start : Nat} {l : PlacedLine}

@[simp] theorem placeAfter_nil : placeAfter [] = 0 := rfl

@[simp] theorem placeAfter_cons (line : String) (lines : List String) :
    placeAfter (line :: lines) = line.length + 1 + placeAfter lines := rfl

theorem placeAfter_append (front back : List String) :
    placeAfter (front ++ back) = placeAfter front + placeAfter back :=
  sumBy_append ..

theorem placeAfter_take_le (lines : List String) {i j : Nat} (h : i ≤ j) :
    placeAfter (lines.take i) ≤ placeAfter (lines.take j) := by
  obtain ⟨n, rfl⟩ := Nat.exists_eq_add_of_le h
  rw [List.take_add, placeAfter_append]
  exact Nat.le_add_right _ _

/-- Every line takes a place, if only for its break. -/
theorem length_le_placeAfter (lines : List String) : lines.length ≤ placeAfter lines := by
  induction lines with
  | nil => exact Nat.le_refl _
  | cons line lines ih =>
    rw [List.length_cons, placeAfter_cons]
    omega

theorem total_add_one (h : lines ≠ []) : Line.total lines + 1 = placeAfter lines := by
  obtain ⟨line, rest, rfl⟩ := List.exists_cons_of_ne_nil h
  simp only [Line.total, placeAfter, sumBy_cons]
  omega

theorem placed_append (front back : List String) (number start : Nat) :
    placed (front ++ back) number start = placed front number start
      ++ placed back (number + front.length) (start + placeAfter front) := by
  induction front generalizing number start with
  | nil => rfl
  | cons line front ih =>
    rw [List.cons_append, placed, placed, ih, List.length_cons, placeAfter_cons, List.cons_append,
      show number + 1 + front.length = number + (front.length + 1) by omega,
      show start + line.length + 1 + placeAfter front
        = start + (line.length + 1 + placeAfter front) by omega]

/-- The line with index `i` stands behind the lines in front of it. -/
theorem getElem?_placed (lines : List String) (number start i : Nat) :
    (placed lines number start)[i]? = lines[i]?.map fun line =>
      ⟨start + placeAfter (lines.take i), start + placeAfter (lines.take i) + line.length,
        number + i, line⟩ := by
  induction lines generalizing number start i with
  | nil => rfl
  | cons line lines ih =>
    cases i with
    | zero => rfl
    | succ i =>
      rw [placed, List.getElem?_cons_succ, List.getElem?_cons_succ, ih, List.take_succ_cons,
        placeAfter_cons, show number + 1 + i = number + (i + 1) by omega,
        show start + line.length + 1 + placeAfter (lines.take i)
          = start + (line.length + 1 + placeAfter (lines.take i)) by omega]

/-- A line starts where the lines start or behind, and ends where they end or in front. -/
theorem bounds_of_mem_placed (h : l ∈ placed lines number start) :
    (number ≤ l.number ∧ l.number + 1 ≤ number + lines.length)
      ∧ start ≤ l.start ∧ l.start ≤ l.stop ∧ l.stop + 1 ≤ start + placeAfter lines := by
  induction lines generalizing number start with
  | nil => simp [placed] at h
  | cons line lines ih =>
    rw [List.length_cons, placeAfter_cons]
    rcases List.mem_cons.mp h with rfl | h
    · dsimp only
      omega
    · have := ih h
      omega

/-- The last line has the last number, and ends where the lines end. -/
theorem exists_last_placed (number start : Nat) (h : lines ≠ []) :
    ∃ l ∈ placed lines number start,
      l.number + 1 = number + lines.length ∧ l.stop + 1 = start + placeAfter lines := by
  induction lines generalizing number start with
  | nil => exact absurd rfl h
  | cons line lines ih =>
    rw [List.length_cons, placeAfter_cons]
    by_cases hlines : lines = []
    · subst hlines
      exact ⟨_, List.mem_cons_self, rfl, by simp only [placeAfter_nil]; omega⟩
    · obtain ⟨l, hl, hnumber, hstop⟩ := ih (number + 1) (start + line.length + 1) hlines
      exact ⟨l, List.mem_cons_of_mem _ hl, by omega, by omega⟩

/-- Numbers and places grow from line to line. -/
theorem pairwise_placed (lines : List String) (number start : Nat) :
    (placed lines number start).Pairwise fun a b => a.number < b.number ∧ a.stop < b.start := by
  induction lines generalizing number start with
  | nil => exact .nil
  | cons line lines ih =>
    refine List.pairwise_cons.mpr ⟨fun l hl => ?_, ih (number + 1) (start + line.length + 1)⟩
    have := bounds_of_mem_placed hl
    dsimp only
    omega

/-- Every place belongs to a line, that of a break to the line in front of it. -/
theorem exists_placed_at {pos : Nat} (number : Nat) (h : lines ≠ []) (hstart : start ≤ pos)
    (hstop : pos + 1 ≤ start + placeAfter lines) :
    ∃ l ∈ placed lines number start, l.start ≤ pos ∧ pos ≤ l.stop := by
  induction lines generalizing number start with
  | nil => exact absurd rfl h
  | cons line lines ih =>
    rw [placeAfter_cons] at hstop
    by_cases hline : pos ≤ start + line.length
    · exact ⟨_, List.mem_cons_self, hstart, hline⟩
    · have hlines : lines ≠ [] := by
        rintro rfl
        rw [placeAfter_nil] at hstop
        omega
      have hnext : start + line.length + 1 ≤ pos := by omega
      obtain ⟨l, hl, hpos⟩ := ih (number + 1) hlines hnext (by omega)
      exact ⟨l, List.mem_cons_of_mem _ hl, hpos⟩

end Block

namespace Rope

variable {rule : Rule} {target : Target} {lines : List String} {number start : Nat} {r : Rope}
  {l : PlacedLine}

/-- Whether a line reaches a target. -/
def Target.metBy (target : Target) (l : PlacedLine) : Bool :=
  target.reached l.number l.stop

/-- What a line reaches, every later line reaches. -/
theorem Target.reached_mono {number number' stop stop' : Nat} (hnumber : number ≤ number')
    (hstop : stop ≤ stop') (h : target.reached number stop = true) :
    target.reached number' stop' = true := by
  cases target with
  | number n => exact decide_eq_true (Nat.le_trans (of_decide_eq_true h) hnumber)
  | place pos => exact decide_eq_true (Nat.le_trans (of_decide_eq_true h) hstop)

/-- Lines whose last one reaches a target are those among which one does. -/
theorem reached_last_iff (target : Target) (number start : Nat) (hne : lines ≠ []) :
    target.reached (number + lines.length - 1) (start + Line.total lines) = true
      ↔ ∃ l ∈ Block.placed lines number start, target.metBy l = true := by
  have htotal := Block.total_add_one hne
  constructor
  · intro hreached
    obtain ⟨l, hl, hnumber, hstop⟩ := Block.exists_last_placed number start hne
    exact ⟨l, hl, Target.reached_mono (by omega) (by omega) hreached⟩
  · rintro ⟨l, hl, hmet⟩
    have hbounds := Block.bounds_of_mem_placed hl
    exact Target.reached_mono (by omega) (by omega) hmet

theorem findInBlock?_eq (target : Target) (lines : List String) (number start : Nat) :
    findInBlock? target lines number start
      = (Block.placed lines number start).find? target.metBy := by
  induction lines generalizing number start with
  | nil => rfl
  | cons line lines ih =>
    rw [findInBlock?, Block.placed, List.find?_cons, ih]
    simp only [Target.metBy]
    cases target.reached number (start + line.length) <;> rfl

mutual

/-- The search in a tree finds what a search among its lines finds. -/
theorem find?_spec (target : Target) : (r : Rope) → r.Obeys rule → ∀ number start : Nat,
    r.find? target number start = (Block.placed r.lines number start).find? target.metBy
  | leaf lines _, _, number, start => findInBlock?_eq target lines number start
  | branch children _ _, h, number, start => findAmong?_spec target children h.1 number start

theorem findAmong?_spec (target : Target) : (rs : List Rope) → AllObey rule rs →
    ∀ number start : Nat, findAmong? target rs number start
      = (Block.placed (linesOf rs) number start).find? target.metBy
  | [], _, _, _ => rfl
  | r :: rs, h, number, start => by
    have hlast := reached_last_iff target number start h.1.lines_ne_nil
    have hplace := Block.total_add_one h.1.lines_ne_nil
    rw [findAmong?, linesOf, Block.placed_append, List.find?_append, h.1.lineCount_eq,
      h.1.length_eq]
    split
    · next hreached =>
      rw [Option.or_of_isSome (List.find?_isSome.mpr (hlast.mp hreached))]
      exact find?_spec target r h.1 number start
    -- None of the lines of the first rope reaches the target.
    · next hpassed =>
      have hnone : (Block.placed r.lines number start).find? target.metBy = none := by
        rw [List.find?_eq_none]
        intro l hl hmet
        exact hpassed (hlast.mpr ⟨l, hl, hmet⟩)
      rw [hnone, Option.none_or, findAmong?_spec target rs h.2, Nat.add_assoc start, hplace]

end

/-- A line that reaches a target is found if those in front of it do not. -/
theorem find?_placed (hl : l ∈ Block.placed lines number start) (hmet : target.metBy l = true)
    (hfirst : ∀ a : PlacedLine, a.number < l.number → a.stop < l.start → target.metBy a = false) :
    (Block.placed lines number start).find? target.metBy = some l := by
  have hpairwise := Block.pairwise_placed lines number start
  obtain ⟨front, back, hsplit⟩ := List.append_of_mem hl
  rw [hsplit] at hpairwise ⊢
  refine List.find?_eq_some_iff_append.mpr ⟨hmet, front, back, rfl, fun a ha => ?_⟩
  obtain ⟨hnumber, hstop⟩ :=
    (List.pairwise_append.mp hpairwise).2.2 a ha l List.mem_cons_self
  rw [hfirst a hnumber hstop]
  rfl

/-- The lines of a document with their numbers and the places where they stand. -/
def placed (r : Rope) : List PlacedLine :=
  Block.placed r.lines 1 0

/-- A line is looked for if there is one with its number. -/
theorem line_eq_ok_iff {n : Nat} :
    r.line n = .ok l ↔ (1 ≤ n ∧ n ≤ r.lineCount) ∧ r.find? (.number n) 1 0 = some l := by
  rw [line]
  split
  · next hout => exact iff_of_false (fun h => by cases h) fun h => by omega
  · next hin =>
    have hn : 1 ≤ n ∧ n ≤ r.lineCount := by omega
    cases r.find? (.number n) 1 0 <;> simp [hn]

theorem lineAt_eq_ok_iff {pos : Nat} :
    r.lineAt pos = .ok l ↔ pos ≤ r.length ∧ r.find? (.place pos) 1 0 = some l := by
  rw [lineAt]
  split
  · next hout => exact iff_of_false (fun h => by cases h) fun h => by omega
  · next hin =>
    have hpos : pos ≤ r.length := Nat.not_lt.mp hin
    cases r.find? (.place pos) 1 0 <;> simp [hpos]

/-- What is found by a number is a line. -/
theorem mem_placed_of_line (h : r.Obeys rule) {n : Nat} (hline : r.line n = .ok l) :
    l ∈ r.placed := by
  obtain ⟨-, hfind⟩ := line_eq_ok_iff.mp hline
  rw [find?_spec _ r h] at hfind
  exact List.mem_of_find?_eq_some hfind

/-- A line is found by its number. -/
theorem line_of_mem_placed (h : r.Obeys rule) (hl : l ∈ r.placed) : r.line l.number = .ok l := by
  have hbounds := Block.bounds_of_mem_placed hl
  refine line_eq_ok_iff.mpr ⟨by rw [h.lineCount_eq]; omega, ?_⟩
  rw [find?_spec _ r h]
  refine find?_placed hl (decide_eq_true (Nat.le_refl _)) fun a hnumber _ => ?_
  exact decide_eq_false (Nat.not_le.mpr hnumber)

/-- A line is found by every place in it, and by that of the break behind it. -/
theorem lineAt_of_mem_placed (h : r.Obeys rule) (hl : l ∈ r.placed) {pos : Nat}
    (hstart : l.start ≤ pos) (hstop : pos ≤ l.stop) : r.lineAt pos = .ok l := by
  have hbounds := Block.bounds_of_mem_placed hl
  have htotal := Block.total_add_one h.lines_ne_nil
  refine lineAt_eq_ok_iff.mpr ⟨by rw [h.length_eq]; omega, ?_⟩
  rw [find?_spec _ r h]
  refine find?_placed hl (decide_eq_true hstop) fun a _ hbefore => ?_
  exact decide_eq_false (Nat.not_le.mpr (Nat.lt_of_lt_of_le hbefore hstart))

/-- The line with a number stands behind those with smaller numbers. -/
theorem line_eq_ok (h : r.Obeys rule) {n : Nat} (hn : 1 ≤ n) {text : String}
    (htext : r.lines[n - 1]? = some text) :
    r.line n = .ok ⟨Block.placeAfter (r.lines.take (n - 1)),
      Block.placeAfter (r.lines.take (n - 1)) + text.length, n, text⟩ := by
  have hplaced : r.placed[n - 1]? = some ⟨Block.placeAfter (r.lines.take (n - 1)),
      Block.placeAfter (r.lines.take (n - 1)) + text.length, n, text⟩ := by
    rw [placed, Block.getElem?_placed, htext, Option.map_some, Nat.zero_add,
      show 1 + (n - 1) = n by omega]
  exact line_of_mem_placed h (List.mem_of_getElem? hplaced)

/-- Every place of a document belongs to a line. -/
theorem exists_placed_at (h : r.Obeys rule) {pos : Nat} (hpos : pos ≤ r.length) :
    ∃ l ∈ r.placed, l.start ≤ pos ∧ pos ≤ l.stop := by
  have htotal := Block.total_add_one h.lines_ne_nil
  rw [h.length_eq] at hpos
  exact Block.exists_placed_at 1 h.lines_ne_nil (Nat.zero_le pos) (by omega)

theorem line_eq_error {n : Nat} (hn : n < 1 ∨ r.lineCount < n) :
    r.line n = .error (.lineNumber n r.lineCount) :=
  if_pos hn

end Rope

/-- The lines of a document are found by the numbers from one to that of all lines. The line with a
number is the one that the number counts to, and it starts behind the lines in front of it and the
breaks that end them. A line is found by a place if the place is not behind the end, and it is the
one line that starts there or in front of it and ends there or behind it. Both searches come to an
end at a line, and everything else is refused with the number or the place. -/
theorem Rope.Reachable.lines_addressed {fits : Nat → Prop} {r : Rope} (h : Rope.Reachable fits r) :
    (∀ n, 1 ≤ n → n ≤ r.lineCount → ∃ text, r.lines[n - 1]? = some text
        ∧ r.line n = .ok ⟨Block.placeAfter (r.lines.take (n - 1)),
            Block.placeAfter (r.lines.take (n - 1)) + text.length, n, text⟩
        ∧ r.find? (.number n) 1 0 ≠ none)
      ∧ (∀ n, n < 1 ∨ r.lineCount < n → r.line n = .error (.lineNumber n r.lineCount))
      ∧ (∀ pos, pos ≤ r.length → ∃ l, r.lineAt pos = .ok l ∧ r.line l.number = .ok l
        ∧ l.start ≤ pos ∧ pos ≤ l.stop
        ∧ (∀ n m, r.line n = .ok m → m.start ≤ pos → pos ≤ m.stop → m = l)
        ∧ r.find? (.place pos) 1 0 ≠ none)
      ∧ ∀ pos, r.length < pos → r.lineAt pos = .error (.position pos r.length) := by
  have hobeys := h.obeys
  refine ⟨fun n hn hle => ?_, fun n hn => Rope.line_eq_error hn, fun pos hpos => ?_,
    fun pos hpos => if_pos hpos⟩
  · rw [hobeys.lineCount_eq] at hle
    have htext : r.lines[n - 1]? = some r.lines[n - 1] := List.getElem?_eq_getElem (by omega)
    have hline := Rope.line_eq_ok hobeys hn htext
    refine ⟨_, htext, hline, ?_⟩
    rw [(Rope.line_eq_ok_iff.mp hline).2]
    exact Option.some_ne_none _
  · obtain ⟨l, hl, hstart, hstop⟩ := Rope.exists_placed_at hobeys hpos
    have hat := Rope.lineAt_of_mem_placed hobeys hl hstart hstop
    refine ⟨l, hat, Rope.line_of_mem_placed hobeys hl, hstart, hstop, ?_, ?_⟩
    · intro n m hm hmstart hmstop
      have hmem := Rope.mem_placed_of_line hobeys hm
      have hfound := Rope.lineAt_of_mem_placed hobeys hmem hmstart hmstop
      exact Except.ok.inj (hfound.symm.trans hat)
    · rw [(Rope.lineAt_eq_ok_iff.mp hat).2]
      exact Option.some_ne_none _

/-- The break behind the first of the two leaves of forty lines belongs to the last line of that
leaf. -/
theorem Rope.Reachable.lines_addressed_forty_lines :
    Rope.ofLines? (List.replicate 40 "x") = .ok (Rope.ofLines (List.replicate 40 "x"))
      ∧ (1 ≤ 32 ∧ 32 ≤ (Rope.ofLines (List.replicate 40 "x")).lineCount
        ∧ (Rope.ofLines (List.replicate 40 "x")).line 32 = .ok ⟨62, 63, 32, "x"⟩)
      ∧ 63 ≤ (Rope.ofLines (List.replicate 40 "x")).length
      ∧ (Rope.ofLines (List.replicate 40 "x")).lineAt 63 = .ok ⟨62, 63, 32, "x"⟩ := by
  have hmade : Rope.ofLines? (List.replicate 40 "x") = .ok (Rope.ofLines (List.replicate 40 "x")) :=
    rfl
  have hreach : Rope.Reachable (fun _ => True) (Rope.ofLines (List.replicate 40 "x")) :=
    .ofLines hmade
  obtain ⟨hobeys, hlines⟩ := Rope.ofLines_spec Rope.Rule.builds_shareRule
    (show List.replicate 40 "x" ≠ [] by decide)
  have hcount : 32 ≤ (Rope.ofLines (List.replicate 40 "x")).lineCount := by
    rw [hobeys.lineCount_eq, hlines]
    decide
  have hlength : 63 ≤ (Rope.ofLines (List.replicate 40 "x")).length := by
    rw [hobeys.length_eq, hlines]
    decide
  obtain ⟨hnumber, -, hplace, -⟩ := Rope.Reachable.lines_addressed hreach
  obtain ⟨text, htext, hline, -⟩ := hnumber 32 (by decide) hcount
  obtain ⟨l, hat, -, -, -, hunique, -⟩ := hplace 63 hlength
  rw [hlines] at htext hline
  obtain rfl : "x" = text := Option.some.inj htext
  refine ⟨hmade, ⟨by decide, hcount, hline⟩, hlength, ?_⟩
  rw [hat, ← hunique 32 _ hline (by decide) (by decide)]
  rfl

end TextRevision
