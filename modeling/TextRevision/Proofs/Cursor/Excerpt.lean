import TextRevision.Cursor.Window
import TextRevision.Proofs.Cursor.Scanning
import TextRevision.Proofs.Rope.Rendering

/-!
# Windows as the items they have left

A window reads the items between two places one chunk after the other. What it has left is what the
cursor has ahead, without what lies in front of the range and behind it, so a window is followed by
a reader that is no more than a list of items.

A skip is not measured alike in both directions: it is held to the distance from the place reached
to the end of the range that has the higher places. Forward that is all that is left. Backward it is
what was passed, so that a skip is cut short, and in front of the first chunk it falls out.

## Main definitions

- `Rope.itemsBetween`: the items between two places
- `Excerpt`: a reader that is no more than the items it has left
- `Excerpt.Paced`: skips that are not cut short backward
- `Window.Follows`: a window that has left what a reader has left

## Main statements

- `Window.Placed.step`, `Window.Follows.advance`: one chunk
- `Rope.Reachable.window_refines`
-/

namespace TextRevision

/-- The items between two places, which are clipped and may come in either order. -/
def Rope.itemsBetween (r : Rope) (start stop : Nat) : List Item :=
  let (low, high) := clip r.length start stop
  (r.items.drop low).take (high - low)

/-- A reader that is no more than the items it has left, told in the direction of reading, and the
chunk that it read last. -/
structure Excerpt where
  dir : Direction
  left : List Item
  chunk : String
  isBreak : Bool
  isDone : Bool

namespace Excerpt

/-- A reader of the items between two places, from `start` towards `stop`. -/
def ofRope (r : Rope) (start stop : Nat) : Excerpt :=
  let dir := if min stop r.length < min start r.length then Direction.backward else .forward
  ⟨dir, dir.order (r.itemsBetween start stop), "", false, false⟩

/-- The reader of the first chunk of some items, a break or what comes next of a line. -/
def read (dir : Direction) (ahead : List Item) : Excerpt :=
  ⟨dir, ahead.drop (Cursor.lead ahead).length, Cursor.spell dir (Cursor.lead ahead),
    ahead.head? = some none, ahead.isEmpty⟩

/-- The reader behind the next chunk, when `skip` items of what is left are dropped first. -/
def advance (s : Excerpt) (skip : Nat) : Excerpt :=
  read s.dir (s.left.drop skip)

/-- None of the skips is longer than what was passed before it of `total` items, unless no more than
that is left. -/
def Paced (total : Nat) : Excerpt → List Nat → Prop
  | _, [] => True
  | s, skip :: skips =>
    (skip ≤ total - s.left.length ∨ s.left.length ≤ total - s.left.length)
      ∧ Paced total (s.advance skip) skips

end Excerpt

namespace Cursor

variable {dir : Direction}

theorem lead_take (xs : List Item) (n : Nat) : lead (xs.take n) = (lead xs).take n := by
  cases n with
  | zero => simp
  | succ n =>
    match xs with
    | [] => rfl
    | none :: xs => simp
    | some x :: xs => simp [List.take_takeWhile]

/-- The first characters of a chunk are those of the first of its items. -/
theorem trim_spell (xs : List Item) (limit : Nat) :
    Window.trim dir (spell dir xs) limit = spell dir (xs.take limit) := by
  unfold Window.trim
  rw [length_spell]
  split
  · next hle => rw [List.take_of_length_le (by omega)]
  · next hlong =>
    have hlong : limit < xs.length := by omega
    cases dir with
    | forward => simp [Line.extract, spell, Direction.order, List.map_take]
    | backward =>
      have hlength : ((xs.length : Int) - limit).toNat = xs.length - limit := by omega
      simp [Line.extract, spell, Direction.order, hlength, List.take_reverse, List.drop_reverse,
        List.map_take, Nat.sub_sub_self (Nat.le_of_lt hlong)]

/-- Items are spelled alike in both directions. -/
@[simp] theorem spell_order (dir : Direction) (xs : List Item) :
    spell dir (dir.order xs) = spell .forward xs := by
  rw [spell, Direction.order_order]
  rfl

/-- The items of a line spell the line. -/
@[simp] theorem spell_lineItems (line : String) : spell .forward (Line.items line) = line := by
  rw [← String.toList_inj]
  simp [spell, Direction.order, Line.items, Function.comp_def]

end Cursor

namespace Window

variable {rule : Rope.Rule} {r : Rope} {first last place : Nat} {w : Window} {s : Excerpt}

/-- A window whose cursor has `place` items behind it. The range lies between the items `first` and
`last`, all counted from the end at which the direction starts. -/
structure Placed (rule : Rope.Rule) (r : Rope) (first last place : Nat) (w : Window) : Prop where
  obeys : r.Obeys rule
  short : r.length ≤ lengthLimit
  stands : w.cursor.Stands rule r place
  le : first ≤ last
  le_length : last ≤ r.length
  forward : w.cursor.dir = .forward → w.pos = place ∧ w.low = first ∧ w.high = last
  backward : w.cursor.dir = .backward →
    w.pos + place = r.length ∧ w.high + first = r.length ∧ w.low + last = r.length
      ∧ first < last

/-- A window that has left what a reader has left, and has read the same chunk. -/
structure Follows (rule : Rope.Rule) (r : Rope) (first last : Nat) (s : Excerpt) (w : Window) :
    Prop where
  turned : w.cursor.dir = s.dir
  placed : ∃ place, w.Placed rule r first last place
    ∧ s.left = ((s.dir.order r.items).take last).drop (max place first)
  chunk : w.chunk = s.chunk
  isBreak : w.isBreak = s.isBreak
  isDone : w.isDone = s.isDone

/-- A signed word holds the place reached and both ends of the range. -/
theorem Placed.words (h : w.Placed rule r first last place) : signedWord w.pos = w.pos
    ∧ signedWord w.low = w.low ∧ signedWord w.high = w.high := by
  have hplace := h.stands.le
  have hlength := h.obeys.length_items
  have hle := h.le
  have hlast := h.le_length
  have hheld : ∀ n ≤ r.length, signedWord n = n := fun n hn =>
    signedWord_of_lt (lt_signBound (hn.trans h.short))
  cases hdir : w.cursor.dir with
  | forward =>
    have := h.forward hdir
    exact ⟨hheld _ (by omega), hheld _ (by omega), hheld _ (by omega)⟩
  | backward =>
    have := h.backward hdir
    exact ⟨hheld _ (by omega), hheld _ (by omega), hheld _ (by omega)⟩

theorem Placed.isSpent_iff (h : w.Placed rule r first last place) :
    w.isSpent = true ↔ last ≤ place := by
  have hplace := h.stands.le
  have hlength := h.obeys.length_items
  rw [isSpent]
  cases hdir : w.cursor.dir with
  | forward =>
    obtain ⟨hpos, -, hhigh⟩ := h.forward hdir
    simp [hpos, hhigh]
  | backward =>
    have := h.backward hdir
    simp only [decide_eq_true_eq]
    omega

theorem Placed.lead_eq (h : w.Placed rule r first last place) :
    w.lead = max (first - place : Int) 0 := by
  obtain ⟨hpos, hlow, hhigh⟩ := h.words
  rw [lead, hpos, hlow, hhigh]
  cases hdir : w.cursor.dir with
  | forward =>
    obtain ⟨hpos, hlow, -⟩ := h.forward hdir
    rw [hpos, hlow]
  | backward =>
    have := h.backward hdir
    dsimp only
    omega

theorem Placed.room_eq (h : w.Placed rule r first last place) : w.room = (last - place : Int) := by
  obtain ⟨hpos, hlow, hhigh⟩ := h.words
  rw [room, hpos, hlow, hhigh]
  cases hdir : w.cursor.dir with
  | forward =>
    obtain ⟨hpos, -, hhigh⟩ := h.forward hdir
    rw [hpos, hhigh]
  | backward =>
    have := h.backward hdir
    dsimp only
    omega

/-- The place moves on with the cursor. -/
theorem Placed.move (h : w.Placed rule r first last place) {c : Cursor} {n : Nat}
    (hdir : c.dir = w.cursor.dir) (hstands : c.Stands rule r (place + n)) (chunk : String)
    (isDone : Bool) :
    Placed rule r first last (place + n)
      { w with cursor := c, chunk := chunk, isDone := isDone,
               pos := (signedWord w.pos + n * w.cursor.dir.sign).toNat } where
  obeys := h.obeys
  short := h.short
  stands := hstands
  le := h.le
  le_length := h.le_length
  forward := by
    intro hforward
    have hwdir := hdir.symm.trans hforward
    obtain ⟨hpos, hlow, hhigh⟩ := h.forward hwdir
    refine ⟨?_, hlow, hhigh⟩
    simp only [hwdir, Direction.sign, h.words.1]
    omega
  backward := by
    intro hbackward
    have hwdir := hdir.symm.trans hbackward
    obtain ⟨hpos, hhigh, hlow, hlt⟩ := h.backward hwdir
    have hle := hstands.le
    rw [h.obeys.length_items] at hle
    refine ⟨?_, hhigh, hlow, hlt⟩
    simp only [hwdir, Direction.sign, h.words.1]
    omega

/-- The window behind the chunk that comes after `skip` items of the document. -/
def pull (w : Window) (skip : Int) : Window :=
  let cursor := w.cursor.advance skip
  let chunk := trim w.cursor.dir cursor.chunk (w.room - skip)
  { w with
    cursor := cursor
    chunk := chunk
    isDone := chunk.isEmpty
    pos := (signedWord w.pos + (cursor.chunk.length + skip) * w.cursor.dir.sign).toNat }

theorem step_eq (w : Window) (skip : Int) :
    w.step skip = if w.isSpent then { w with chunk := "", isDone := true }
      else w.pull (min (skip + w.lead) w.room) :=
  rfl

theorem isEmpty_spell_lead (dir : Direction) (xs : List Item) :
    (Cursor.spell dir (Cursor.lead xs)).isEmpty = xs.isEmpty := by
  rw [Bool.eq_iff_iff, String.isEmpty_iff, List.isEmpty_iff, ← Cursor.lead_eq_nil,
    ← String.length_eq_zero_iff, Cursor.length_spell, List.length_eq_zero_iff]

/-- Behind the first chunk of a range, cut off or not, comes what the range has behind the whole
chunk. -/
theorem drop_lead_take (xs : List Item) (n : Nat) :
    (xs.take n).drop (Cursor.lead (xs.take n)).length
      = (xs.take n).drop (Cursor.lead xs).length := by
  rw [Cursor.lead_take, List.length_take]
  rcases Nat.le_total (Cursor.lead xs).length n with hle | hle
  · rw [Nat.min_eq_right hle]
  · rw [Nat.min_eq_left hle, List.drop_eq_nil_of_le (List.length_take_le _ _),
      List.drop_eq_nil_of_le (Nat.le_trans (List.length_take_le _ _) hle)]

/-- The chunk behind a place in the range is read, as far as the range goes. -/
theorem Placed.pull (h : w.Placed rule r first last place) {n : Nat} (hfirst : first ≤ place + n)
    (hlast : place + n ≤ last) :
    Follows rule r first last
      (Excerpt.read w.cursor.dir (((w.cursor.dir.order r.items).take last).drop (place + n)))
      (w.pull n) := by
  have hlimit := h.le_length
  have hitems := h.obeys.length_items
  have hfound := h.stands.advance n
  rw [show min ((place : Int) + (n : Int)).toNat r.items.length = place + n by omega] at hfound
  have hstands := hfound.stands (by omega)
  -- The cursor reads a whole chunk, of which the range has the first items.
  generalize hwhole : (w.cursor.dir.order r.items).drop (place + n) = whole at hfound hstands
  have hahead : ((w.cursor.dir.order r.items).take last).drop (place + n)
      = whole.take (last - (place + n)) := by
    rw [List.drop_take, hwhole]
  have hrest : w.room - (n : Int) = ((last - (place + n) : Nat) : Int) := by
    rw [h.room_eq]
    omega
  have hread : trim w.cursor.dir (w.cursor.advance n).chunk (w.room - (n : Int))
      = Cursor.spell w.cursor.dir (Cursor.lead (whole.take (last - (place + n)))) := by
    rw [hfound.chunk, hrest, Cursor.trim_spell, ← Cursor.lead_take]
  have hpos : ((w.cursor.advance n).chunk.length : Int) + (n : Int)
      = ((n + (Cursor.lead whole).length : Nat) : Int) := by
    rw [hfound.chunk, Cursor.length_spell]
    omega
  rw [hahead, Window.pull, hread, isEmpty_spell_lead, hpos]
  have hmoved := h.move hfound.turned (n := n + (Cursor.lead whole).length)
    (by rwa [← Nat.add_assoc])
    (Cursor.spell w.cursor.dir (Cursor.lead (whole.take (last - (place + n)))))
    (whole.take (last - (place + n))).isEmpty
  refine ⟨hfound.turned, ⟨_, hmoved, ?_⟩, rfl, ?_, rfl⟩
  · have hplace : max (place + (n + (Cursor.lead whole).length)) first
        = place + n + (Cursor.lead whole).length := by omega
    rw [hplace, ← List.drop_drop]
    exact (drop_lead_take whole _).trans (congrArg _ hahead.symm)
  · by_cases hnil : whole.take (last - (place + n)) = []
    · rw [isBreak, isEmpty_spell_lead, hnil]
      simp [Excerpt.read]
    · have hhead : (whole.take (last - (place + n))).head? = whole.head? := by
        rw [List.head?_take, if_neg fun h0 => hnil (by rw [h0, List.take_zero])]
      rw [isBreak, isEmpty_spell_lead, Bool.eq_iff_iff]
      simp [Excerpt.read, hnil, hhead, hfound.isBreak]

theorem Placed.length_left (h : w.Placed rule r first last place) (n : Nat) :
    (((w.cursor.dir.order r.items).take last).drop n).length = last - n := by
  rw [List.length_drop, List.length_take, Direction.length_order, h.obeys.length_items,
    Nat.min_eq_left h.le_length]

/-- Nothing is left behind the range. -/
theorem Placed.drop_eq_nil (h : w.Placed rule r first last place) {n : Nat} (hn : last ≤ n) :
    ((w.cursor.dir.order r.items).take last).drop n = [] :=
  List.eq_nil_of_length_eq_zero ((h.length_left n).trans (Nat.sub_eq_zero_of_le hn))

/-- It does not matter how far behind the range a place is. -/
theorem Placed.drop_eq (h : w.Placed rule r first last place) {m n : Nat}
    (hmn : m = n ∨ last ≤ m ∧ last ≤ n) :
    ((w.cursor.dir.order r.items).take last).drop m
      = ((w.cursor.dir.order r.items).take last).drop n := by
  rcases hmn with rfl | ⟨hm, hn⟩
  · rfl
  · rw [h.drop_eq_nil hm, h.drop_eq_nil hn]

/-- One chunk, some items of the range being dropped first. -/
theorem Placed.step (h : w.Placed rule r first last place) {skip : Int}
    (hskip : place < last → 0 ≤ skip) :
    Follows rule r first last (Excerpt.read w.cursor.dir
      (((w.cursor.dir.order r.items).take last).drop (max place first + skip.toNat)))
      (w.step skip) := by
  rw [step_eq]
  by_cases hspent : last ≤ place
  · rw [if_pos (h.isSpent_iff.mpr hspent), h.drop_eq_nil (by omega)]
    refine ⟨rfl, ⟨place, ⟨h.obeys, h.short, h.stands, h.le, h.le_length, h.forward, h.backward⟩,
      ?_⟩, ?_, ?_, rfl⟩
    · exact (h.drop_eq_nil (by omega)).symm
    · exact Cursor.spell_nil.symm
    · simp [isBreak, Excerpt.read]
  · have hplace : place < last := Nat.not_le.mp hspent
    have hput := hskip hplace
    have hlead := h.lead_eq
    have hroom := h.room_eq
    have hle := h.le
    obtain ⟨n, hn⟩ : ∃ n : Nat, min (skip + w.lead) w.room = n :=
      ⟨(min (skip + w.lead) w.room).toNat, by omega⟩
    have hpulled := h.pull (n := n) (by omega) (by omega)
    have hsame := h.drop_eq (m := max place first + skip.toNat) (n := place + n) (by omega)
    rw [if_neg (fun h' => hspent (h.isSpent_iff.mp h')), hn, hsame]
    exact hpulled

/-- The skip that a window makes of the one it is given. -/
def paced (w : Window) (skip : Int) : Int :=
  if skip < 0 then max skip (signedWord w.low - signedWord w.pos)
  else if 0 < skip then min skip (signedWord w.high - signedWord w.pos)
  else 0

/-- A skip that is not cut short is as good as the one that a window makes of it: what differs lies
behind the range. -/
theorem Placed.paced_spec (h : w.Placed rule r first last place) {skip : Nat}
    (hplace : place < last) (hskip : w.cursor.dir = .forward ∨ skip ≤ max place first - first
      ∨ last - max place first ≤ max place first - first) :
    0 ≤ w.paced skip ∧ ((w.paced skip).toNat = skip ∨ last ≤ max place first + (w.paced skip).toNat
      ∧ last ≤ max place first + skip) := by
  rcases Nat.eq_zero_or_pos skip with rfl | hpos
  · simp [paced]
  · have hpaced : w.paced skip = min (skip : Int) (w.high - w.pos) := by
      obtain ⟨hpos, -, hhigh⟩ := h.words
      rw [paced, if_neg (by omega), if_pos (by omega), hpos, hhigh]
    have hle := h.stands.le
    rw [h.obeys.length_items] at hle
    rw [hpaced]
    cases hdir : w.cursor.dir with
    | forward =>
      obtain ⟨hat, -, hhigh⟩ := h.forward hdir
      omega
    | backward =>
      obtain ⟨hat, hhigh, -, hlt⟩ := h.backward hdir
      simp only [hdir, reduceCtorEq, false_or] at hskip
      omega

/-- One chunk, behind a skip that is not cut short. -/
theorem Follows.advance (h : Follows rule r first last s w) (skip : Nat)
    (hskip : s.dir = .forward ∨ skip ≤ last - first - s.left.length
      ∨ s.left.length ≤ last - first - s.left.length) :
    Follows rule r first last (s.advance skip) (w.advance skip) := by
  obtain ⟨place, hplaced, hleft⟩ := h.placed
  rw [← h.turned] at hleft hskip
  have hlength : s.left.length = last - max place first := by rw [hleft, hplaced.length_left]
  have hle := hplaced.le
  have hpassed : place < last → last - first - s.left.length = max place first - first := by omega
  have hpaced := fun hlt => hplaced.paced_spec hlt (by rwa [hpassed hlt, hlength] at hskip)
  have hstep := hplaced.step fun hlt => (hpaced hlt).1
  have hsame : ((w.cursor.dir.order r.items).take last).drop
      (max place first + (w.paced skip).toNat) = s.left.drop skip := by
    rw [hleft, List.drop_drop]
    refine hplaced.drop_eq ?_
    rcases Nat.lt_or_ge place last with hlt | hge
    · exact (hpaced hlt).2.imp_left (congrArg _)
    · exact .inr (by omega)
  rw [hsame, h.turned] at hstep
  exact hstep

/-- A window is in front of its range, counted from the end at which it starts, before it has read
anything. -/
theorem placed_ofRope (h : r.Obeys rule) (hshort : r.length ≤ lengthLimit) (start stop : Nat) :
    ∃ first last, last - first = (r.itemsBetween start stop).length
      ∧ (ofRope r start stop).Placed rule r first last 0
      ∧ (ofRope r start stop).cursor.dir.order (r.itemsBetween start stop)
        = (((ofRope r start stop).cursor.dir.order r.items).take last).drop first := by
  have hitems := h.length_items
  obtain ⟨hle, hlength⟩ := Rope.clip_le r.length start stop
  have hbetween : (r.itemsBetween start stop).length
      = (Rope.clip r.length start stop).2 - (Rope.clip r.length start stop).1 := by
    rw [Rope.itemsBetween, List.length_take, List.length_drop, hitems]
    omega
  have hlow : (Rope.clip r.length start stop).1
      = min (min start r.length) (min stop r.length) := by
    simp only [Rope.clip]
    omega
  have hhigh : (Rope.clip r.length start stop).2
      = max (min start r.length) (min stop r.length) := by
    simp only [Rope.clip]
    omega
  by_cases hback : min stop r.length < min start r.length
  · have hdir : (ofRope r start stop).cursor.dir = .backward := by
      simp [ofRope, Cursor.ofRope, hback]
    refine ⟨r.length - (Rope.clip r.length start stop).2,
      r.length - (Rope.clip r.length start stop).1, by omega,
      ⟨h, hshort, Cursor.stands_ofRope h _, by omega, Nat.sub_le _ _, ?_, ?_⟩, ?_⟩
    · simp [hdir]
    · intro _
      simp only [ofRope, hback, if_true]
      omega
    · rw [hdir]
      simp only [Direction.order, Rope.itemsBetween]
      rw [List.take_reverse, List.drop_reverse, List.length_drop, hitems,
        Nat.sub_sub_self (Nat.le_trans hle hlength)]
      congr 2
      omega
  · have hdir : (ofRope r start stop).cursor.dir = .forward := by
      simp [ofRope, Cursor.ofRope, hback]
    refine ⟨(Rope.clip r.length start stop).1, (Rope.clip r.length start stop).2,
      by omega, ⟨h, hshort, Cursor.stands_ofRope h _, hle, hlength, ?_, ?_⟩, ?_⟩
    · intro _
      simp only [ofRope, hback, if_false]
      exact ⟨trivial, hlow.symm, hhigh.symm⟩
    · simp [hdir]
    · rw [hdir]
      simp only [Direction.order, Rope.itemsBetween]
      rw [List.drop_take]

theorem follows_ofRope (h : r.Obeys rule) (hshort : r.length ≤ lengthLimit) (start stop : Nat) :
    ∃ first last, last - first = (r.itemsBetween start stop).length
      ∧ Follows rule r first last (Excerpt.ofRope r start stop) (ofRope r start stop) := by
  obtain ⟨first, last, hlength, hplaced, hleft⟩ := placed_ofRope h hshort start stop
  exact ⟨first, last, hlength, rfl, ⟨0, hplaced, by rw [Nat.zero_max]; exact hleft⟩, rfl,
    by simp [isBreak, ofRope, Excerpt.ofRope], rfl⟩

/-- So it is over any number of chunks. -/
theorem Follows.foldl_advance (h : Follows rule r first last s w) (skips : List Nat)
    (hskips : s.dir = .forward ∨ s.Paced (last - first) skips) :
    Follows rule r first last (skips.foldl Excerpt.advance s)
      ((skips.map Int.ofNat).foldl Window.advance w) := by
  induction skips generalizing s w with
  | nil => exact h
  | cons skip skips ih =>
    exact ih (h.advance skip (hskips.imp_right fun hpaced => hpaced.1))
      (hskips.imp_right fun hpaced => hpaced.2)

end Window

/-- What is written between two places spells the items between them. -/
theorem Rope.spell_itemsBetween {rule : Rule} {r : Rope} (h : r.Obeys rule) (start stop : Nat) :
    Cursor.spell .forward (r.itemsBetween start stop) = r.render start stop "\n" := by
  have hwritten : ∀ xs : List Item, xs.map (·.getD '\n') = xs.flatMap (Item.written "\n") := by
    intro xs
    induction xs with
    | nil => rfl
    | cons x xs ih =>
      rw [List.map_cons, ih]
      cases x <;> rfl
  rw [← String.toList_inj, toList_render h, Cursor.spell, Direction.order, hwritten,
    String.toList_ofList]
  rfl

/-- A window reads the string of its range from its start towards its stop: a skip drops as many of
the characters that are left, or all of them, and the chunk behind it is a break or what comes next
of a line. A window is done when nothing is left. Backward no skip may be longer than what was
passed before it, but where no more than that is left. A signed word has to hold the sum of a skip
and of the way to the range, each of them being no longer than the document. -/
theorem Rope.Reachable.window_refines {fits : Nat → Prop} {r : Rope} (h : Rope.Reachable fits r)
    (hlength : 2 * r.length ≤ lengthLimit) (start stop : Nat) (skips : List Nat)
    (hskips : min start r.length ≤ min stop r.length
      ∨ (Excerpt.ofRope r start stop).Paced (r.itemsBetween start stop).length skips) :
    let e := Excerpt.ofRope r start stop
    let s := skips.foldl Excerpt.advance e
    let w := (skips.map Int.ofNat).foldl Window.advance (Window.ofRope r start stop)
    Cursor.spell e.dir e.left = r.render start stop "\n"
      ∧ w.chunk = s.chunk ∧ w.isBreak = s.isBreak ∧ w.isDone = s.isDone
      ∧ (skips ≠ [] → (w.chunk = "" ↔ w.isDone = true)) := by
  intro e s w
  obtain ⟨first, last, hbetween, hstart⟩ :=
    Window.follows_ofRope h.obeys (by omega) start stop
  have hpaced : e.dir = .forward ∨ e.Paced (last - first) skips := by
    rw [hbetween]
    refine hskips.imp_left fun hle => ?_
    exact if_neg (Nat.not_lt.mpr hle)
  have hfollows := hstart.foldl_advance skips hpaced
  refine ⟨?_, hfollows.chunk, hfollows.isBreak, hfollows.isDone, fun hskips => ?_⟩
  · rw [← Rope.spell_itemsBetween h.obeys]
    exact Cursor.spell_order _ _
  · rw [hfollows.chunk, hfollows.isDone]
    -- The reader was moved by the last skip.
    obtain ⟨front, skip, rfl⟩ := (List.eq_nil_or_concat' skips).resolve_left hskips
    rw [List.foldl_concat]
    simp [Excerpt.advance, Excerpt.read, ← String.isEmpty_iff, Window.isEmpty_spell_lead]

/-- A window backward over the break between two lines. -/
theorem Rope.Reachable.window_refines_backward :
    Rope.ofLines? ["ab", "cde"] = .ok (Rope.ofBlock ["ab", "cde"])
      ∧ 2 * (Rope.ofBlock ["ab", "cde"]).length ≤ lengthLimit
      ∧ (Excerpt.ofRope (Rope.ofBlock ["ab", "cde"]) 6 1).Paced 5 [0, 1]
      ∧ ([0, 1].foldl Window.advance (Window.ofRope (Rope.ofBlock ["ab", "cde"]) 6 1)).chunk
        = "b" := by
  have hlines : Rope.ofLines? ["ab", "cde"] = .ok (Rope.ofBlock ["ab", "cde"]) := rfl
  have hreach : Rope.Reachable (fun _ => True) (Rope.ofBlock ["ab", "cde"]) := .ofLines hlines
  have hpaced : (Excerpt.ofRope (Rope.ofBlock ["ab", "cde"]) 6 1).Paced 5 [0, 1] :=
    ⟨.inl (by decide), .inl (by decide), trivial⟩
  have hlength : 2 * (Rope.ofBlock ["ab", "cde"]).length ≤ lengthLimit := by decide
  exact ⟨hlines, hlength, hpaced,
    (Rope.Reachable.window_refines hreach hlength 6 1 [0, 1] (.inr hpaced)).2.1⟩

/-- Backward a window that skips in front of its first chunk reads the end of the document, and
nothing is left out. -/
theorem Rope.Reachable.not_window_refines :
    ∃ r, Rope.Reachable (fun _ => True) r ∧ r.render 4 1 "\n" = "bcd"
      ∧ ((Excerpt.ofRope r 4 1).advance 1).chunk = "bc"
      ∧ ((Window.ofRope r 4 1).advance 1).chunk = "bcdef" := by
  have hlines : Rope.ofLines? ["abcdef"] = .ok (Rope.ofBlock ["abcdef"]) := rfl
  exact ⟨Rope.ofBlock ["abcdef"], .ofLines hlines, rfl, rfl, by decide +kernel⟩

end TextRevision
