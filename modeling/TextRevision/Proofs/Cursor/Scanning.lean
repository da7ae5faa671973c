import TextRevision.Proofs.Cursor.Place
import TextRevision.Proofs.Rope.Balance

/-!
# Cursors as places in a sequence

A cursor reads what a place in the sequence of items would read, counted from the end at which its
direction starts: a skip moves the place, and the chunk behind it is a break or what is left of a
line. This holds wherever in the tree the cursor turns round, and behind the end of the document.

## Main definitions

- `Cursor.lead`: the items of the next chunk
- `Cursor.Found`: what a cursor is that has read a chunk
- `Scan`: a reader that is no more than a place

## Main statements

- `Cursor.seek_spec`, `Cursor.Stands.step`, `Cursor.Stands.advance`
- `Rope.Reachable.cursor_refines`
-/

namespace TextRevision

namespace Cursor

variable {rule : Rope.Rule} {dir : Direction} {root : Rope}

/-- The items of the next chunk: a break, or what is left of a line. -/
def lead : List Item → List Item
  | none :: _ => [none]
  | xs => xs.takeWhile Option.isSome

/-- The text of items that are told in the direction of reading. -/
def spell (dir : Direction) (xs : List Item) : String :=
  String.ofList ((dir.order xs).map (·.getD '\n'))

/-- What a path has become behind the next chunk, which is the first of `xs`. -/
structure Found (rule : Rope.Rule) (root : Rope) (dir : Direction) (xs : List Item) (c : Cursor) :
    Prop where
  turned : c.dir = dir
  sound : Sound rule root c.dir c.frame c.parents
  ahead : ahead c.dir c.frame c.parents = xs.drop (lead xs).length
  chunk : c.chunk = spell dir (lead xs)
  isBreak : c.isBreak = true ↔ xs.head? = some none
  isDone : c.isDone = true ↔ xs = []

@[simp] theorem lead_nil : lead [] = [] := rfl

@[simp] theorem lead_break (xs : List Item) : lead (none :: xs) = [none] := rfl

@[simp] theorem lead_some (x : Char) (xs : List Item) :
    lead (some x :: xs) = some x :: xs.takeWhile Option.isSome := rfl

theorem isPrefix_lead (xs : List Item) : lead xs <+: xs := by
  cases xs with
  | nil => exact List.prefix_refl _
  | cons x xs =>
    cases x with
    | none => exact ⟨xs, rfl⟩
    | some x => exact List.takeWhile_prefix _

theorem take_lead (xs : List Item) : xs.take (lead xs).length = lead xs :=
  (List.prefix_iff_eq_take.mp (isPrefix_lead xs)).symm

theorem lead_eq_nil {xs : List Item} : lead xs = [] ↔ xs = [] := by
  cases xs with
  | nil => exact iff_of_true rfl rfl
  | cons x xs => cases x <;> simp

theorem head?_lead (xs : List Item) : (lead xs).head? = xs.head? := by
  match xs with
  | [] => rfl
  | none :: xs => rfl
  | some x :: xs => rfl

@[simp] theorem length_spell (xs : List Item) : (spell dir xs).length = xs.length := by
  simp [spell]

@[simp] theorem spell_nil : spell dir [] = "" := by
  cases dir <;> rfl

@[simp] theorem spell_break : spell dir [none] = "\n" := by
  cases dir <;> rfl

/-- What is left of a line is a chunk if a break or nothing comes behind it. -/
theorem lead_line {xs ys : List Item} (hne : xs ≠ []) (hxs : ∀ x ∈ xs, x.isSome)
    (hys : ∀ y ∈ ys.head?, y = none) : lead (xs ++ ys) = xs := by
  obtain ⟨x, rest, rfl⟩ := List.exists_cons_of_ne_nil hne
  obtain ⟨hx, hrest⟩ := List.forall_mem_cons.mp hxs
  obtain ⟨x, rfl⟩ := Option.isSome_iff_exists.mp hx
  have hstop : ys.takeWhile Option.isSome = [] := by
    cases ys with
    | nil => rfl
    | cons y ys => rw [hys y rfl, List.takeWhile_cons_of_neg (by simp)]
  rw [List.cons_append, lead_some, List.takeWhile_append_of_pos hrest, hstop, List.append_nil]

/-- The levels above go on with a break. -/
theorem head?_trail_append {ps : List Piece} {ys : List Item} (hys : ∀ y ∈ ys.head?, y = none) :
    ∀ y ∈ (trail dir ps ++ ys).head?, y = none := by
  cases ps with
  | nil => exact hys
  | cons p ps => simp

theorem head?_comingAbove (ps : List Parent) : ∀ y ∈ (comingAbove dir ps).head?, y = none := by
  induction ps with
  | nil => simp [comingAbove]
  | cons p ps ih => exact head?_trail_append ih

/-- What is left of a line when some characters are left out. -/
theorem spell_drop (text : String) (skip : Nat) :
    spell dir ((dir.order (Line.items text)).drop skip) = rest dir text skip := by
  have hlength : text.toList.length = text.length := String.length_toList ..
  cases dir with
  | forward =>
    have htake : (text.toList.drop skip).take (text.length - skip) = text.toList.drop skip := by
      rw [List.take_of_length_le]
      rw [List.length_drop, hlength]
    simp [spell, Direction.order, Line.items, rest, Line.extract, htake, Function.comp_def]
  | backward =>
    simp [spell, Direction.order, Line.items, rest, Line.extract, List.drop_reverse, hlength,
      List.map_take, Function.comp_def]

section Seek

variable {frame : Frame} {parents : List Parent} {behind ahead : List Piece} {xs : List Item}

/-- A path that is moved past characters which are left out. -/
theorem Found.congr {ys : List Item} {c : Cursor} (h : Found rule root dir ys c) (hxs : xs = ys) :
    Found rule root dir xs c :=
  hxs ▸ h

theorem Sound.leave {p : Parent} {crossed : Bool}
    (h : Sound rule root dir ⟨behind, [], crossed⟩ (p :: parents)) :
    Sound rule root dir ⟨.part p.child :: p.behind, p.ahead, false⟩ parents := by
  obtain ⟨hp, habove⟩ := List.forall_mem_cons.mp h.above
  refine ⟨⟨hp.behind.cons ?_, hp.ahead, fun hnil => (by cases hnil), fun _ => rfl⟩, habove, ?_⟩
  · rintro r ⟨⟩
    exact hp.child
  · rw [text_leave]
    exact h.leads.2

theorem Sound.cross {piece : Piece}
    (h : Sound rule root dir ⟨behind, piece :: ahead, false⟩ parents) :
    Sound rule root dir ⟨behind, piece :: ahead, true⟩ parents := by
  have hbehind : behind ≠ [] := fun hnil => Bool.false_ne_true (h.proper.start hnil)
  refine ⟨⟨h.proper.behind, h.proper.ahead, fun _ => rfl, fun hnil => (by cases hnil)⟩,
    h.above, ?_⟩
  rw [text_cross hbehind]
  exact h.leads

theorem Sound.pass {piece : Piece}
    (h : Sound rule root dir ⟨behind, piece :: ahead, true⟩ parents) :
    Sound rule root dir ⟨piece :: behind, ahead, false⟩ parents := by
  refine ⟨⟨h.proper.behind.cons ?_, h.proper.ahead.of_cons, fun hnil => (by cases hnil),
    fun _ => rfl⟩, h.above, ?_⟩
  · rintro r rfl
    exact h.proper.ahead.head
  · rw [text_pass]
    exact h.leads

theorem Sound.descend {r : Rope}
    (h : Sound rule root dir ⟨behind, .part r :: ahead, true⟩ parents) :
    Sound rule root dir (enter dir r) (⟨behind, r, ahead⟩ :: parents) := by
  have hr := h.proper.ahead.head
  refine ⟨proper_enter hr, List.forall_mem_cons.mpr ⟨⟨h.proper.behind, hr, h.proper.ahead.of_cons⟩,
    h.above⟩, text_enter hr, ?_⟩
  rw [text_descend]
  exact h.leads

/-- A path finds the first chunk behind the characters that are left out. -/
theorem seek_spec (dir : Direction) (frame : Frame) (parents : List Parent) (skip : Nat)
    (h : Sound rule root dir frame parents) :
    Found rule root dir ((Cursor.ahead dir frame parents).drop skip)
      (seek dir frame parents skip) := by
  -- Each case is one move. What is ahead afterwards, behind the rest of the skip, is what was ahead
  -- before, behind the whole skip.
  fun_induction seek dir frame parents skip with
  | case1 skip behind crossed =>
    have hnil : Cursor.ahead dir ⟨behind, [], crossed⟩ [] = [] := by
      simp [Cursor.ahead, comingAbove]
    rw [hnil, List.drop_nil]
    exact ⟨rfl, h, by simp [hnil], by simp, by simp, by simp⟩
  | case2 skip behind crossed p ps ih =>
    refine (ih h.leave).congr ?_
    simp [Cursor.ahead, comingAbove]
  | case3 parents behind piece ahead =>
    have hahead : Cursor.ahead dir ⟨behind, piece :: ahead, false⟩ parents
        = none :: Cursor.ahead dir ⟨behind, piece :: ahead, true⟩ parents := by
      simp [Cursor.ahead]
    rw [hahead, List.drop_zero]
    exact ⟨rfl, h.cross, by simp, by simp, by simp, by simp⟩
  | case4 parents skip behind piece ahead hskip ih =>
    obtain ⟨skip, rfl⟩ := Nat.exists_eq_succ_of_ne_zero hskip
    exact (ih h.cross).congr (by simp [Cursor.ahead])
  | case5 parents skip behind text ahead hlt =>
    have hlength : (dir.order (Line.items text)).length = text.length := by simp
    have hne : (dir.order (Line.items text)).drop skip ≠ [] := by
      rw [Ne, List.drop_eq_nil_iff, hlength]
      exact Nat.not_le.mpr hlt
    have hsome : ∀ x ∈ (dir.order (Line.items text)).drop skip, x.isSome := by
      intro x hx
      exact Block.isSome_of_mem_lineItems (Direction.mem_order.mp (List.mem_of_mem_drop hx))
    have hbehind : ∀ y ∈ (trail dir ahead ++ comingAbove dir parents).head?, y = none :=
      head?_trail_append (head?_comingAbove parents)
    have hahead : (Cursor.ahead dir ⟨behind, .line text :: ahead, true⟩ parents).drop skip
        = (dir.order (Line.items text)).drop skip
          ++ (trail dir ahead ++ comingAbove dir parents) := by
      simp only [Cursor.ahead, coming_crossed, Piece.items, List.append_assoc]
      rw [List.drop_append_of_le_length (by omega)]
    have hlead := lead_line hne hsome hbehind
    rw [hahead]
    refine ⟨rfl, h.pass, ?_, ?_, ?_, ?_⟩
    · rw [hlead, List.drop_left]
      rfl
    · rw [hlead, spell_drop]
    · refine iff_of_false Bool.false_ne_true fun hhead => ?_
      obtain ⟨x, rest, hcons⟩ := List.exists_cons_of_ne_nil hne
      rw [hcons, List.cons_append, List.head?_cons, Option.some.injEq] at hhead
      have := hsome x (hcons ▸ List.mem_cons_self)
      rw [hhead] at this
      cases this
    · exact iff_of_false Bool.false_ne_true fun hnil => hne (List.append_eq_nil_iff.mp hnil).1
  | case6 parents skip behind text ahead hle ih =>
    have hlength : (dir.order (Line.items text)).length = text.length := by simp
    refine (ih h.pass).congr ?_
    simp only [Cursor.ahead, coming_crossed, coming_uncrossed, Piece.items, List.append_assoc]
    rw [List.drop_append, List.drop_eq_nil_of_le (by omega), List.nil_append, hlength]
  | case7 parents skip behind r ahead hlt ih =>
    have hlength : (dir.order r.items).length = r.length := by
      rw [Direction.length_order, h.proper.ahead.head.length_items]
    refine (ih h.pass).congr ?_
    simp only [Cursor.ahead, coming_crossed, coming_uncrossed, Piece.items, List.append_assoc]
    rw [List.drop_append, List.drop_eq_nil_of_le (by omega), List.nil_append, hlength]
  | case8 parents skip behind r ahead hle ih =>
    refine (ih h.descend).congr ?_
    simp [Cursor.ahead, coming_enter h.proper.ahead.head, comingAbove, Piece.items]

end Seek

section Stands

variable {c : Cursor} {place : Nat} {xs : List Item}

theorem length_lead_le (xs : List Item) : (lead xs).length ≤ xs.length :=
  (isPrefix_lead xs).length_le

/-- A cursor that has read a chunk stands behind it. -/
theorem Found.stands (h : Found rule root dir ((dir.order root.items).drop place) c)
    (hle : place ≤ root.items.length) :
    c.Stands rule root (place + (lead ((dir.order root.items).drop place)).length) where
  sound := h.sound
  ahead := by rw [h.ahead, List.drop_drop, h.turned]
  le := by
    have := length_lead_le ((dir.order root.items).drop place)
    rw [List.length_drop, Direction.length_order] at this
    omega

/-- A skip forward moves the place on, but not behind the end. -/
theorem Stands.step (h : c.Stands rule root place) (skip : Nat) :
    Found rule root c.dir
      ((c.dir.order root.items).drop (min (place + skip) root.items.length)) (c.step skip) := by
  have hfound := seek_spec c.dir c.frame c.parents skip h.sound
  refine hfound.congr ?_
  have hlength : (c.dir.order root.items).length = root.items.length := Direction.length_order _
  rw [h.ahead, List.drop_drop, ← hlength, ← List.drop_eq_drop_min]

/-- A skip back turns the cursor round, and what it reads then is left out again. -/
theorem Stands.advance (h : c.Stands rule root place) (skip : Int) :
    Found rule root c.dir
      ((c.dir.order root.items).drop (min (place + skip).toNat root.items.length))
      (c.advance skip) := by
  have hle := h.le
  cases skip with
  | ofNat n => exact h.step n
  | negSucc n =>
    have hback := h.flip.step (n + 1)
    have hstands := hback.stands (Nat.min_le_right _ _)
    have hlead := hstands.le
    have hfound := hstands.flip.step (c.flip.step (n + 1)).chunk.length
    have hdir : (c.flip.step (n + 1)).flip.dir = c.dir := by
      rw [Cursor.flip, hback.turned]
      exact Direction.reverse_reverse c.dir
    have hchunk : (c.flip.step (n + 1)).flip.chunk = (c.flip.step (n + 1)).chunk := rfl
    rw [hdir, hback.chunk, length_spell] at hfound
    rw [Cursor.advance, hchunk, hback.chunk, length_spell]
    refine hfound.congr (congrArg (List.drop · _) ?_)
    omega

end Stands

end Cursor

/-- A reader that is no more than a place, and the chunk that it read last. -/
structure Scan where
  /-- How many items are behind the reader. -/
  place : Nat
  chunk : String
  isBreak : Bool
  isDone : Bool

namespace Scan

/-- A reader in front of all items. -/
def start : Scan :=
  ⟨0, "", false, false⟩

/-- The reader of the chunk at a place, which is a break or what is left of a line in the direction
of reading. It is behind the chunk then; behind the last item it is done. -/
def read (dir : Direction) (items : List Item) (place : Nat) : Scan :=
  match (dir.order items).drop place with
  | [] => ⟨place, "", false, true⟩
  | none :: _ => ⟨place + 1, "\n", true, false⟩
  | some c :: ahead =>
    let line := (some c :: ahead).takeWhile Option.isSome
    ⟨place + line.length, String.ofList ((dir.order line).filterMap id), false, false⟩

/-- The reader behind the next chunk, `skip` items on or, for a negative skip, back. Neither end is
passed. -/
def advance (dir : Direction) (items : List Item) (s : Scan) (skip : Int) : Scan :=
  read dir items (min (s.place + skip).toNat items.length)

end Scan

namespace Cursor

variable {rule : Rope.Rule} {dir : Direction} {root : Rope}

/-- A cursor that stands where a reader does, and has read the same chunk. -/
structure Follows (rule : Rope.Rule) (root : Rope) (dir : Direction) (s : Scan) (c : Cursor) :
    Prop where
  turned : c.dir = dir
  stands : c.Stands rule root s.place
  chunk : c.chunk = s.chunk
  isBreak : c.isBreak = s.isBreak
  isDone : c.isDone = s.isDone

/-- No break stands in the rest of a line. -/
theorem spell_line {xs : List Item} (h : ∀ x ∈ xs, x.isSome) :
    spell dir xs = String.ofList ((dir.order xs).filterMap id) := by
  have hsome : ∀ ys : List Item, (∀ y ∈ ys, y.isSome) → ys.map (·.getD '\n') = ys.filterMap id := by
    intro ys hys
    induction ys with
    | nil => rfl
    | cons y ys ih =>
      obtain ⟨hy, hrest⟩ := List.forall_mem_cons.mp hys
      obtain ⟨c, rfl⟩ := Option.isSome_iff_exists.mp hy
      rw [List.map_cons, ih hrest]
      rfl
  rw [spell, hsome _ fun x hx => h x (Direction.mem_order.mp hx)]

/-- A cursor that has found the chunk at a place has read what a reader reads there. -/
theorem Found.follows {c : Cursor} {place : Nat}
    (h : Found rule root dir ((dir.order root.items).drop place) c)
    (hle : place ≤ root.items.length) :
    Follows rule root dir (Scan.read dir root.items place) c := by
  have hstands := h.stands hle
  have hchunk := h.chunk
  have hbreak := h.isBreak
  have hdone := h.isDone
  unfold Scan.read
  generalize (dir.order root.items).drop place = xs at hstands hchunk hbreak hdone ⊢
  match xs with
  | [] => exact ⟨h.turned, hstands, by simpa using hchunk, by simpa using hbreak, hdone.mpr rfl⟩
  | none :: xs =>
    exact ⟨h.turned, hstands, by simpa using hchunk, hbreak.mpr rfl, by simpa using hdone⟩
  | some x :: xs =>
    refine ⟨h.turned, hstands, ?_, by simpa using hbreak, by simpa using hdone⟩
    exact hchunk.trans (spell_line fun y hy => List.mem_takeWhile_imp hy)

/-- A cursor goes on following a reader when both advance. -/
theorem Follows.advance {s : Scan} {c : Cursor} (h : Follows rule root dir s c) (skip : Int) :
    Follows rule root dir (s.advance dir root.items skip) (c.advance skip) := by
  have hfound := h.stands.advance skip
  rw [h.turned] at hfound
  exact hfound.follows (Nat.min_le_right _ _)

/-- So it does over any number of skips. -/
theorem Follows.foldl_advance {s : Scan} {c : Cursor} (h : Follows rule root dir s c)
    (skips : List Int) :
    Follows rule root dir (skips.foldl (Scan.advance dir root.items) s)
      (skips.foldl Cursor.advance c) := by
  induction skips generalizing s c with
  | nil => exact h
  | cons skip skips ih => exact ih (h.advance skip)

theorem follows_ofRope {r : Rope} (h : r.Obeys rule) (dir : Direction) :
    Follows rule r dir Scan.start (ofRope r dir) :=
  ⟨rfl, stands_ofRope h dir, rfl, rfl, rfl⟩

/-- Only behind the end of the items is there nothing to read. -/
theorem chunk_read_eq_empty (dir : Direction) (items : List Item) (place : Nat) :
    (Scan.read dir items place).chunk = "" ↔ (Scan.read dir items place).isDone = true := by
  unfold Scan.read
  match (dir.order items).drop place with
  | [] => simp
  | none :: xs => simp
  | some x :: xs => simp [← String.length_eq_zero_iff]

end Cursor

/-- Over any sequence of skips, a cursor over a reachable document reads what a place in the
sequence of items reads that the skips move: a break, or what is left of a line, and at the end
nothing. No chunk is empty before the end. -/
theorem Rope.Reachable.cursor_refines {fits : Nat → Prop} {r : Rope} (h : Rope.Reachable fits r)
    (dir : Direction) (skips : List Int) :
    let c := skips.foldl Cursor.advance (Cursor.ofRope r dir)
    let s := skips.foldl (Scan.advance dir r.items) Scan.start
    c.chunk = s.chunk ∧ c.isBreak = s.isBreak ∧ c.isDone = s.isDone
      ∧ (skips ≠ [] → (c.chunk = "" ↔ c.isDone = true)) := by
  intro c s
  have hfollows := (Cursor.follows_ofRope h.obeys dir).foldl_advance skips
  refine ⟨hfollows.chunk, hfollows.isBreak, hfollows.isDone, fun hskips => ?_⟩
  rw [hfollows.chunk, hfollows.isDone]
  -- The reader was moved by the last skip.
  obtain ⟨front, last, rfl⟩ := (List.eq_nil_or_concat' skips).resolve_left hskips
  rw [List.foldl_concat]
  exact Cursor.chunk_read_eq_empty dir r.items _

/-- A cursor that runs over the end and the start of a document on its way to the first line. -/
theorem Rope.Reachable.cursor_refines_turning_back :
    Rope.ofLines? ["ab", "", "cde"] = .ok (Rope.ofBlock ["ab", "", "cde"])
      ∧ ([1, 0, -1, 5, -20, 3, 9, -2].foldl Cursor.advance
          (Cursor.ofRope (Rope.ofBlock ["ab", "", "cde"]) .backward)).chunk = "ab" :=
  have hlines : Rope.ofLines? ["ab", "", "cde"] = .ok (Rope.ofBlock ["ab", "", "cde"]) := rfl
  have hreach : Rope.Reachable (fun _ => True) (Rope.ofBlock ["ab", "", "cde"]) := .ofLines hlines
  have hrefines := Rope.Reachable.cursor_refines hreach .backward [1, 0, -1, 5, -20, 3, 9, -2]
  ⟨hlines, hrefines.1⟩

end TextRevision
