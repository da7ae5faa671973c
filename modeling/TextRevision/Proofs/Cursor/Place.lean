import TextRevision.Cursor.Basic
import TextRevision.Proofs.Rope.Shape

/-!
# Where a cursor stands

The path of a cursor divides the items of a document in two: those ahead of it, and those behind it.
Both are told in the order in which the cursor comes to them, so that a cursor that is turned round
has ahead what was behind.

## Main definitions

- `Cursor.ahead`: the items that a path has ahead
- `Cursor.Sound`: a path that leads through a document
- `Cursor.Stands`: a cursor that has a number of items of a document behind it

## Main statements

- `Cursor.Sound.items_eq`: what is behind a path and what is ahead of it make the document
- `Cursor.Stands.flip`: a cursor that is turned round stands at the same place, told from the other
  end
-/

namespace TextRevision

namespace Direction

variable {α β : Type} {dir : Direction}

theorem order_reverse (xs : List α) : dir.reverse.order xs = (dir.order xs).reverse := by
  cases dir
  · rfl
  · exact (List.reverse_reverse xs).symm

@[simp] theorem reverse_order_reverse (xs : List α) :
    (dir.reverse.order xs).reverse = dir.order xs := by
  rw [order_reverse, List.reverse_reverse]

@[simp] theorem order_order (xs : List α) : dir.order (dir.order xs) = xs := by
  cases dir
  · rfl
  · exact List.reverse_reverse xs

@[simp] theorem length_order (xs : List α) : (dir.order xs).length = xs.length := by
  cases dir
  · rfl
  · exact List.length_reverse

@[simp] theorem mem_order {x : α} {xs : List α} : x ∈ dir.order xs ↔ x ∈ xs := by
  cases dir
  · exact Iff.rfl
  · exact List.mem_reverse

@[simp] theorem order_eq_nil {xs : List α} : dir.order xs = [] ↔ xs = [] := by
  cases dir
  · exact Iff.rfl
  · exact List.reverse_eq_nil_iff

theorem order_map (f : α → β) (xs : List α) : dir.order (xs.map f) = (dir.order xs).map f := by
  cases dir
  · rfl
  · exact List.map_reverse.symm

end Direction

/-- The items of a piece. -/
def Piece.items : Piece → List Item
  | .line text => Line.items text
  | .part r => r.items

namespace Cursor

variable {rule : Rope.Rule} {dir : Direction} {root : Rope}

/-- The items of pieces in the order in which they are read, with a break in front of each piece. -/
def trail (dir : Direction) (ps : List Piece) : List Item :=
  ps.flatMap fun p => none :: dir.order p.items

@[simp] theorem trail_nil : trail dir [] = [] := rfl

@[simp] theorem trail_cons (p : Piece) (ps : List Piece) :
    trail dir (p :: ps) = none :: dir.order p.items ++ trail dir ps := rfl

/-- A break behind each piece is one in front of each, but for the first and the last break. -/
theorem cons_flatMap_concat {γ : Type} (f : γ → List Item) (ps : List γ) :
    none :: (ps.flatMap fun p => f p ++ [none]) = (ps.flatMap fun p => none :: f p) ++ [none] := by
  induction ps with
  | nil => rfl
  | cons p ps ih => simp [List.flatMap_cons, ih]

/-- Read the other way, pieces with a break in front of each come the other way round. -/
theorem cons_reverse_eq_flatMap {γ : Type} {f : γ → List Item} {xs : List Item} {ps : List γ}
    (h : none :: xs = ps.flatMap fun p => none :: f p) :
    none :: xs.reverse = ps.reverse.flatMap fun p => none :: (f p).reverse := by
  have hreverse : xs.reverse ++ [none] = ps.reverse.flatMap fun p => (f p).reverse ++ [none] := by
    have hbehind : (fun p => (f p).reverse ++ [none])
        = List.reverse ∘ fun p => (none : Item) :: f p := by
      funext p
      exact List.reverse_cons.symm
    rw [hbehind, ← List.reverse_flatMap, ← h, List.reverse_cons]
  have hcons := cons_flatMap_concat (fun p => (f p).reverse) ps.reverse
  rw [← hreverse] at hcons
  exact List.append_cancel_right hcons

theorem items_eq_flatMap_lines {lines : List String} (h : lines ≠ []) :
    none :: Block.items lines = lines.flatMap fun line => none :: Line.items line := by
  induction lines with
  | nil => exact absurd rfl h
  | cons line lines ih =>
    by_cases hlines : lines = []
    · subst hlines
      simp
    · rw [Block.items_cons line hlines, List.flatMap_cons, ← ih hlines, List.cons_append]

theorem itemsOf_eq_flatMap {rs : List Rope} (h : Rope.AllObey rule rs) (hne : rs ≠ []) :
    none :: Rope.itemsOf rs = rs.flatMap fun r => none :: r.items := by
  induction rs with
  | nil => exact absurd rfl hne
  | cons r rs ih =>
    by_cases hrs : rs = []
    · subst hrs
      simp
    · rw [Rope.itemsOf_cons h.1 h.2 hrs, List.flatMap_cons, ← ih h.2 hrs, List.cons_append]

theorem children_ne_nil {children : List Rope} {length lineCount : Nat}
    (h : (Rope.branch children length lineCount).Obeys rule) : children ≠ [] := by
  rintro rfl
  exact h.lines_ne_nil rfl

theorem pieces_ne_nil {r : Rope} (h : r.Obeys rule) : pieces r ≠ [] := by
  cases r with
  | leaf lines length => simpa [pieces] using h.1
  | branch children length lineCount => simpa [pieces] using children_ne_nil h

/-- The items of a rope are those of its pieces, with a break in front of each but the first. -/
theorem trail_pieces {r : Rope} (h : r.Obeys rule) (dir : Direction) :
    trail dir (dir.order (pieces r)) = none :: dir.order r.items := by
  have hforward : none :: r.items = (pieces r).flatMap fun p => none :: p.items := by
    cases r with
    | leaf lines length =>
      rw [pieces, List.flatMap_map]
      exact items_eq_flatMap_lines h.1
    | branch children length lineCount =>
      rw [pieces, List.flatMap_map]
      exact itemsOf_eq_flatMap h.1 (children_ne_nil h)
  cases dir with
  | forward => exact hforward.symm
  | backward => exact (cons_reverse_eq_flatMap hforward).symm

/-- The items that a frame has ahead. -/
def Frame.coming (dir : Direction) (f : Frame) : List Item :=
  if f.crossed then (trail dir f.ahead).tail else trail dir f.ahead

/-- The items of a frame in the order in which they are read. -/
def Frame.text (dir : Direction) (f : Frame) : List Item :=
  (f.flip.coming dir.reverse).reverse ++ f.coming dir

/-- The items of a level above in the order in which they are read. -/
def Parent.text (dir : Direction) (p : Parent) : List Item :=
  (trail dir.reverse p.behind).reverse ++ dir.order p.child.items ++ trail dir p.ahead

/-- The items that the levels above have ahead. -/
def comingAbove (dir : Direction) (ps : List Parent) : List Item :=
  ps.flatMap fun p => trail dir p.ahead

/-- The items that a path has ahead. -/
def ahead (dir : Direction) (frame : Frame) (parents : List Parent) : List Item :=
  frame.coming dir ++ comingAbove dir parents

/-- Every rope among some pieces obeys a rule. -/
def Obeying (rule : Rope.Rule) (ps : List Piece) : Prop :=
  ∀ r, Piece.part r ∈ ps → r.Obeys rule

/-- A break stands between two pieces: there is none in front of all of them, and none behind. -/
structure Frame.Proper (rule : Rope.Rule) (f : Frame) : Prop where
  behind : Obeying rule f.behind
  ahead : Obeying rule f.ahead
  start : f.behind = [] → f.crossed = true
  stop : f.ahead = [] → f.crossed = false

structure Parent.Proper (rule : Rope.Rule) (p : Parent) : Prop where
  behind : Obeying rule p.behind
  child : p.child.Obeys rule
  ahead : Obeying rule p.ahead

/-- The levels above lead from a rope with the given items to the root. -/
def Leads (dir : Direction) (root : Rope) : List Item → List Parent → Prop
  | xs, [] => xs = dir.order root.items
  | xs, p :: ps => xs = dir.order p.child.items ∧ Leads dir root (p.text dir) ps

/-- A path that leads through a document. -/
structure Sound (rule : Rope.Rule) (root : Rope) (dir : Direction) (frame : Frame)
    (parents : List Parent) : Prop where
  proper : frame.Proper rule
  above : ∀ p ∈ parents, p.Proper rule
  leads : Leads dir root (frame.text dir) parents

/-- A cursor stands where it has the given number of items behind it. -/
structure Stands (rule : Rope.Rule) (root : Rope) (place : Nat) (c : Cursor) : Prop where
  sound : Sound rule root c.dir c.frame c.parents
  ahead : ahead c.dir c.frame c.parents = (c.dir.order root.items).drop place
  le : place ≤ root.items.length

section Frames

variable {piece : Piece} {behind ahead : List Piece} {frame : Frame} {parents : List Parent}

theorem Obeying.of_cons (h : Obeying rule (piece :: ahead)) : Obeying rule ahead :=
  fun r hr => h r (List.mem_cons_of_mem _ hr)

theorem Obeying.cons (h : Obeying rule ahead) (hpiece : ∀ r, piece = .part r → r.Obeys rule) :
    Obeying rule (piece :: ahead) := by
  intro r hr
  rcases List.mem_cons.mp hr with rfl | hr
  · exact hpiece r rfl
  · exact h r hr

theorem Obeying.head {r : Rope} (h : Obeying rule (.part r :: ahead)) : r.Obeys rule :=
  h r List.mem_cons_self

@[simp] theorem coming_nil {crossed : Bool} : Frame.coming dir ⟨behind, [], crossed⟩ = [] := by
  cases crossed <;> rfl

@[simp] theorem coming_crossed :
    Frame.coming dir ⟨behind, piece :: ahead, true⟩ = dir.order piece.items ++ trail dir ahead :=
  rfl

@[simp] theorem coming_uncrossed : Frame.coming dir ⟨behind, ahead, false⟩ = trail dir ahead := rfl

/-- Reading the break in front of a piece leaves the items of a frame as they are. -/
theorem text_cross (h : behind ≠ []) :
    Frame.text dir ⟨behind, piece :: ahead, true⟩
      = Frame.text dir ⟨behind, piece :: ahead, false⟩ := by
  obtain ⟨last, behind, rfl⟩ := List.exists_cons_of_ne_nil h
  simp [Frame.text, Frame.flip]

/-- So does reading the piece. -/
theorem text_pass : Frame.text dir ⟨piece :: behind, ahead, false⟩
    = Frame.text dir ⟨behind, piece :: ahead, true⟩ := by
  simp [Frame.text, Frame.flip, Direction.order_reverse]

theorem text_enter {r : Rope} (h : r.Obeys rule) :
    (enter dir r).text dir = dir.order r.items := by
  have htrail := trail_pieces h dir
  simp [Frame.text, Frame.flip, enter, Frame.coming, htrail]

/-- A level is left behind its rope, as a piece that was read. -/
theorem text_leave (p : Parent) :
    Frame.text dir ⟨.part p.child :: p.behind, p.ahead, false⟩ = p.text dir := by
  simp [Frame.text, Frame.flip, Parent.text, Piece.items, Direction.order_reverse]

/-- A level is entered in front of its rope. -/
theorem text_descend {r : Rope} : Parent.text dir ⟨behind, r, ahead⟩
    = Frame.text dir ⟨behind, .part r :: ahead, true⟩ := by
  rw [← text_pass]
  exact (text_leave ⟨behind, r, ahead⟩).symm

theorem obeying_pieces {r : Rope} (h : r.Obeys rule) : Obeying rule (pieces r) := by
  intro s hs
  cases r with
  | leaf lines length => simp [pieces] at hs
  | branch children length lineCount => exact Rope.allObey_iff.mp h.1 s (by simpa [pieces] using hs)

theorem proper_enter {r : Rope} (h : r.Obeys rule) : (enter dir r).Proper rule where
  behind := fun s hs => by cases hs
  ahead := fun s hs => obeying_pieces h s (Direction.mem_order.mp hs)
  start := fun _ => rfl
  stop := fun hnil => absurd (Direction.order_eq_nil.mp hnil) (pieces_ne_nil h)

theorem coming_enter {r : Rope} (h : r.Obeys rule) :
    (enter dir r).coming dir = dir.order r.items := by
  have htext : (enter dir r).text dir = dir.order r.items := text_enter h
  simpa [Frame.text, Frame.flip, enter] using htext

/-- What is behind a frame that is turned round is what was ahead. -/
theorem text_flip : frame.flip.text dir.reverse = (frame.text dir).reverse := by
  have hflip : frame.flip.flip = frame := by
    simp [Frame.flip]
  simp [Frame.text, hflip]

theorem parent_text_flip (p : Parent) : p.flip.text dir.reverse = (p.text dir).reverse := by
  simp [Parent.text, Parent.flip, Direction.order_reverse]

theorem Frame.Proper.flip (h : frame.Proper rule) : frame.flip.Proper rule where
  behind := h.ahead
  ahead := h.behind
  start := fun hnil => by simp [Frame.flip, h.stop hnil]
  stop := fun hnil => by simp [Frame.flip, h.start hnil]

theorem Parent.Proper.flip {p : Parent} (h : p.Proper rule) : p.flip.Proper rule :=
  ⟨h.ahead, h.child, h.behind⟩

theorem Leads.flip {xs : List Item} (h : Leads dir root xs parents) :
    Leads dir.reverse root xs.reverse (parents.map Parent.flip) := by
  induction parents generalizing xs with
  | nil =>
    rw [Leads] at h
    rw [List.map_nil, Leads, h, Direction.order_reverse]
  | cons p ps ih =>
    obtain ⟨rfl, h⟩ := h
    refine ⟨(Direction.order_reverse _).symm, ?_⟩
    rw [parent_text_flip]
    exact ih h

theorem Sound.flip (h : Sound rule root dir frame parents) :
    Sound rule root dir.reverse frame.flip (parents.map Parent.flip) where
  proper := h.proper.flip
  above := by
    intro p hp
    obtain ⟨q, hq, rfl⟩ := List.mem_map.mp hp
    exact (h.above q hq).flip
  leads := text_flip ▸ h.leads.flip

/-- What is behind a path and what is ahead of it make the document. -/
theorem Sound.items_eq (h : Sound rule root dir frame parents) :
    (Cursor.ahead dir.reverse frame.flip (parents.map Parent.flip)).reverse
      ++ Cursor.ahead dir frame parents = dir.order root.items := by
  have hleads := h.leads
  clear h
  rw [Frame.text] at hleads
  simp only [Cursor.ahead]
  -- Level by level, what is behind and ahead is put to what is behind and ahead so far.
  generalize frame.flip.coming dir.reverse = gone at hleads ⊢
  generalize frame.coming dir = coming at hleads ⊢
  induction parents generalizing gone coming with
  | nil => simpa [comingAbove, Leads] using hleads
  | cons p ps ih =>
    obtain ⟨hchild, hleads⟩ := hleads
    have htext : p.text dir
        = (gone ++ trail dir.reverse p.behind).reverse ++ (coming ++ trail dir p.ahead) := by
      rw [Parent.text, ← hchild, List.reverse_append]
      simp only [List.append_assoc]
    have hrest := ih _ _ (htext ▸ hleads)
    simpa [comingAbove, Parent.flip] using hrest

end Frames

variable {c : Cursor} {place : Nat}

/-- A cursor in front of a document. -/
theorem stands_ofRope {r : Rope} (h : r.Obeys rule) (dir : Direction) :
    (ofRope r dir).Stands rule r 0 where
  sound := ⟨proper_enter h, by simp [ofRope], text_enter h⟩
  ahead := by simp [Cursor.ahead, ofRope, comingAbove, coming_enter h]
  le := Nat.zero_le _

/-- A cursor that is turned round stands at the same place, told from the other end. -/
theorem Stands.flip (h : c.Stands rule root place) :
    c.flip.Stands rule root (root.items.length - place) where
  sound := h.sound.flip
  ahead := by
    have hitems := h.sound.items_eq
    have hlength : (c.dir.order root.items).length = root.items.length := Direction.length_order _
    rw [h.ahead] at hitems
    have htake := List.take_append_drop place (c.dir.order root.items)
    have hbehind := List.append_cancel_right (hitems.trans htake.symm)
    rw [Cursor.flip, Direction.order_reverse, List.drop_reverse, hlength, Nat.sub_sub_self h.le,
      ← hbehind, List.reverse_reverse]
  le := Nat.sub_le _ _

end Cursor

end TextRevision
