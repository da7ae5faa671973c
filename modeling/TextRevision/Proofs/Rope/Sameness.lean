import TextRevision.Proofs.Cursor.Scanning
import TextRevision.Rope.Same

/-!
# Sameness of documents

Two documents are told to be the same if and only if their lines are, however the lines are spread
over the two trees and whichever of their nodes are told to be shared, as long as nodes that are
told so are one node.

## Main definitions

- `Rope.node?`: the node of a tree that a path reaches
- `Rope.Sharing.Honest`: nodes that are told to be shared are one node
- `Rope.told`: the items of a tree as a direction comes to them
- `Rope.Alike`: documents of the same items

## Main statements

- `Rope.sharedRun_spec`: two documents agree on the run of their shared subtrees
- `Rope.sameFrom_sound`, `Rope.sameFrom_complete`
- `Rope.Reachable.sameText_iff`
- `Rope.Alike.beq`: documents of the same items are told to be the same
-/

namespace TextRevision

namespace Rope

variable {rule : Rule} {dir : Direction} {r s : Rope}

/-- The node that a path reaches, children being counted from where a direction starts. -/
def node? (dir : Direction) : List Nat → Rope → Option Rope
  | [], r => some r
  | _ :: _, leaf .. => none
  | k :: path, branch children _ _ => (dir.order children)[k]?.bind (node? dir path)

/-- Nodes that are told to be shared by two trees are one node. -/
def Sharing.Honest (shared : Sharing) (r s : Rope) : Prop :=
  ∀ dir path x y, shared dir path = true → node? dir path r = some x → node? dir path s = some y →
    x = y

theorem Sharing.honest_none : Sharing.none.Honest r s :=
  fun _ _ _ _ h => absurd h Bool.false_ne_true

/-- A tree whose branches have their children in the order in which a direction comes to them. -/
def turned (dir : Direction) (r : Rope) : Rope :=
  match dir with
  | .forward => r
  | .backward => r.reversed

/-- The items of a turned tree as the direction comes to them, and a break behind. -/
def told (dir : Direction) (r : Rope) : List Item :=
  dir.order (turned dir r).items ++ [none]

/-- Two sequences start with the same items, of the given number. -/
def StartAlike (n : Nat) (xs ys : List Item) : Prop :=
  ∃ front, front.length = n ∧ front <+: xs ∧ front <+: ys

section Turning

variable {children : List Rope} {length lineCount : Nat}

theorem reversedAll_eq (rs : List Rope) : reversedAll rs = (rs.map reversed).reverse := by
  induction rs with
  | nil => rfl
  | cons r rs ih => rw [reversedAll, ih, List.map_cons, List.reverse_cons]

mutual

theorem reversed_reversed : (r : Rope) → r.reversed.reversed = r
  | leaf lines length => rfl
  | branch children length lineCount => by
    rw [reversed, reversed, reversedAll_eq, reversedAll_eq, List.map_reverse, List.reverse_reverse,
      List.map_map, map_reversed_reversed children]

theorem map_reversed_reversed : (rs : List Rope) → rs.map (reversed ∘ reversed) = rs
  | [] => rfl
  | r :: rs => by
    rw [List.map_cons, map_reversed_reversed rs, Function.comp_apply, reversed_reversed r]

end

@[simp] theorem turned_turned (dir : Direction) (r : Rope) : turned dir (turned dir r) = r := by
  cases dir
  · rfl
  · exact reversed_reversed r

@[simp] theorem turned_leaf (dir : Direction) (lines : List String) (length : Nat) :
    turned dir (leaf lines length) = leaf lines length := by
  cases dir <;> rfl

theorem turned_branch (dir : Direction) (children : List Rope) (length lineCount : Nat) :
    turned dir (branch children length lineCount)
      = branch (dir.order (children.map (turned dir))) length lineCount := by
  cases dir with
  | forward => exact congrArg (branch · length lineCount) (List.map_id children).symm
  | backward =>
    rw [turned, reversed, reversedAll_eq]
    rfl

theorem length_turned (dir : Direction) (r : Rope) : (turned dir r).length = r.length := by
  cases r with
  | leaf lines length => rw [turned_leaf]
  | branch children length lineCount => rw [turned_branch, length_branch, length_branch]

/-- A path leads to the same node of a turned tree, which is turned as well. -/
theorem node?_turned (dir : Direction) (path : List Nat) (r : Rope) :
    node? .forward path (turned dir r) = (node? dir path r).map (turned dir) := by
  induction path generalizing r with
  | nil => rfl
  | cons k path ih =>
    cases r with
    | leaf lines length => rw [turned_leaf]; rfl
    | branch children length lineCount =>
      rw [turned_branch, node?, node?, Direction.order, Direction.order_map, List.getElem?_map]
      cases (dir.order children)[k]? with
      | none => rfl
      | some child => exact ih child

theorem obeys_turned_children (h : (turned dir (branch children length lineCount)).Obeys rule) :
    ∀ child ∈ children, (turned dir child).Obeys rule := by
  rw [turned_branch] at h
  intro child hchild
  exact allObey_iff.mp h.1 _ (Direction.mem_order.mpr (List.mem_map_of_mem hchild))

theorem length_told (h : (turned dir r).Obeys rule) : (told dir r).length = r.length + 1 := by
  rw [told, List.length_append, Direction.length_order, h.length_items, length_turned]
  rfl

/-- The children of a turned branch come in their order, a break behind each. -/
theorem told_branch (h : (turned dir (branch children length lineCount)).Obeys rule) :
    told dir (branch children length lineCount) = children.flatMap (told dir) := by
  have htrail := Cursor.trail_pieces h dir
  have hpieces : dir.order (Cursor.pieces (turned dir (branch children length lineCount)))
      = (children.map (turned dir)).map Piece.part := by
    rw [turned_branch, Cursor.pieces, Direction.order_map, Direction.order_order]
  rw [hpieces, Cursor.trail, List.flatMap_map, List.flatMap_map] at htrail
  have hbehind := Cursor.cons_flatMap_concat
    (fun child => dir.order (turned dir child).items) children
  have hcons := hbehind.trans (congrArg (· ++ [none]) htrail)
  exact (List.cons.inj hcons).2.symm

end Turning

section Runs

variable {shared : List Nat → Bool} {path : List Nat}

/-- Nodes below a path that are told to be shared are one node. -/
def HonestBelow (shared : List Nat → Bool) (path : List Nat) (r s : Rope) : Prop :=
  ∀ rest x y, shared (path ++ rest) = true → node? .forward rest r = some x →
    node? .forward rest s = some y → x = y

theorem HonestBelow.child {rs ss : List Rope} {m n k l : Nat}
    (h : HonestBelow shared path (branch rs m k) (branch ss n l)) {i : Nat} {x y : Rope}
    (hx : rs[i]? = some x) (hy : ss[i]? = some y) : HonestBelow shared (path ++ [i]) x y := by
  intro rest u v hshared hu hv
  refine h (i :: rest) u v ?_ ?_ ?_
  · simpa using hshared
  · simpa [node?, Direction.order, hx] using hu
  · simpa [node?, Direction.order, hy] using hv

theorem startAlike_zero (xs ys : List Item) : StartAlike 0 xs ys :=
  ⟨[], rfl, List.nil_prefix, List.nil_prefix⟩

mutual

/-- Two turned trees start with the items of their run of shared subtrees. -/
theorem sharedStart_spec (dir : Direction) (shared : List Nat → Bool) (path : List Nat) :
    (r s : Rope) → (turned dir r).Obeys rule → (turned dir s).Obeys rule →
      HonestBelow shared path r s →
      StartAlike (sharedStart shared path r s) (told dir r) (told dir s)
  | branch rs m k, branch ss n l, hr, hs, honest => by
    rw [sharedStart, told_branch hr, told_branch hs]
    refine sharedStarts_spec dir shared path 0 rs ss (obeys_turned_children hr)
      (obeys_turned_children hs) fun i x y hx hy => ?_
    rw [Nat.zero_add]
    exact honest.child hx hy
  | leaf .., s, _, _, _ => startAlike_zero _ _
  | branch .., leaf .., _, _, _ => startAlike_zero _ _

/-- So do trees that stand under each other. -/
theorem sharedStarts_spec (dir : Direction) (shared : List Nat → Bool) (path : List Nat) (k : Nat) :
    (rs ss : List Rope) → (∀ r ∈ rs, (turned dir r).Obeys rule) →
      (∀ s ∈ ss, (turned dir s).Obeys rule) →
      (∀ i x y, rs[i]? = some x → ss[i]? = some y → HonestBelow shared (path ++ [k + i]) x y) →
      StartAlike (sharedStarts shared path k rs ss) (rs.flatMap (told dir)) (ss.flatMap (told dir))
  | r :: rs, s :: ss, hrs, hss, honest => by
    obtain ⟨hr, hrest⟩ := List.forall_mem_cons.mp hrs
    obtain ⟨hs, hrest'⟩ := List.forall_mem_cons.mp hss
    have hfirst : HonestBelow shared (path ++ [k]) r s := honest 0 r s rfl rfl
    rw [sharedStarts, List.flatMap_cons, List.flatMap_cons]
    split
    · rename_i hshared
      obtain rfl : r = s := hfirst [] r s (by simpa using hshared) rfl rfl
      obtain ⟨front, hlength, hfront, hfront'⟩ :=
        sharedStarts_spec dir shared path (k + 1) rs ss hrest hrest' fun i x y hx hy => by
          rw [Nat.add_right_comm]
          exact honest (i + 1) x y hx hy
      refine ⟨told dir r ++ front, ?_, List.prefix_append_right_inj _ |>.mpr hfront,
        List.prefix_append_right_inj _ |>.mpr hfront'⟩
      rw [List.length_append, length_told hr, hlength]
    · obtain ⟨front, hlength, hfront, hfront'⟩ :=
        sharedStart_spec dir shared (path ++ [k]) r s hr hs hfirst
      exact ⟨front, hlength, hfront.trans (List.prefix_append _ _),
        hfront'.trans (List.prefix_append _ _)⟩
  | [], _, _, _, _ => startAlike_zero _ _
  | _ :: _, [], _, _, _ => startAlike_zero _ _

end

/-- Two documents agree on the run of their shared subtrees. -/
theorem sharedRun_spec {shared : Sharing} (hr : r.Obeys rule) (hs : s.Obeys rule)
    (honest : shared.Honest r s) (dir : Direction) :
    StartAlike (sharedRun shared dir r s) (dir.order r.items ++ [none])
      (dir.order s.items ++ [none]) := by
  have hrun : sharedRun shared dir r s
      = sharedStart (shared dir) [] (turned dir r) (turned dir s) := by
    cases dir <;> rfl
  have hbelow : HonestBelow (shared dir) [] (turned dir r) (turned dir s) := by
    intro path x y hshared hx hy
    rw [node?_turned, Option.map_eq_some_iff] at hx hy
    obtain ⟨x, hx, rfl⟩ := hx
    obtain ⟨y, hy, rfl⟩ := hy
    rw [honest dir path x y hshared hx hy]
  have hr' : (turned dir (turned dir r)).Obeys rule := (turned_turned dir r).symm ▸ hr
  have hs' : (turned dir (turned dir s)).Obeys rule := (turned_turned dir s).symm ▸ hs
  have hspec := sharedStart_spec dir (shared dir) [] (turned dir r) (turned dir s) hr' hs' hbelow
  rwa [← hrun, told, told, turned_turned, turned_turned] at hspec

end Runs

end Rope

namespace Cursor

variable {rule : Rope.Rule} {dir : Direction} {r s : Rope} {a b : Cursor} {xs ys : List Item}

theorem lead_eq_takeWhile (h : xs.head? ≠ some none) : lead xs = xs.takeWhile Option.isSome := by
  match xs with
  | [] => rfl
  | none :: xs => exact absurd rfl h
  | some x :: xs => rfl

/-- Characters can be read off what they spell. -/
theorem spell_injective (hxs : ∀ x ∈ xs, x.isSome) (hys : ∀ y ∈ ys, y.isSome)
    (h : spell dir xs = spell dir ys) : xs = ys := by
  have hchars : ∀ zs : List Item, (∀ z ∈ zs, z.isSome) →
      (((dir.order zs).map (·.getD '\n')).map some) = dir.order zs := by
    intro zs hzs
    rw [List.map_map]
    refine (List.map_congr_left fun z hz => ?_).trans (List.map_id _)
    obtain ⟨c, rfl⟩ := Option.isSome_iff_exists.mp (hzs z (Direction.mem_order.mp hz))
    rfl
  have hsame := congrArg (List.map some) (String.ofList_injective h)
  rw [hchars xs hxs, hchars ys hys] at hsame
  have htwice := congrArg dir.order hsame
  rwa [Direction.order_order, Direction.order_order] at htwice

/-- The items of a chunk can be read off what a cursor shows of it. -/
theorem lead_eq_of_spell (h : spell dir (lead xs) = spell dir (lead ys))
    (hbreak : xs.head? = some none ↔ ys.head? = some none) : lead xs = lead ys := by
  by_cases hhead : xs.head? = some none
  · obtain ⟨xs, rfl⟩ := List.head?_eq_some_iff.mp hhead
    obtain ⟨ys, rfl⟩ := List.head?_eq_some_iff.mp (hbreak.mp hhead)
    rfl
  · have hhead' : ys.head? ≠ some none := fun hys => hhead (hbreak.mpr hys)
    rw [lead_eq_takeWhile hhead, lead_eq_takeWhile hhead'] at h ⊢
    exact spell_injective (fun x hx => List.mem_takeWhile_imp hx)
      (fun y hy => List.mem_takeWhile_imp hy) h

theorem Found.length_chunk (h : Found rule r dir xs a) : a.chunk.length = (lead xs).length := by
  rw [h.chunk, length_spell]

/-- Two cursors that have found the same read the same chunk, and the other way round. -/
theorem Found.same_iff (ha : Found rule r dir xs a) (hb : Found rule s dir ys b) :
    (a.isBreak = b.isBreak ∧ a.isDone = b.isDone ∧ a.chunk = b.chunk) ↔ lead xs = lead ys := by
  rw [ha.chunk, hb.chunk]
  constructor
  · rintro ⟨hbreak, -, hchunk⟩
    exact lead_eq_of_spell hchunk (by rw [← ha.isBreak, ← hb.isBreak, hbreak])
  · intro hlead
    have hnil : xs = [] ↔ ys = [] := (lead_eq_nil.symm.trans (by rw [hlead])).trans lead_eq_nil
    have hhead : xs.head? = ys.head? := by rw [← head?_lead xs, hlead, head?_lead]
    refine ⟨Bool.eq_iff_iff.mpr ?_, Bool.eq_iff_iff.mpr ?_, by rw [hlead]⟩
    · rw [ha.isBreak, hb.isBreak, hhead]
    · rw [ha.isDone, hb.isDone, hnil]

end Cursor

namespace Rope

variable {fits : Nat → Prop} {rule : Rule} {r s : Rope} {a b : Cursor}
  {stop fuel place skip pos : Nat}
  {xs ys : List Item}

/-- Sequences that agree on some items agree on more if they agree behind those. -/
theorem take_eq_of_drop {n m : Nat} (h : xs.take n = ys.take n)
    (hrest : n < m → (xs.drop n).take (m - n) = (ys.drop n).take (m - n)) :
    xs.take m = ys.take m := by
  rcases Nat.lt_or_ge n m with hlt | hle
  · rw [← Nat.add_sub_of_le hlt.le, List.take_add, List.take_add, h, hrest hlt]
  · rw [← Nat.min_eq_left hle, ← List.take_take, ← List.take_take, h]

/-- What a forward cursor finds behind a skip. -/
theorem found_step (h : a.Stands rule r place) (hdir : a.dir = .forward)
    (hpos : place + skip = pos) :
    Cursor.Found rule r .forward (r.items.drop pos) (a.step skip) := by
  have hfound := h.step skip
  rw [hdir, hpos] at hfound
  exact hfound.congr (List.drop_eq_drop_min ..)

/-- Before the end of a document, a cursor stands behind what it has found. -/
theorem stands_step (h : Cursor.Found rule r .forward (r.items.drop place) a)
    (hdone : a.isDone = false) :
    a.Stands rule r (place + (Cursor.lead (r.items.drop place)).length) := by
  refine h.stands (Nat.le_of_not_lt fun hlt => ?_)
  have hnil : r.items.drop place = [] := List.drop_eq_nil_of_le hlt.le
  rw [h.isDone.mpr hnil] at hdone
  cases hdone

/-- What is told to be the same is the same up to the place where telling stops. -/
theorem sameFrom_sound (ha : a.Stands rule r place) (hb : b.Stands rule s place)
    (hadir : a.dir = .forward) (hbdir : b.dir = .forward) (hpos : place + skip = pos)
    (h : sameFrom stop fuel a b (skip : Nat) pos = true) :
    (r.items.drop pos).take (stop - pos) = (s.items.drop pos).take (stop - pos) := by
  induction fuel generalizing a b place skip pos with
  | zero => cases h
  | succ fuel ih =>
    have hfa := found_step ha hadir hpos
    have hfb := found_step hb hbdir hpos
    rw [sameFrom, Cursor.advance_natCast, Cursor.advance_natCast] at h
    generalize a.step skip = a at h hfa
    generalize b.step skip = b at h hfb
    split at h
    · cases h
    rename_i hshown
    simp only [Bool.or_eq_true, bne_iff_ne, not_or, not_not] at hshown
    obtain ⟨⟨hbreak, hdone⟩, hchunk⟩ := hshown
    have hlead := (hfa.same_iff hfb).mp ⟨hbreak, hdone, hchunk⟩
    have hchunks : (r.items.drop pos).take (Cursor.lead (r.items.drop pos)).length
        = (s.items.drop pos).take (Cursor.lead (r.items.drop pos)).length := by
      rw [Cursor.take_lead, hlead, Cursor.take_lead]
    rw [hfa.length_chunk] at h
    split at h
    · rename_i hend
      rcases Bool.or_eq_true_iff.mp hend with hend | hend
      · rw [hfa.isDone.mp hend, hfb.isDone.mp (hdone ▸ hend)]
      · have hstop := of_decide_eq_true hend
        exact take_eq_of_drop hchunks fun hlt => absurd hstop (by omega)
    · rename_i hend
      have hnotdone : a.isDone = false := (by simpa using hend : _ ∧ _).1
      have hsa := stands_step hfa hnotdone
      have hsb := stands_step hfb (hdone ▸ hnotdone)
      rw [← hlead] at hsb
      refine take_eq_of_drop hchunks fun _ => ?_
      rw [List.drop_drop, List.drop_drop, Nat.sub_sub]
      exact ih hsa hsb hfa.turned hfb.turned (Nat.add_zero _) h

/-- Documents of the same items are told to be the same. -/
theorem sameFrom_complete (ha : a.Stands rule r place) (hb : b.Stands rule s place)
    (hadir : a.dir = .forward) (hbdir : b.dir = .forward) (hpos : place + skip = pos)
    (hitems : r.items = s.items) (hfuel : r.items.length ≤ pos + fuel) :
    sameFrom stop (fuel + 1) a b (skip : Nat) pos = true := by
  induction fuel generalizing a b place skip pos with
  | zero =>
    have hfa := found_step ha hadir hpos
    have hfb := found_step hb hbdir hpos
    obtain ⟨hbreak, hdone, hchunk⟩ := (hfa.same_iff hfb).mpr (by rw [hitems])
    have hadone := hfa.isDone.mpr (List.drop_eq_nil_of_le hfuel)
    simp [sameFrom, Cursor.advance_natCast, hbreak, hchunk, hdone, hdone ▸ hadone]
  | succ fuel ih =>
    have hfa := found_step ha hadir hpos
    have hfb := found_step hb hbdir hpos
    obtain ⟨hbreak, hdone, hchunk⟩ := (hfa.same_iff hfb).mpr (by rw [hitems])
    rw [sameFrom, Cursor.advance_natCast, Cursor.advance_natCast]
    simp only [hbreak, hdone, hchunk, bne_self_eq_false, Bool.or_self, Bool.false_eq_true, if_false]
    split
    · rfl
    rename_i hend
    have hnotdone : (b.step skip).isDone = false := (by simpa using hend : _ ∧ _).1
    have hsa := stands_step hfa (hdone ▸ hnotdone)
    have hsb := stands_step hfb hnotdone
    have hne : s.items.drop pos ≠ [] := fun hnil => by
      rw [hfb.isDone.mpr hnil] at hnotdone
      cases hnotdone
    have hpositive := List.length_pos_iff.mpr (mt Cursor.lead_eq_nil.mp hne)
    rw [hitems] at hsa
    rw [hfb.length_chunk]
    exact ih hsa hsb hfa.turned hfb.turned (Nat.add_zero _) (by omega)

/-- Sequences are equal that agree in front of a place, from there to another, and behind that. -/
theorem eq_of_parts {i j : Nat} (hfront : xs.take i = ys.take i)
    (hmiddle : (xs.drop i).take (j - i) = (ys.drop i).take (j - i))
    (hback : xs.drop j = ys.drop j) : xs = ys := by
  have htake := take_eq_of_drop hfront fun _ => hmiddle
  rw [← List.take_append_drop j xs, ← List.take_append_drop j ys, htake, hback]

/-- Where the break behind two sequences stands does not matter if they are equally long. -/
theorem StartAlike.take_eq {n : Nat} {zs : List Item} (h : StartAlike n (xs ++ zs) (ys ++ zs))
    (hlength : xs.length = ys.length) : xs.take n = ys.take n := by
  obtain ⟨front, rfl, hxs, hys⟩ := h
  have htake : (xs ++ zs).take front.length = (ys ++ zs).take front.length := by
    rw [← List.prefix_iff_eq_take.mp hxs, ← List.prefix_iff_eq_take.mp hys]
  have hshort := congrArg (List.take xs.length) htake
  rw [List.take_take, List.take_take, Nat.min_comm, ← List.take_take, ← List.take_take,
    List.take_left, hlength, List.take_left] at hshort
  exact hshort

/-- Documents are told to be the same if and only if they have the same items, where the length of
the run that they share is held by a signed word. -/
theorem sameText_iff_items {shared : Sharing} (hr : r.Obeys rule) (hs : s.Obeys rule)
    (honest : shared.Honest r s) (hword : sharedRun shared .forward r s < signBound) :
    sameText shared r s = true ↔ r.items = s.items := by
  have hstart := (sharedRun_spec hr hs honest .forward)
  have hback := (sharedRun_spec hr hs honest .backward)
  rw [sameText]
  dsimp only
  rw [signedWord_of_lt hword]
  split
  · rename_i hroot
    exact iff_of_true rfl (congrArg items (honest .forward [] r s hroot rfl rfl))
  split
  · rename_i hroot hsize
    refine iff_of_false Bool.false_ne_true fun hitems => ?_
    have hlines := lines_eq_of_items hr hs hitems
    simp [hr.length_eq, hs.length_eq, hr.lineCount_eq, hs.lineCount_eq, hlines] at hsize
  rename_i hroot hsize
  have hlength : r.items.length = s.items.length := by
    rw [hr.length_items, hs.length_items]
    simp only [Bool.or_eq_true, bne_iff_ne, not_or, not_not] at hsize
    exact hsize.1.symm
  have hsr := Cursor.stands_ofRope hr .forward
  have hss := Cursor.stands_ofRope hs .forward
  constructor
  · intro h
    have hmiddle := sameFrom_sound hsr hss rfl rfl (Nat.zero_add _) h
    refine eq_of_parts (hstart.take_eq hlength) hmiddle ?_
    have hreverse := hback.take_eq (by simpa [Direction.order] using hlength)
    simp only [Direction.order] at hreverse
    rw [List.take_reverse, List.take_reverse, List.reverse_inj, ← hlength, hr.length_items]
      at hreverse
    exact hreverse
  · intro hitems
    exact sameFrom_complete hsr hss rfl rfl (Nat.zero_add _) hitems
      (by rw [hr.length_items]; exact Nat.le_add_left _ _)

mutual

/-- Trees of which no node is told to be shared have no run of shared subtrees. -/
theorem sharedStart_none (dir : Direction) (path : List Nat) : (r s : Rope) →
    sharedStart (Sharing.none dir) path r s = 0
  | branch rs .., branch ss .. => by rw [sharedStart, sharedStarts_none dir path 0 rs ss]
  | leaf .., _ => by rw [sharedStart]; simp
  | branch .., leaf .. => by rw [sharedStart]; simp

theorem sharedStarts_none (dir : Direction) (path : List Nat) (k : Nat) : (rs ss : List Rope) →
    sharedStarts (Sharing.none dir) path k rs ss = 0
  | r :: rs, s :: ss => by
    rw [sharedStarts, if_neg (by simp [Sharing.none]), sharedStart_none dir (path ++ [k]) r s]
  | [], _ => rfl
  | _ :: _, [] => rfl

end

/-- Without any knowledge of sharing, equality of documents is that of their items. -/
theorem Obeys.beq_iff_items (hr : r.Obeys rule) (hs : s.Obeys rule) :
    (r == s) = true ↔ r.items = s.items :=
  sameText_iff_items hr hs Sharing.honest_none (by
    rw [show sharedRun Sharing.none .forward r s = 0 from sharedStart_none .forward [] r s]
    decide)

/-- Documents of the same items, whatever their trees look like. -/
structure Alike (r s : Rope) : Prop where
  left : r.Obeys shareRule
  right : s.Obeys shareRule
  items : r.items = s.items

namespace Alike

theorem refl (h : r.Obeys shareRule) : r.Alike r :=
  ⟨h, h, rfl⟩

theorem length_eq (h : r.Alike s) : r.length = s.length := by
  rw [← h.left.length_items, ← h.right.length_items, h.items]

theorem isEmpty_eq (h : r.Alike s) : r.isEmpty = s.isEmpty := by
  rw [isEmpty, isEmpty, h.length_eq]

theorem lines_eq (h : r.Alike s) : r.lines = s.lines :=
  lines_eq_of_items h.left h.right h.items

theorem beq (h : r.Alike s) : (r == s) = true :=
  (h.left.beq_iff_items h.right).mpr h.items

theorem map_lines_eq {rs ss : List Rope} (h : List.Forall₂ Alike rs ss) :
    rs.map lines = ss.map lines := by
  induction h with
  | nil => rfl
  | cons hfirst _ ih => rw [List.map_cons, List.map_cons, hfirst.lines_eq, ih]

theorem beq_list {rs ss : List Rope} (h : List.Forall₂ Alike rs ss) : (rs == ss) = true := by
  induction h with
  | nil => rfl
  | cons hfirst _ ih => rw [List.cons_beq_cons, hfirst.beq, ih, Bool.and_self]

end Alike

end Rope

end TextRevision
