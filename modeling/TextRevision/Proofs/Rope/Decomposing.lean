import TextRevision.Proofs.Rope.Cutting

/-!
# Pushing pieces onto a list

The pieces of a range can also be pushed onto a list of pieces, one after the other. An edge that is
open is narrowed on the way down to the one leaf that lies at it: the first piece is put to the last
line of the list, so that a leaf has to stand there, and the last piece is left as a leaf. Three
things could go wrong: that there is no leaf to be joined, that a range ends in front of its start,
and that a leaf without lines is measured. None of them does, and what is pushed are the pieces of
`cut`, welded to the list or put behind it.

## Main definitions

- `Rope.decompose?`: the pieces of a range pushed onto a list, if nothing goes wrong
- `Rope.linesIn`: the lines of a range
- `Rope.Decomposed`: what the list comes to

## Main statements

- `Rope.decompose?_eq`: pushing pieces is cutting and welding
- `Rope.exists_decomposed`: what pushing comes to, and that nothing goes wrong
- `Rope.decompose?_spliceParts`: the pieces of an edit are pushed in three goes
-/

namespace TextRevision

/-- The whole of a block is all its lines. -/
theorem Block.pieces_total {lines : List String} (h : lines ≠ []) :
    pieces lines 0 (Line.total lines) = lines := by
  refine eq_of_items_eq (pieces_ne_nil h (Nat.zero_le _) (Nat.zero_le _)) h ?_
  rw [items_pieces, List.drop_zero, Nat.sub_zero, ← length_items, List.take_length]

namespace Rope

/-- A leaf whose length is counted. Without lines there is nothing to count. -/
def measured? (lines : List String) : Option Rope :=
  if lines = [] then none else some (ofBlock lines)

/-- The leaf of a range, unless the range ends in front of its start. -/
def leafIn? (lines : List String) (length start stop : Nat) : Option Rope :=
  if start = 0 ∧ length ≤ stop then some (leaf lines length)
  else if min stop length < start then none
  else some (leaf (Block.extract lines start stop) (min stop length - start))

/-- A leaf joined to the leaf at the end of a list; if that makes a leaf too large, its halves. -/
def joinLast? (target : List Rope) (piece : Rope) : Option (List Rope) :=
  match target.getLast?, piece with
  | some (leaf last lastLength), leaf lines length =>
    let joined := Block.glue last (Block.pieces lines 0 length)
    if joined.length ≤ leafLimit then
      some (target.dropLast ++ [leaf joined (lastLength + length)])
    else
      (measured? (joined.take (joined.length / 2))).bind fun front =>
        (measured? (joined.drop (joined.length / 2))).map fun back =>
          target.dropLast ++ [front, back]
  | _, _ => none

mutual

/-- The pieces of a range pushed onto a list. An edge is open (`left`, `right`) if a leaf has to be
there to be joined to what stands in front of it or comes behind it. -/
def decompose? : Rope → (start stop : Nat) → (target : List Rope) → (left right : Bool) →
    Option (List Rope)
  | leaf lines length, start, stop, target, left, _ =>
    (leafIn? lines length start stop).bind fun piece =>
      if left then joinLast? target piece else some (target ++ [piece])
  | branch children _ _, start, stop, target, left, right =>
    decomposeAll? children 0 start stop target left right

/-- The same for ropes that stand under each other from place `pos` on. -/
def decomposeAll? : List Rope → (pos start stop : Nat) → (target : List Rope) →
    (left right : Bool) → Option (List Rope)
  | [], _, _, _, target, _, _ => some target
  | r :: rs, pos, start, stop, target, left, right =>
    if stop < pos then some target
    else
      let left' := left && pos ≤ start
      let right' := right && stop ≤ pos + r.length
      let pushed :=
        if start ≤ pos + r.length then
          if start ≤ pos ∧ pos + r.length ≤ stop ∧ !left' ∧ !right' then some (target ++ [r])
          else r.decompose? (start - pos) (stop - pos) target left' right'
        else some target
      pushed.bind fun target =>
        decomposeAll? rs (pos + r.length + 1) start stop target left right

end

/-- Pieces put to a list: welded to its end if the edge is open, behind it otherwise. -/
def put (left : Bool) (target pieces : List Rope) : List Rope :=
  if left then weld target pieces else target ++ pieces

variable {rule : Rule} {target : List Rope} {left right : Bool} {start stop : Nat}

theorem weld_nil (front : List Rope) : weld front [] = front := by
  induction front with
  | nil => rfl
  | cons piece front ih =>
    cases front with
    | nil => cases piece <;> rfl
    | cons next rest => rw [weld_cons, ih]

/-- What is welded on changes only at its first piece. -/
theorem weld_append (front : List Rope) {back : List Rope} (later : List Rope) (h : back ≠ []) :
    weld front (back ++ later) = weld front back ++ later := by
  obtain ⟨first, rest, rfl⟩ := List.exists_cons_of_ne_nil h
  induction front with
  | nil => rfl
  | cons piece front ih =>
    cases front with
    | nil =>
      cases piece with
      | branch => rfl
      | leaf =>
        cases first with
        | branch => rfl
        | leaf =>
          rw [List.cons_append, weld, weld, List.append_assoc]
    | cons next rest => rw [weld_cons, weld_cons, ih, List.cons_append]

/-- Welding joins the last leaf of the front and the first of the back. -/
theorem weld_leaves (front : List Rope) (last lines : List String) (lastLength length : Nat)
    (later : List Rope) :
    weld (front ++ [leaf last lastLength]) (leaf lines length :: later)
      = front ++ (joinLeaves last lastLength lines length ++ later) := by
  induction front with
  | nil => rfl
  | cons piece front ih =>
    obtain ⟨next, rest, hrest⟩ :=
      List.exists_cons_of_ne_nil (show front ++ [leaf last lastLength] ≠ [] by simp)
    rw [List.cons_append, List.cons_append, ← ih, hrest, weld_cons]

theorem put_nil (left : Bool) (target : List Rope) : put left target [] = target := by
  cases left
  · exact List.append_nil target
  · exact weld_nil target

theorem put_append (left : Bool) (target : List Rope) {pieces : List Rope} (later : List Rope)
    (h : pieces ≠ []) : put left target (pieces ++ later) = put left target pieces ++ later := by
  cases left
  · exact (List.append_assoc ..).symm
  · exact weld_append target later h

theorem LeafLast.exists_concat (h : LeafLast target) :
    ∃ front lines length, target = front ++ [leaf lines length] := by
  obtain ⟨lines, length, hlast⟩ := h
  obtain ⟨front, hfront⟩ := List.getLast?_eq_some_iff.mp hlast
  exact ⟨front, lines, length, hfront⟩

/-- A leaf can be joined to a list that ends in a leaf. -/
theorem joinLast?_eq (htarget : LeafLast target) {lines : List String} {length : Nat}
    (h : (leaf lines length).Obeys rule) :
    joinLast? target (leaf lines length) = some (weld target [leaf lines length]) := by
  obtain ⟨front, last, lastLength, rfl⟩ := htarget.exists_concat
  obtain ⟨hne, -, rfl⟩ := h
  simp only [joinLast?, List.getLast?_concat, List.dropLast_concat, Block.pieces_total hne]
  rw [weld_leaves, joinLeaves, List.append_nil]
  split
  · rfl
  · next hlarge =>
    -- More than 32 lines leave some on either side.
    simp only [leafLimit] at hlarge
    rw [measured?, if_neg, Option.bind_some, measured?, if_neg, Option.map_some]
    · simp only [List.drop_eq_nil_iff]
      omega
    · simp only [List.take_eq_nil_iff, not_or]
      refine ⟨by omega, ?_⟩
      rintro hnil
      simp [hnil] at hlarge

/-- A leaf pushes the piece that it is cut into. -/
theorem decompose?_leaf {lines : List String} {length : Nat} (h : (leaf lines length).Obeys rule)
    (hstart : start ≤ length) (hle : start ≤ stop) (htarget : left = true → LeafLast target) :
    (leaf lines length).decompose? start stop target left right
      = some (put left target ((leaf lines length).cut start stop left right)) := by
  have hpiece : ∃ lines' length', leafIn? lines length start stop = some (leaf lines' length')
      ∧ (leaf lines length).cut start stop left right = [leaf lines' length'] := by
    rw [leafIn?, cut]
    split
    · exact ⟨_, _, rfl, rfl⟩
    · rw [if_neg (by omega)]
      exact ⟨_, _, rfl, rfl⟩
  obtain ⟨lines', length', hsome, hcut⟩ := hpiece
  have hcuts : Cuts rule ((leaf lines length).cut start stop left right) _ True True :=
    cut_leaf_spec h
  have hobey := hcuts.obey
  rw [hcut] at hobey
  rw [decompose?, hsome, hcut, Option.bind_some, put]
  cases left with
  | false => rfl
  | true => exact joinLast?_eq (htarget rfl) hobey.1

section Ropes

variable {r : Rope} {rs : List Rope} {pos : Nat}

/-- What is put to a list behind the pieces of a rope stands behind them. -/
theorem put_own (h : r.Obeys rule) (later : List Rope) (hle : start ≤ stop) (hpos : pos ≤ stop)
    (hmeet : start ≤ pos + r.length) :
    put (left && pos ≤ start) target (ownPieces r pos start stop left right ++ later)
      = put (left && pos ≤ start) target (ownPieces r pos start stop left right) ++ later := by
  have hown := ownPieces_spec left right h hmeet fun left right =>
    cut_spec r (start - pos) (stop - pos) left right h (by omega) (by omega)
  exact put_append _ _ _ hown.ne_nil

theorem decomposeAll?_of_lt (h : stop < pos) :
    decomposeAll? rs pos start stop target left right = some target := by
  cases rs with
  | nil => rfl
  | cons r rs => rw [decomposeAll?, if_pos h]

/-- A rope in front of the range pushes nothing. -/
theorem decomposeAll?_cons_of_lt (hpos : pos ≤ stop) (h : pos + r.length < start) :
    decomposeAll? (r :: rs) pos start stop target left right
      = decomposeAll? rs (pos + r.length + 1) start stop target left right := by
  rw [decomposeAll?, if_neg (Nat.not_lt.mpr hpos)]
  dsimp only
  rw [if_neg (Nat.not_le.mpr h), Option.bind_some]

/-- A rope that the range meets pushes its own pieces: itself, or those of its part of the range. -/
theorem decomposeAll?_cons (hpos : pos ≤ stop) (hmeet : start ≤ pos + r.length)
    (hinner : ∀ left' right', left' = (left && decide (pos ≤ start)) →
      r.decompose? (start - pos) (stop - pos) target left' right'
        = some (put left' target (r.cut (start - pos) (stop - pos) left' right'))) :
    decomposeAll? (r :: rs) pos start stop target left right
      = decomposeAll? rs (pos + r.length + 1) start stop
          (put (left && pos ≤ start) target (ownPieces r pos start stop left right))
          left right := by
  rw [decomposeAll?, if_neg (Nat.not_lt.mpr hpos)]
  dsimp only
  rw [if_pos hmeet, ownPieces, if_pos hmeet]
  split
  · next hwhole =>
    have hshut : (left && decide (pos ≤ start)) = false := by
      simpa only [Bool.not_eq_true'] using hwhole.2.2.1
    rw [hshut, Option.bind_some, put, if_neg Bool.false_ne_true]
  · rw [hinner _ _ rfl, Option.bind_some]

end Ropes

mutual

/-- Pushing pieces is cutting and welding. -/
theorem decompose?_eq : (r : Rope) → (start stop : Nat) → (target : List Rope) →
    (left right : Bool) → r.Obeys rule → start ≤ r.length → start ≤ stop →
    (left = true → LeafLast target) →
      r.decompose? start stop target left right
        = some (put left target (r.cut start stop left right))
  | leaf lines length, start, stop, target, left, right, h, hstart, hle, htarget =>
    decompose?_leaf h hstart hle htarget
  | branch children _ _, start, stop, target, left, right, h, hstart, hle, htarget => by
    have hall := decomposeAll?_eq children 0 start stop target left right h.1 hle
      fun hopen => htarget (by simpa using hopen)
    rw [decompose?, hall, cut]
    simp

/-- The edge in front is open for the first rope that the range meets, and closed for the others. -/
theorem decomposeAll?_eq : (rs : List Rope) → (pos start stop : Nat) → (target : List Rope) →
    (left right : Bool) → AllObey rule rs → start ≤ stop →
    ((left && pos ≤ start) = true → LeafLast target) →
      decomposeAll? rs pos start stop target left right
        = some (put (left && pos ≤ start) target (cutAll rs pos start stop left right))
  | [], pos, start, stop, target, left, right, _, _, _ => by
    rw [decomposeAll?, cutAll, put_nil]
  | r :: rs, pos, start, stop, target, left, right, h, hle, htarget => by
    by_cases hpos : stop < pos
    · rw [decomposeAll?_of_lt hpos, cutAll_of_lt hpos, put_nil]
    have hpos : pos ≤ stop := Nat.not_lt.mp hpos
    rw [cutAll_cons hpos]
    by_cases hmeet : start ≤ pos + r.length
    · have hclosed : (left && decide (pos + r.length + 1 ≤ start)) = false := by
        have hfront : ¬ pos + r.length + 1 ≤ start := by omega
        rw [decide_eq_false hfront, Bool.and_false]
      rw [decomposeAll?_cons hpos hmeet ?_,
        decomposeAll?_eq rs _ start stop _ left right h.2 hle ?_, hclosed,
        put_own h.1 _ hle hpos hmeet]
      · rfl
      · intro hopen
        rw [hclosed] at hopen
        cases hopen
      · intro left' right' hleft
        exact decompose?_eq r _ _ target left' right' h.1 (by omega) (by omega)
          fun hopen => htarget (hleft ▸ hopen)
    · have hbehind : pos + r.length < start := Nat.not_le.mp hmeet
      -- The edge is as open as it was in front of the rope.
      have hopen : (left && decide (pos + r.length + 1 ≤ start))
          = (left && decide (pos ≤ start)) := by
        have hfront : pos ≤ start := by omega
        rw [decide_eq_true hfront, decide_eq_true (show pos + r.length + 1 ≤ start from hbehind)]
      rw [decomposeAll?_cons_of_lt hpos hbehind,
        decomposeAll?_eq rs _ start stop target left right h.2 hle (by rwa [hopen]), hopen,
        ownPieces_of_lt hbehind, List.nil_append]

end

/-- The lines of a range of a rope. -/
def linesIn (r : Rope) (start stop : Nat) : List String :=
  Block.ofItems ((r.items.drop start).take (stop - start))

/-- What pushing the pieces of a range onto a list comes to. Pieces are put behind those that are
there already, all of which stay if the edge is closed, all but the last if it is open; the lines of
the range stand under those that were there, or go on from the last of these. -/
structure Decomposed (rule : Rule) (r : Rope) (start stop : Nat) (target : List Rope)
    (left right : Bool) (result : List Rope) : Prop where
  obey : AllObey rule result
  lines : linesOf result =
    if left then Block.glue (linesOf target) (r.linesIn start stop)
    else linesOf target ++ r.linesIn start stop
  pushed : ∃ pieces, pieces ≠ []
    ∧ result = (if left then target.dropLast else target) ++ pieces
  last : right = true → LeafLast result

/-- The lines of a range are those of its pieces. -/
theorem Pieces.linesOf_eq {r : Rope} {pieces : List Rope}
    (h : Pieces rule pieces ((r.items.drop start).take (stop - start))) :
    linesOf pieces = r.linesIn start stop := by
  rw [linesIn, ← h.items, itemsOf, Block.ofItems_items (linesOf_ne_nil h.obey h.ne_nil)]

/-- Nothing goes wrong when the pieces of a range are pushed onto a list that ends in a leaf if the
edge in front is open. -/
theorem exists_decomposed {t : Rope} (ht : t.Obeys rule) (htarget : AllObey rule target)
    (hle : start ≤ stop) (hstop : stop ≤ t.length) (hopen : left = true → LeafLast target) :
    ∃ result, t.decompose? start stop target left right = some result
      ∧ Decomposed rule t start stop target left right result := by
  have hcut := cut_spec t start stop left right ht (by omega) hle
  have hlines := hcut.toPieces.linesOf_eq
  refine ⟨_, decompose?_eq t start stop target left right ht (by omega) hle hopen, ?_⟩
  cases left with
  | false =>
    refine ⟨allObey_append.mpr ⟨htarget, hcut.obey⟩, ?_, ⟨_, hcut.ne_nil, rfl⟩, fun hright => ?_⟩
    · rw [put, if_neg Bool.false_ne_true, linesOf_append, hlines]
      rfl
    · exact LeafLast.append target (hcut.last ⟨hright, hstop⟩)
  | true =>
    obtain ⟨front, last, lastLength, rfl⟩ := (hopen rfl).exists_concat
    have hne : front ++ [leaf last lastLength] ≠ [] := by simp
    obtain ⟨first, firstLength, hfirst⟩ := hcut.first rfl
    obtain ⟨hwelded, hlast⟩ := weld_spec ⟨htarget, hne, rfl⟩ hcut.toPieces
      ⟨hopen rfl, first, firstLength, hfirst⟩
    refine ⟨hwelded.obey, ?_, ?_, fun hright => hlast (hcut.last ⟨hright, hstop⟩)⟩
    · refine Block.eq_of_items_eq (linesOf_ne_nil hwelded.obey hwelded.ne_nil)
        (Block.glue_ne_nil _ (linesOf_ne_nil htarget hne)) ?_
      rw [← itemsOf, put, if_pos rfl, hwelded.items, if_pos rfl, Block.items_glue, ← hlines,
        ← itemsOf, ← itemsOf, hcut.items]
    · obtain ⟨later, hlater⟩ : ∃ later, t.cut start stop true right
          = leaf first firstLength :: later := List.head?_eq_some_iff.mp hfirst
      have hjoined : joinLeaves last lastLength first firstLength ≠ [] := by
        rw [joinLeaves]
        split <;> simp
      refine ⟨joinLeaves last lastLength first firstLength ++ later, by simp [hjoined], ?_⟩
      rw [put, if_pos rfl, hlater, weld_leaves, if_pos rfl, List.dropLast_concat]

/-- A range that goes from the last line of a leaf into the next leaf, pushed onto a line. -/
theorem exists_decomposed_across_leaves :
    let t := ofChildren [ofBlock (List.replicate 32 "a"), ofBlock ["bc"]] 66
    t.Obeys pairRule ∧ AllObey pairRule [ofBlock ["x"]] ∧ LeafLast [ofBlock ["x"]]
      ∧ ∃ result, t.decompose? 62 65 [ofBlock ["x"]] true true = some result
        ∧ Decomposed pairRule t 62 65 [ofBlock ["x"]] true true result := by
  intro t
  have ht : t.Obeys pairRule := by
    refine obeys_ofChildren ⟨obeys_ofBlock ?_ ?_, obeys_ofBlock ?_ ?_, trivial⟩
      (show 2 ≤ 2 from Nat.le_refl 2) ?_ ?_
    all_goals decide
  have htarget : AllObey pairRule [ofBlock ["x"]] :=
    ⟨obeys_ofBlock (by simp) (by decide), trivial⟩
  have hlast : LeafLast [ofBlock ["x"]] := ⟨_, _, rfl⟩
  exact ⟨ht, htarget, hlast,
    exists_decomposed ht htarget (by decide) (Nat.le_succ 65) fun _ => hlast⟩

/-- The pieces of an edit are pushed onto an empty list: those in front of the range, those of the
text if there is any, and those behind the range. -/
theorem decompose?_spliceParts {r text : Rope} (hr : r.Obeys rule) (ht : text.Obeys rule)
    (hle : start ≤ stop) (hstop : stop ≤ r.length) :
    ((r.decompose? 0 start [] false true).bind fun front =>
        (if text.isEmpty then some front
          else text.decompose? 0 text.length front true true).bind fun inner =>
            r.decompose? stop r.length inner true false)
      = some (spliceParts r start stop text) := by
  obtain ⟨⟨hfront, hback⟩, -⟩ := spliceParts_spec hr ht hle hstop
  rw [decompose?_eq r 0 start [] false true hr (Nat.zero_le _) (Nat.zero_le _) (by simp),
    Option.bind_some, spliceParts]
  cases hempty : text.isEmpty with
  | true =>
    simp only [hempty, if_true] at hback ⊢
    exact decompose?_eq r stop r.length _ true false hr hstop hstop fun _ => hback.1
  | false =>
    simp only [hempty, Bool.false_eq_true, if_false] at hback ⊢
    have hinner := decompose?_eq text 0 text.length (r.cut 0 start false true) true true ht
      (Nat.zero_le _) (Nat.zero_le _) fun _ => (hfront hempty).1
    rw [put, if_neg Bool.false_ne_true, List.nil_append, hinner, Option.bind_some]
    exact decompose?_eq r stop r.length _ true false hr hstop hstop fun _ => hback.1

end Rope

end TextRevision
