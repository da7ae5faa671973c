import TextRevision.Proofs.Rope.Building

/-!
# Gathering with running counts

Parts can be gathered one after the other, a rope that is too large being taken apart on the way.
The open group then has two running counts, of its lines and of its characters, which are all that
is looked at when the next piece comes, and all that is handed on when the group is closed. They are
those of the group at every moment, whether a piece was put to the group or merged into its newest
one. So the ropes that are built are those of `groups`, and building calls itself for every group of
several pieces.

## Main definitions

- `Rope.Gathering`: the ropes built so far, the open group and its counts
- `Rope.Gathering.take`, `Rope.Gathering.add`: one piece, and one part
- `Rope.Gathering.Counted`: the counts are those of the open group

## Main statements

- `Rope.Gathering.Counted.take`: one piece
- `Rope.Gathering.Counted.built_foldl_take`: any number of pieces
- `Rope.ofParts_eq_gathered`: building is gathering
-/

namespace TextRevision.Rope

/-- The rope that a group becomes: a single piece is taken as it is. -/
def built : List Rope → Rope
  | [piece] => piece
  | group => ofParts group (joinedLength group)

/-- A leaf is merged only into another one that has room for its lines. -/
theorem mergeLeaf?_eq_some {group group' : List Rope} {piece : Rope}
    (h : mergeLeaf? group piece = some group') :
    ∃ last lastLength rest lines length, group = leaf last lastLength :: rest
      ∧ piece = leaf lines length
      ∧ group' = leaf (last ++ lines) (lastLength + 1 + length) :: rest := by
  match group, piece with
  | leaf last lastLength :: rest, leaf lines length =>
    rw [mergeLeaf?] at h
    split at h
    · exact ⟨last, lastLength, rest, lines, length, rfl, rfl, (Option.some.inj h).symm⟩
    · cases h
  | [], _ => simp [mergeLeaf?] at h
  | branch .. :: _, _ => simp [mergeLeaf?] at h
  | leaf .. :: _, branch .. => simp [mergeLeaf?] at h

/-- Parts that are being gathered. -/
structure Gathering where
  /-- The ropes built so far, newest first. -/
  built : List Rope
  /-- The open group, newest piece first. -/
  group : List Rope
  /-- The number of lines of the open group. -/
  lineCount : Nat
  /-- The number of characters of the open group, one more for each of its pieces. -/
  length : Nat

namespace Gathering

def start : Gathering :=
  ⟨[], [], 0, 0⟩

/-- The open group is closed and built. -/
def flush (s : Gathering) : Gathering :=
  if s.lineCount = 0 then s
  else
    let rope :=
      match s.group with
      | [piece] => piece
      | group => ofParts group.reverse (s.length - 1)
    ⟨rope :: s.built, [], 0, 0⟩

/-- The open group with a piece more, however it took it in. -/
def grow (s : Gathering) (group : List Rope) (piece : Rope) : Gathering :=
  ⟨s.built, group, s.lineCount + piece.lineCount, s.length + (piece.length + 1)⟩

/-- The next piece stands alone, is merged, opens a group or is put to the one that is open. -/
def take (chunk : Nat) (s : Gathering) (piece : Rope) : Gathering :=
  if chunk / 2 < piece.lineCount ∧ (chunk / 2 < s.lineCount ∨ s.lineCount = 0) then
    { s.flush with built := piece :: s.flush.built }
  else
    match mergeLeaf? s.group piece with
    | some group => s.grow group piece
    | none =>
      let s := if chunk < s.lineCount + piece.lineCount then s.flush else s
      s.grow (piece :: s.group) piece

mutual

/-- A part is taken, or its children are if it is too large. -/
def add (chunk : Nat) : Rope → Gathering → Gathering
  | leaf lines length, s => s.take chunk (leaf lines length)
  | branch children length lineCount, s =>
    if 2 * chunk < lineCount then addAll chunk children s
    else s.take chunk (branch children length lineCount)

def addAll (chunk : Nat) : List Rope → Gathering → Gathering
  | [], s => s
  | r :: rs, s => addAll chunk rs (add chunk r s)

end

/-- The counts of the open group are right, and none of its pieces is without lines. -/
structure Counted (s : Gathering) : Prop where
  some_line : ∀ r ∈ s.group, 0 < r.lineCount
  lineCount : s.lineCount = lineTotal s.group
  length : s.length = sumBy (fun r => r.length + 1) s.group

variable {chunk : Nat} {s : Gathering} {piece : Rope}

theorem counted_of_nil (built : List Rope) : Counted ⟨built, [], 0, 0⟩ :=
  ⟨by simp, rfl, rfl⟩

/-- An open group that has a piece more, by whatever name, is counted if the piece is. -/
theorem Counted.grow (h : s.Counted) {group : List Rope} (hpos : ∀ r ∈ group, 0 < r.lineCount)
    (hlines : lineTotal group = lineTotal s.group + piece.lineCount)
    (hlength : sumBy (fun r => r.length + 1) group
      = sumBy (fun r => r.length + 1) s.group + (piece.length + 1)) :
    (s.grow group piece).Counted where
  some_line := hpos
  lineCount := by
    rw [Gathering.grow, h.lineCount, hlines]
  length := by
    rw [Gathering.grow, h.length, hlength]

theorem Counted.put (h : s.Counted) (hpos : 0 < piece.lineCount) :
    (s.grow (piece :: s.group) piece).Counted :=
  h.grow (List.forall_mem_cons.mpr ⟨hpos, h.some_line⟩)
    (by rw [lineTotal_cons, Nat.add_comm]) (by rw [sumBy_cons, Nat.add_comm])

/-- Closing a group builds it from what its counts tell, and opens the next one. -/
theorem Counted.flush (h : s.Counted) :
    s.flush.built.reverse = s.built.reverse ++ (close s.group).map Rope.built
      ∧ s.flush.group = [] ∧ s.flush.Counted := by
  obtain ⟨built, group, lineCount, length⟩ := s
  obtain ⟨hpos, hlines, hlength⟩ := h
  dsimp only at hpos hlines hlength
  subst hlines hlength
  cases group with
  | nil => exact ⟨by simp [Gathering.flush, close], rfl, counted_of_nil built⟩
  | cons last rest =>
    have hsome : lineTotal (last :: rest) ≠ 0 := by
      have := hpos last List.mem_cons_self
      rw [lineTotal_cons]
      omega
    rw [Gathering.flush, if_neg hsome]
    refine ⟨?_, rfl, counted_of_nil _⟩
    cases rest with
    | nil => simp [close, Rope.built]
    | cons next rest =>
      have hlength : sumBy (fun r => r.length + 1) (last :: next :: rest) - 1
          = joinedLength (last :: next :: rest).reverse := by
        rw [joinedLength, sumBy_reverse]
      have hbuilt : Rope.built (last :: next :: rest).reverse
          = ofParts (last :: next :: rest).reverse
              (joinedLength (last :: next :: rest).reverse) := by
        rw [Rope.built]
        intro piece hone
        have := congrArg List.length hone
        simp at this
      have hclose : close (last :: next :: rest) = [(last :: next :: rest).reverse] := rfl
      rw [hclose, List.map_singleton, hbuilt, ← hlength, List.reverse_cons]

/-- The counts keep up with a leaf that is merged. -/
theorem Counted.merge (h : s.Counted) {group : List Rope}
    (hmerge : mergeLeaf? s.group piece = some group) : (s.grow group piece).Counted := by
  obtain ⟨last, lastLength, rest, lines, length, hgroup, rfl, rfl⟩ := mergeLeaf?_eq_some hmerge
  have hpos := h.some_line
  rw [hgroup, List.forall_mem_cons] at hpos
  refine h.grow (List.forall_mem_cons.mpr ⟨?_, hpos.2⟩) ?_ ?_
  · have hlast := hpos.1
    rw [lineCount_leaf] at hlast
    rw [lineCount_leaf, List.length_append]
    omega
  · rw [hgroup]
    simp only [lineTotal_cons, lineCount_leaf, List.length_append]
    omega
  · rw [hgroup]
    simp only [sumBy_cons, length_leaf]
    omega

/-- One piece leaves the counts right, and what is built of it and the pieces behind it does not
depend on when that is done. -/
theorem Counted.take (h : s.Counted) (hpos : 0 < piece.lineCount) :
    (s.take chunk piece).Counted
      ∧ ∀ pieces, (s.take chunk piece).built.reverse
            ++ (gather chunk (s.take chunk piece).group pieces).map Rope.built
          = s.built.reverse ++ (gather chunk s.group (piece :: pieces)).map Rope.built := by
  obtain ⟨hbuilt, hempty, hflush⟩ := h.flush
  rw [Gathering.take, h.lineCount]
  by_cases halone : chunk / 2 < piece.lineCount
      ∧ (chunk / 2 < lineTotal s.group ∨ lineTotal s.group = 0)
  · rw [if_pos halone]
    refine ⟨⟨hflush.some_line, hflush.lineCount, hflush.length⟩, fun pieces => ?_⟩
    rw [gather, if_pos halone]
    dsimp only
    rw [List.reverse_cons, hbuilt, hempty]
    simp [Rope.built]
  · rw [if_neg halone]
    cases hmerge : mergeLeaf? s.group piece with
    | some group =>
      refine ⟨h.merge hmerge, fun pieces => ?_⟩
      rw [gather, if_neg halone, hmerge]
      rfl
    | none =>
      dsimp only
      by_cases hfull : chunk < lineTotal s.group + piece.lineCount
      · rw [if_pos hfull]
        refine ⟨hflush.put hpos, fun pieces => ?_⟩
        rw [gather, if_neg halone, hmerge]
        dsimp only [Gathering.grow]
        rw [if_pos hfull, hbuilt, hempty, List.map_append, List.append_assoc]
      · rw [if_neg hfull]
        refine ⟨h.put hpos, fun pieces => ?_⟩
        rw [gather, if_neg halone, hmerge]
        dsimp only [Gathering.grow]
        rw [if_neg hfull]

/-- Pieces that are taken one after the other are built in the groups that they fall into. -/
theorem Counted.built_foldl_take (h : s.Counted) {pieces : List Rope}
    (hpos : ∀ p ∈ pieces, 0 < p.lineCount) :
    (pieces.foldl (Gathering.take chunk) s).flush.built.reverse
      = s.built.reverse ++ (gather chunk s.group pieces).map Rope.built := by
  induction pieces generalizing s with
  | nil => exact h.flush.1
  | cons piece pieces ih =>
    obtain ⟨hpiece, hrest⟩ := List.forall_mem_cons.mp hpos
    obtain ⟨htaken, hstep⟩ := h.take hpiece
    rw [List.foldl_cons, ih htaken hrest, hstep]

mutual

/-- A part is added by taking the pieces that it is broken up into. -/
theorem add_eq (chunk : Nat) : (r : Rope) → (s : Gathering) →
    add chunk r s = (breakUp (2 * chunk) r).foldl (take chunk) s
  | leaf lines length, s => rfl
  | branch children length lineCount, s => by
    rw [add, breakUp]
    split
    · exact addAll_eq chunk children s
    · rfl

theorem addAll_eq (chunk : Nat) : (rs : List Rope) → (s : Gathering) →
    addAll chunk rs s = (breakUpAll (2 * chunk) rs).foldl (take chunk) s
  | [], s => rfl
  | r :: rs, s => by
    rw [addAll, breakUpAll, List.foldl_append, add_eq chunk r s, addAll_eq chunk rs]

end

end Gathering

variable {rule : Rule} {parts : List Rope}

/-- The ropes that parts are gathered into. -/
def gathered (parts : List Rope) : List Rope :=
  (Gathering.addAll (chunkSize (lineTotal parts)) parts .start).flush.built.reverse

/-- The ropes that parts are gathered into are those of their groups. -/
theorem gathered_eq (h : AllObey rule parts) : gathered parts = (groups parts).map built := by
  have hchunk := leafLimit_le_chunkSize (lineTotal parts)
  obtain ⟨hpieces, -, -⟩ := breakUpAll_spec
    (Nat.le_trans hchunk (Nat.le_mul_of_pos_left _ Nat.two_pos)) parts h
  have hpos : ∀ p ∈ breakUpAll (2 * chunkSize (lineTotal parts)) parts, 0 < p.lineCount :=
    fun p hp => (allObey_iff.mp hpieces p hp).lineCount_pos
  have hstart : Gathering.start.Counted := Gathering.counted_of_nil []
  rw [gathered, Gathering.addAll_eq, hstart.built_foldl_take hpos]
  rfl

/-- Parts of few lines make a leaf. Others are gathered, and a group of several pieces is built as
the parts are. -/
theorem ofParts_eq_gathered (h : AllObey rule parts) (length : Nat) :
    ofParts parts length =
      if lineTotal parts < leafLimit then
        if length = 0 then empty else leaf (linesOf parts) length
      else
        match gathered parts with
        | [piece] => piece
        | pieces => ofChildren pieces length := by
  -- The check in front of the recursion never fails.
  have hbuilt : (groups parts).map (builtGroup (lineTotal parts)) = gathered parts := by
    rw [gathered_eq h]
    refine List.map_congr_left fun g hg => ?_
    have hclosed := (groups_spec h).1 g hg
    match g with
    | [] => exact absurd rfl hclosed.ne_nil
    | [piece] => rfl
    | first :: second :: rest =>
      rw [builtGroup, if_pos (hclosed.lineTotal_lt (by simp)), built]
      · simp
      · simp
  have hparts := ofParts_eq parts length
  rw [hbuilt] at hparts
  exact hparts

end TextRevision.Rope
