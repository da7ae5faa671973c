import TextRevision.Proofs.Rope.Balance
import TextRevision.Proofs.Rope.Codec

/-!
# The depth of ropes built in bulk

The lines of a new document are cut into leaves of which all but the last are full, so that nothing
is merged when they are gathered. A group of several leaves then has at most a 32nd of the lines,
and since it is built in the same manner, every level of the tree divides the lines by 32. After
edits no more than `Rope.Reachable.balanced` is true.

## Main definitions

- `Rope.Packed`: leaves no two of which could be merged where they meet

## Main statements

- `Rope.Packed.gather_spec`: the groups into which such leaves fall
- `Rope.Packed.pow_depth_le`: the depth of what they are built into
- `Rope.ofLines?_and_ofString_shallow`
-/

namespace TextRevision.Rope

variable {rule : Rule}

/-- Leaves of which no two neighbours have room in one. -/
structure Packed (rs : List Rope) : Prop where
  leaves : ∀ r ∈ rs, ∃ lines length, r = leaf lines length
  full : rs.IsChain fun r s => leafLimit < r.lineCount + s.lineCount

theorem Packed.of_infix {rs ss : List Rope} (h : Packed rs) (hs : ss <:+: rs) : Packed ss :=
  ⟨fun r hr => h.leaves r (hs.subset hr), h.full.infix hs⟩

/-- Several packed leaves have more lines than one leaf. -/
theorem Packed.leafLimit_lt {rs : List Rope} (h : Packed rs) (hlen : 2 ≤ rs.length) :
    leafLimit < lineTotal rs := by
  match rs with
  | first :: second :: rest =>
    have hfull := (List.isChain_cons_cons.mp h.full).1
    simp only [lineTotal_cons]
    omega

/-- Leaves are not broken up. -/
theorem breakUpAll_leaves (limit : Nat) {rs : List Rope}
    (h : ∀ r ∈ rs, ∃ lines length, r = leaf lines length) : breakUpAll limit rs = rs := by
  induction rs with
  | nil => rfl
  | cons r rs ih =>
    obtain ⟨⟨lines, length, rfl⟩, hrs⟩ := List.forall_mem_cons.mp h
    rw [breakUpAll, breakUp, ih hrs, List.singleton_append]

/-- A leaf that comes behind a group of packed leaves is not merged into the newest one. -/
theorem Packed.mergeLeaf?_eq_none {group pieces : List Rope} {piece : Rope}
    (h : Packed (group.reverse ++ piece :: pieces)) : mergeLeaf? group piece = none := by
  match group, piece with
  | leaf last lastLength :: rest, leaf lines length =>
    have hmeet : [leaf last lastLength, leaf lines length]
        <:+: (leaf last lastLength :: rest).reverse ++ leaf lines length :: pieces :=
      ⟨rest.reverse, pieces, by simp⟩
    have hfull := (List.isChain_cons_cons.mp (h.of_infix hmeet).full).1
    simp only [lineCount_leaf] at hfull
    rw [mergeLeaf?, if_neg (by omega)]
  | [], _ => simp [mergeLeaf?]
  | branch .. :: _, _ => simp [mergeLeaf?]
  | leaf .. :: _, branch .. => simp [mergeLeaf?]

/-- Packed leaves fall into groups of neighbours. A group of several leaves does not exceed the
chunk size. -/
theorem Packed.gather_spec (chunk : Nat) {group pieces : List Rope}
    (h : Packed (group.reverse ++ pieces))
    (hopen : 2 ≤ group.length → lineTotal group ≤ chunk) :
    (gather chunk group pieces).flatten = group.reverse ++ pieces
      ∧ ∀ g ∈ gather chunk group pieces, 2 ≤ g.length → lineTotal g ≤ chunk := by
  have hclosed : ∀ g ∈ close group, 2 ≤ g.length → lineTotal g ≤ chunk := by
    intro g hg hlen
    obtain rfl := eq_reverse_of_mem_close hg
    rw [List.length_reverse] at hlen
    rw [lineTotal_reverse]
    exact hopen hlen
  induction pieces generalizing group with
  | nil =>
    rw [Rope.gather, flatten_close, List.append_nil]
    exact ⟨rfl, hclosed⟩
  | cons piece pieces ih =>
    have hrest : Packed ([piece].reverse ++ pieces) := h.of_infix ⟨group.reverse, [], by simp⟩
    rw [Rope.gather]
    split
    · -- The piece stands alone.
      have hbehind : Packed (([] : List Rope).reverse ++ pieces) :=
        hrest.of_infix ⟨[piece], [], by simp⟩
      obtain ⟨hflat, hgroups⟩ := ih hbehind (by simp) (by simp [close])
      constructor
      · rw [List.flatten_append, List.flatten_cons, hflat, flatten_close]
        simp
      · intro g hg hlen
        rcases List.mem_append.mp hg with hg | hg
        · exact hclosed g hg hlen
        · rcases List.mem_cons.mp hg with rfl | hg
          · simp at hlen
          · exact hgroups g hg hlen
    · rw [h.mergeLeaf?_eq_none]
      dsimp only
      split
      · -- The group is full.
        obtain ⟨hflat, hgroups⟩ := ih hrest (by simp) (by simp [close])
        constructor
        · rw [List.flatten_append, hflat, flatten_close]
          simp
        · intro g hg hlen
          rcases List.mem_append.mp hg with hg | hg
          · exact hclosed g hg hlen
          · exact hgroups g hg hlen
      · next hfits =>
        have htotal : lineTotal (piece :: group) ≤ chunk := by
          rw [lineTotal_cons]
          omega
        have hjoined : Packed ((piece :: group).reverse ++ pieces) := by
          rw [List.reverse_cons, List.append_assoc]
          exact h
        obtain ⟨hflat, hgroups⟩ := ih hjoined (fun _ => htotal) (by
          intro g hg _
          rw [eq_reverse_of_mem_close hg, lineTotal_reverse]
          exact htotal)
        rw [List.reverse_cons, List.append_assoc] at hflat
        exact ⟨hflat, hgroups⟩

/-- The groups of packed leaves put behind each other are the leaves, and each group of several has
at most a 32nd of the lines. -/
theorem Packed.groups_spec {parts : List Rope} (h : Packed parts) :
    (groups parts).flatten = parts
      ∧ ∀ g ∈ groups parts, 2 ≤ g.length → 32 * lineTotal g ≤ lineTotal parts := by
  have hstart : Packed (([] : List Rope).reverse ++ parts) := h
  obtain ⟨hflat, hgroups⟩ := hstart.gather_spec (chunkSize (lineTotal parts)) (by simp)
  have hsame : groups parts = gather (chunkSize (lineTotal parts)) [] parts := by
    rw [groups, breakUpAll_leaves _ h.leaves]
  rw [hsame]
  refine ⟨hflat, ?_⟩
  intro g hg hlen
  -- Several leaves have more lines than one, so that the chunk size is more than its least value.
  have hwithin : g <:+: parts := by
    rw [← List.nil_append parts, ← List.reverse_nil, ← hflat]
    exact List.infix_of_mem_flatten hg
  have hmany := (h.of_infix hwithin).leafLimit_lt hlen
  have hle := hgroups g hg hlen
  simp only [chunkSize, leafLimit] at hmany hle
  omega

/-- One level more takes 32 times the lines. -/
theorem pow_depth_le_of_share {r : Rope} {m n : Nat} (h : 32 ^ (r.depth - 1) ≤ m)
    (hshare : 32 * m ≤ n) : 32 ^ r.depth ≤ n := by
  have hpos := depth_pos r
  calc
    32 ^ r.depth = 32 * 32 ^ (r.depth - 1) := by
      rw [← Nat.pow_succ', Nat.succ_eq_add_one, Nat.sub_add_cancel hpos]
    _ ≤ 32 * m := Nat.mul_le_mul_left 32 h
    _ ≤ n := hshare

/-- A branch of ropes with few levels has one level more. -/
theorem pow_depthOf_le {n : Nat} (hn : 0 < n) {rs : List Rope}
    (h : ∀ r ∈ rs, 32 ^ r.depth ≤ n) : 32 ^ depthOf rs ≤ n := by
  induction rs with
  | nil => exact hn
  | cons r rs ih =>
    obtain ⟨hr, hrs⟩ := List.forall_mem_cons.mp h
    rw [depthOf]
    rcases Nat.le_total r.depth (depthOf rs) with hle | hle
    · rw [Nat.max_eq_right hle]
      exact ih hrs
    · rw [Nat.max_eq_left hle]
      exact hr

/-- What packed leaves are built into has a level for each power of 32 that their lines reach, and
not more. -/
theorem Packed.pow_depth_le {parts : List Rope} (h : Packed parts) (hobey : AllObey rule parts)
    (hne : parts ≠ []) (length : Nat) :
    32 ^ ((ofParts parts length).depth - 1) ≤ lineTotal parts := by
  -- The groups that are built themselves have fewer lines.
  induction hn : lineTotal parts using Nat.strongRecOn generalizing parts length with
  | ind n ih =>
    subst hn
    have hpos : 0 < lineTotal parts := by
      rw [lineTotal_eq hobey]
      exact List.length_pos_iff.mpr (linesOf_ne_nil hobey hne)
    rw [ofParts_eq]
    split
    · split
      · exact hpos
      · exact hpos
    · next hmany =>
      obtain ⟨hflat, hsmall⟩ := h.groups_spec
      obtain ⟨hclosed, -⟩ := Rope.groups_spec hobey
      have hbuilt : ∀ r ∈ (groups parts).map (builtGroup (lineTotal parts)),
          32 ^ r.depth ≤ lineTotal parts := by
        intro r hr
        obtain ⟨g, hg, rfl⟩ := List.mem_map.mp hr
        have hwithin : g <:+: parts := hflat ▸ List.infix_of_mem_flatten hg
        match g with
        | [] => exact absurd rfl (hclosed [] hg).ne_nil
        | [piece] =>
          obtain ⟨lines, length, rfl⟩ := h.leaves piece (hwithin.subset List.mem_cons_self)
          exact Nat.not_lt.mp hmany
        | first :: second :: rest =>
          have hgroup := hclosed _ hg
          have hlt := hgroup.lineTotal_lt (by simp)
          have hshare := hsmall _ hg (by simp)
          rw [builtGroup, if_pos hlt]
          · exact pow_depth_le_of_share
              (ih _ hlt (h.of_infix hwithin) hgroup.obey hgroup.ne_nil _ rfl) hshare
          · simp
      generalize (groups parts).map (builtGroup (lineTotal parts)) = pieces at hbuilt
      split
      · next piece =>
        have hpiece := hbuilt piece List.mem_cons_self
        exact (Nat.pow_le_pow_right (by decide) (Nat.sub_le _ 1)).trans hpiece
      · exact pow_depthOf_le hpos hbuilt

/-- Lines are cut into full leaves and a last one. -/
theorem packed_leaves (block : List String) : Packed (leaves block) := by
  induction hn : block.length using Nat.strongRecOn generalizing block with
  | ind n ih =>
    subst hn
    cases block with
    | nil => rw [leaves]; exact ⟨by simp, List.isChain_nil⟩
    | cons line block =>
      have hlt : ((line :: block).drop leafLimit).length < (line :: block).length := by
        simp only [List.length_drop, List.length_cons, leafLimit]
        omega
      obtain ⟨hleaves, hfull⟩ := ih _ hlt _ rfl
      rw [leaves]
      refine ⟨List.forall_mem_cons.mpr ⟨⟨_, _, rfl⟩, hleaves⟩, ?_⟩
      rw [List.isChain_cons]
      refine ⟨?_, hfull⟩
      intro next hnext
      -- There is a next leaf only where the lines are more than this one takes.
      have hbehind : (line :: block).drop leafLimit ≠ [] := by
        intro hnil
        rw [hnil, leaves] at hnext
        cases hnext
      have hlong : leafLimit < (line :: block).length := by
        rw [Ne, List.drop_eq_nil_iff] at hbehind
        omega
      obtain ⟨hobey, -⟩ := leaves_spec pairRule ((line :: block).drop leafLimit)
      have hpos := (allObey_iff.mp hobey next (List.mem_of_mem_head? hnext)).lineCount_pos
      have hcount : (ofBlock ((line :: block).take leafLimit)).lineCount = leafLimit := by
        rw [ofBlock, lineCount_leaf, List.length_take]
        omega
      omega

/-- A document that is made of lines has a level for each power of 32 that these reach, and not
more. -/
theorem pow_depth_ofLines_le {block : List String} (h : block ≠ []) :
    ∃ d, (ofLines block).depth = d + 1 ∧ 32 ^ d ≤ block.length := by
  have hpos : 0 < block.length := List.length_pos_iff.mpr h
  refine ⟨(ofLines block).depth - 1, ?_, ?_⟩
  · have := depth_pos (ofLines block)
    omega
  · rw [ofLines]
    split
    · exact hpos
    · split
      · exact hpos
      · obtain ⟨hobey, hlines⟩ := leaves_spec pairRule block
        have hdeep := (packed_leaves block).pow_depth_le hobey (leaves_ne_nil h) (Line.total block)
        rwa [lineTotal_eq hobey, hlines] at hdeep

/-- Lines without breaks make a document, of which `d` is one less than the number of levels, and it
has at least 32ᵈ lines. So has a document that a string spells, whatever the string is split at. -/
theorem ofLines?_and_ofString_shallow :
    (∀ lines, Writable lines →
        ∃ r d, ofLines? lines = .ok r ∧ r.depth = d + 1 ∧ 32 ^ d ≤ lines.length)
      ∧ ∀ s sep, ∃ d, (ofString s sep).depth = d + 1 ∧ 32 ^ d ≤ (Line.split s sep).length := by
  constructor
  · intro lines hlines
    obtain ⟨d, hdepth, hd⟩ := pow_depth_ofLines_le hlines.some_line
    exact ⟨_, d, hlines.ofLines?_eq, hdepth, hd⟩
  · intro s sep
    exact pow_depth_ofLines_le (Line.split_ne_nil s sep)

/-- Five thousand lines make a document of at most three levels. -/
theorem ofLines?_and_ofString_shallow_five_thousand_lines :
    Writable (List.replicate 5000 "x")
      ∧ ∃ r, ofLines? (List.replicate 5000 "x") = .ok r ∧ r.depth ≤ 3 := by
  have hlines : Writable (List.replicate 5000 "x") :=
    ⟨List.ne_nil_of_length_pos (by rw [List.length_replicate]; decide),
      fun line hline => by rw [List.eq_of_mem_replicate hline]; decide⟩
  obtain ⟨r, d, hr, hdepth, hd⟩ := ofLines?_and_ofString_shallow.1 _ hlines
  rw [List.length_replicate] at hd
  refine ⟨hlines, r, hr, ?_⟩
  by_contra hdeep
  have hpow : 32 ^ 3 ≤ 32 ^ d := Nat.pow_le_pow_right (by decide) (by omega)
  omega

end TextRevision.Rope
