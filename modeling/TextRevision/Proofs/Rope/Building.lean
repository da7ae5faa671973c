import TextRevision.Proofs.Rope.Shape

/-!
# Building balanced ropes

Parts that stand under each other are built into a rope with the lines of the parts, which obeys
every rule that holds of two or more children of at most twice the chunk size. While pieces are
gathered, an invariant bounds the open group; it shows that a group of several pieces never holds
all the lines, so that the recursion goes down.

## Main statements

- `Rope.ofParts_spec`: what building makes of parts
- `Rope.ofLines_spec`: what it makes of lines
-/

namespace TextRevision.Rope

variable {rule : Rule}

/-- A rule for new branches: it holds of two or more children, each of them with some lines but at
most twice as many as the chunk size. -/
def Rule.Builds (rule : Rule) : Prop :=
  ∀ children : List Rope, 2 ≤ children.length →
    (∀ r ∈ children, 0 < r.lineCount ∧ r.lineCount ≤ 2 * chunkSize (lineTotal children)) →
    rule children (lineTotal children)

theorem leafLimit_le_chunkSize (lines : Nat) : leafLimit ≤ chunkSize lines :=
  Nat.le_max_left ..

theorem lineCount_le_lineTotal {r : Rope} {rs : List Rope} (h : r ∈ rs) :
    r.lineCount ≤ lineTotal rs := by
  obtain ⟨before, after, rfl⟩ := List.append_of_mem h
  simp only [lineTotal_append, lineTotal_cons]
  omega

/-- Beside a child there is another one with some lines. -/
theorem lineCount_lt_lineTotal {r : Rope} {rs : List Rope} (h : r ∈ rs) (hlen : 2 ≤ rs.length)
    (hpos : ∀ s ∈ rs, 0 < s.lineCount) : r.lineCount < lineTotal rs := by
  obtain ⟨before, after, rfl⟩ := List.append_of_mem h
  simp only [lineTotal_append, lineTotal_cons]
  have hrest : before ++ after ≠ [] := by
    intro hnil
    have := congrArg List.length hnil
    simp only [List.length_append, List.length_cons, List.length_nil] at hlen this
    omega
  -- The lines of one sibling are enough.
  obtain ⟨s, hs⟩ := List.exists_mem_of_ne_nil _ hrest
  have hspos : 0 < s.lineCount := hpos s (by
    rcases List.mem_append.mp hs with hs | hs <;> simp [hs])
  have hle := lineCount_le_lineTotal hs
  rw [lineTotal_append] at hle
  omega

/-- No child of a new branch has more than 64 of 65 parts of the lines: either there are few lines,
and a sibling has at least one of them, or the chunk size is a 32nd of the lines. -/
theorem Rule.builds_shareRule : shareRule.Builds := by
  intro children hlen h
  refine ⟨hlen, ?_⟩
  intro r hr
  have hlt := lineCount_lt_lineTotal hr hlen fun s hs => (h s hs).1
  have hle := (h r hr).2
  simp only [chunkSize, leafLimit] at hle
  omega

mutual

/-- The pieces of a rope have its lines, and none is larger than the limit. -/
theorem breakUp_spec {limit : Nat} (hlimit : leafLimit ≤ limit) :
    (r : Rope) → r.Obeys rule →
      AllObey rule (breakUp limit r) ∧ linesOf (breakUp limit r) = r.lines
        ∧ ∀ p ∈ breakUp limit r, p.lineCount ≤ limit
  | leaf lines length, h => by
    refine ⟨⟨h, trivial⟩, linesOf_singleton _, ?_⟩
    intro p hp
    rw [breakUp, List.mem_singleton] at hp
    subst hp
    exact Nat.le_trans h.2.1 hlimit
  | branch children length lineCount, h => by
    rw [breakUp]
    split
    · exact breakUpAll_spec hlimit children h.1
    · next hle =>
      refine ⟨⟨h, trivial⟩, linesOf_singleton _, ?_⟩
      intro p hp
      rw [List.mem_singleton] at hp
      subst hp
      exact Nat.not_lt.mp hle

theorem breakUpAll_spec {limit : Nat} (hlimit : leafLimit ≤ limit) :
    (rs : List Rope) → AllObey rule rs →
      AllObey rule (breakUpAll limit rs) ∧ linesOf (breakUpAll limit rs) = linesOf rs
        ∧ ∀ p ∈ breakUpAll limit rs, p.lineCount ≤ limit
  | [], _ => ⟨trivial, rfl, by simp [breakUpAll]⟩
  | r :: rs, h => by
    obtain ⟨hr, hrlines, hrle⟩ := breakUp_spec hlimit r h.1
    obtain ⟨hs, hslines, hsle⟩ := breakUpAll_spec hlimit rs h.2
    rw [breakUpAll, allObey_append, linesOf_append, hrlines, hslines]
    refine ⟨⟨hr, hs⟩, rfl, ?_⟩
    intro p hp
    rcases List.mem_append.mp hp with hp | hp
    · exact hrle p hp
    · exact hsle p hp

end

/-- What holds of the open group while pieces are gathered, the newest one first. Pieces are put
behind others only if the chunk size is larger than a leaf, and only a leaf that grew by merging
can take the group beyond the chunk size. -/
def OpenGroup (chunk : Nat) : List Rope → Prop
  | [] => True
  | last :: rest =>
    last.lineCount ≤ 2 * chunk
      ∧ (rest ≠ [] → leafLimit < chunk ∧ lineTotal rest < chunk
          ∧ (lineTotal (last :: rest) ≤ chunk ∨ last.lineCount ≤ leafLimit))

/-- What holds of a closed group: it is not too large, and with several pieces it is not much larger
than the chunk size. -/
structure ClosedGroup (rule : Rule) (chunk : Nat) (group : List Rope) : Prop where
  ne_nil : group ≠ []
  obey : AllObey rule group
  lineTotal_le : lineTotal group ≤ 2 * chunk
  several : 2 ≤ group.length → leafLimit < chunk ∧ lineTotal group < chunk + leafLimit

theorem ClosedGroup.single {chunk : Nat} {piece : Rope} (h : piece.Obeys rule)
    (hle : piece.lineCount ≤ 2 * chunk) : ClosedGroup rule chunk [piece] :=
  ⟨by simp, ⟨h, trivial⟩, by simpa using hle, by simp⟩

theorem eq_reverse_of_mem_close {group g : List Rope} (h : g ∈ close group) :
    g = group.reverse := by
  cases group with
  | nil => cases h
  | cons last rest => exact List.mem_singleton.mp h

theorem ClosedGroup.of_close {chunk : Nat} {group : List Rope} (h : AllObey rule group)
    (hopen : OpenGroup chunk group) :
    ∀ g ∈ close group, ClosedGroup rule chunk g := by
  cases group with
  | nil => simp [close]
  | cons last rest =>
    intro g hg
    rw [close, List.mem_singleton] at hg
    · subst hg
      refine ⟨by simp, allObey_iff.mpr fun r hr => allObey_iff.mp h r (List.mem_reverse.mp hr),
        ?_, fun hlen => ?_⟩
      · by_cases hrest : rest = []
        · subst hrest
          simpa using hopen.1
        · have := hopen.2 hrest
          simp only [lineTotal_reverse, lineTotal_cons] at this ⊢
          omega
      · have hrest : rest ≠ [] := by
          rintro rfl
          simp at hlen
        have := hopen.2 hrest
        simp only [lineTotal_reverse, lineTotal_cons, leafLimit] at this ⊢
        omega
    · simp

theorem flatten_close (group : List Rope) : (close group).flatten = group.reverse := by
  cases group <;> simp [close]

/-- A leaf is merged into the newest piece, and the group is still fit to be open. -/
theorem mergeLeaf?_spec {chunk : Nat} {group group' : List Rope} {piece : Rope}
    (hchunk : leafLimit ≤ chunk) (h : AllObey rule group) (hopen : OpenGroup chunk group)
    (hp : piece.Obeys rule) (hm : mergeLeaf? group piece = some group') :
    AllObey rule group' ∧ OpenGroup chunk group'
      ∧ linesOf group'.reverse = linesOf group.reverse ++ piece.lines := by
  match group, piece with
  | leaf last lastLength :: rest, leaf lines length =>
    simp only [mergeLeaf?] at hm
    split at hm
    · next hfit =>
      obtain rfl := Option.some.inj hm
      refine ⟨⟨⟨by simp [h.1.1], by simpa [Nat.add_comm] using hfit, ?_⟩, h.2⟩, ⟨?_, ?_⟩, ?_⟩
      · rw [Block.total_append h.1.1 hp.1, h.1.2.2, hp.2.2]
      · simp only [lineCount_leaf, List.length_append]
        omega
      · intro hrest
        have := hopen.2 hrest
        refine ⟨this.1, this.2.1, Or.inr ?_⟩
        simpa [Nat.add_comm] using hfit
      · simp [linesOf_append, Rope.lines]
    · exact absurd hm (by simp)
  | [], _ => simp [mergeLeaf?] at hm
  | branch .. :: _, _ => simp [mergeLeaf?] at hm
  | leaf .. :: _, branch .. => simp [mergeLeaf?] at hm

/-- If a piece is not merged, it has more than a leaf's lines together with the newest one. -/
theorem leafLimit_lt_of_mergeLeaf?_eq_none {last piece : Rope} {rest : List Rope}
    (hl : last.Obeys rule) (hp : piece.Obeys rule) (hm : mergeLeaf? (last :: rest) piece = none) :
    leafLimit < last.lineCount + piece.lineCount := by
  have hlpos := hl.lineCount_pos
  have hppos := hp.lineCount_pos
  match last, piece with
  | leaf last lastLength, leaf lines length =>
    simp only [mergeLeaf?] at hm
    split at hm
    · simp at hm
    · next hfit =>
      simp only [lineCount_leaf]
      omega
  | branch .., _ =>
    have := hl.leafLimit_le
    simp only [lineCount_branch] at hlpos ⊢
    omega
  | _, branch .. =>
    have := hp.leafLimit_le
    simp only [lineCount_branch] at hppos ⊢
    omega

/-- The groups of pieces have the lines of the pieces, and each is as large as it may be. -/
theorem gather_spec {chunk : Nat} (hchunk : leafLimit ≤ chunk) (group pieces : List Rope)
    (hg : AllObey rule group) (hopen : OpenGroup chunk group) (hp : AllObey rule pieces)
    (hle : ∀ p ∈ pieces, p.lineCount ≤ 2 * chunk) :
    (∀ g ∈ gather chunk group pieces, ClosedGroup rule chunk g)
      ∧ linesOf (gather chunk group pieces).flatten
        = linesOf group.reverse ++ linesOf pieces := by
  -- The open group changes from piece to piece; the invariant says what it may be.
  induction pieces generalizing group with
  | nil =>
    refine ⟨ClosedGroup.of_close hg hopen, ?_⟩
    simp [gather, flatten_close, linesOf]
  | cons piece pieces ih =>
    have hpiece := hle piece (by simp)
    have hrest : ∀ p ∈ pieces, p.lineCount ≤ 2 * chunk := fun p hp => hle p (by simp [hp])
    rw [gather]
    split
    · -- The piece stands alone.
      obtain ⟨hgroups, hlines⟩ := ih [] trivial trivial hp.2 hrest
      constructor
      · intro g hmem
        rcases List.mem_append.mp hmem with hmem | hmem
        · exact ClosedGroup.of_close hg hopen g hmem
        · rcases List.mem_cons.mp hmem with rfl | hmem
          · exact ClosedGroup.single hp.1 hpiece
          · exact hgroups g hmem
      · rw [List.flatten_append, List.flatten_cons, linesOf_append, linesOf_append, hlines,
          flatten_close]
        simp [linesOf]
    · next halone =>
      split
      · -- The piece is a leaf that is merged.
        next group' hm =>
        obtain ⟨hg', hopen', hlines'⟩ := mergeLeaf?_spec hchunk hg hopen hp.1 hm
        obtain ⟨hgroups, hlines⟩ := ih group' hg' hopen' hp.2 hrest
        exact ⟨hgroups, by rw [hlines, hlines', linesOf, List.append_assoc]⟩
      · next hm =>
        split
        · -- The group is full.
          obtain ⟨hgroups, hlines⟩ := ih [piece] ⟨hp.1, trivial⟩ ⟨hpiece, by simp⟩ hp.2 hrest
          constructor
          · intro g hmem
            rcases List.mem_append.mp hmem with hmem | hmem
            · exact ClosedGroup.of_close hg hopen g hmem
            · exact hgroups g hmem
          · rw [List.flatten_append, linesOf_append, hlines, flatten_close]
            simp [linesOf]
        · next hfull =>
          -- The piece joins the group. It was not merged, so that it and the newest piece have more
          -- lines than a leaf, and the chunk size is larger than a leaf.
          have hopen' : OpenGroup chunk (piece :: group) := by
            refine ⟨hpiece, ?_⟩
            intro hne
            obtain ⟨last, rest, rfl⟩ := List.exists_cons_of_ne_nil hne
            have hlarge := leafLimit_lt_of_mergeLeaf?_eq_none hg.1 hp.1 hm
            have hpos := hp.1.lineCount_pos
            simp only [lineTotal_cons] at hfull ⊢
            omega
          obtain ⟨hgroups, hlines⟩ := ih (piece :: group) ⟨hp.1, hg⟩ hopen' hp.2 hrest
          refine ⟨hgroups, ?_⟩
          rw [hlines, List.reverse_cons, linesOf_append, linesOf_singleton, List.append_assoc,
            linesOf]

/-- The groups into which parts fall have the lines of the parts. -/
theorem groups_spec {parts : List Rope} (h : AllObey rule parts) :
    (∀ g ∈ groups parts, ClosedGroup rule (chunkSize (lineTotal parts)) g)
      ∧ linesOf (groups parts).flatten = linesOf parts := by
  have hchunk := leafLimit_le_chunkSize (lineTotal parts)
  obtain ⟨hpieces, hlines, hle⟩ := breakUpAll_spec
    (Nat.le_trans hchunk (Nat.le_mul_of_pos_left _ Nat.two_pos)) parts h
  obtain ⟨hgroups, hflat⟩ := gather_spec hchunk [] _ trivial trivial hpieces hle
  exact ⟨hgroups, by rw [groups, hflat, hlines]; rfl⟩

/-- A group of several pieces does not hold all the lines. -/
theorem ClosedGroup.lineTotal_lt {lines : Nat} {group : List Rope}
    (h : ClosedGroup rule (chunkSize lines) group) (hlen : 2 ≤ group.length) :
    lineTotal group < lines := by
  have := h.several hlen
  simp only [chunkSize, leafLimit] at this
  omega

/-- The rope that a group of a text of `lines` lines becomes. -/
def builtGroup (lines : Nat) : List Rope → Rope
  | [piece] => piece
  | group =>
    if lineTotal group < lines then ofParts group (joinedLength group)
    else ofChildren group (joinedLength group)

theorem ofParts_eq (parts : List Rope) (length : Nat) :
    ofParts parts length =
      if lineTotal parts < leafLimit then
        if length = 0 then empty else leaf (linesOf parts) length
      else
        match (groups parts).map (builtGroup (lineTotal parts)) with
        | [piece] => piece
        | pieces => ofChildren pieces length := by
  rw [ofParts]
  rfl

/-- Groups that become ropes with their lines become parts with the lines of all. -/
theorem allObey_map {gs : List (List Rope)} {f : List Rope → Rope}
    (h : ∀ g ∈ gs, (f g).Obeys rule ∧ (f g).lines = linesOf g) :
    AllObey rule (gs.map f) ∧ linesOf (gs.map f) = linesOf gs.flatten := by
  induction gs with
  | nil => exact ⟨trivial, rfl⟩
  | cons g gs ih =>
    obtain ⟨hobey, hlines⟩ := ih fun g hg => h g (by simp [hg])
    rw [List.map_cons, List.flatten_cons, linesOf, linesOf_append, (h g (by simp)).2, hlines]
    exact ⟨⟨(h g (by simp)).1, hobey⟩, rfl⟩

/-- A few lines make a leaf. -/
theorem ofParts_spec_of_lt {parts : List Rope} (h : AllObey rule parts) (hne : parts ≠ [])
    (hfew : lineTotal parts < leafLimit) :
    (ofParts parts (joinedLength parts)).Obeys rule
      ∧ (ofParts parts (joinedLength parts)).lines = linesOf parts := by
  have hlines := linesOf_ne_nil h hne
  have htotal := total_linesOf h
  rw [ofParts_eq, if_pos hfew]
  split
  · next hzero =>
    rw [hzero] at htotal
    refine ⟨obeys_empty, Block.eq_of_items_eq (by simp [empty, lines]) hlines ?_⟩
    rw [List.eq_nil_of_length_eq_zero ((Block.length_items _).trans htotal)]
    rfl
  · rw [lineTotal_eq h] at hfew
    exact ⟨⟨hlines, Nat.le_of_lt hfew, htotal.symm⟩, rfl⟩

/-- Pieces of many lines are one rope, or the children of a new branch. -/
theorem ofChildren_spec (hrule : rule.Builds) {pieces : List Rope} {length : Nat}
    (h : AllObey rule pieces) (hmany : leafLimit ≤ lineTotal pieces)
    (hle : ∀ p ∈ pieces, p.lineCount ≤ 2 * chunkSize (lineTotal pieces))
    (hlength : length = joinedLength pieces) :
    (match pieces with
      | [piece] => piece
      | pieces => ofChildren pieces length).Obeys rule
      ∧ (match pieces with
          | [piece] => piece
          | pieces => ofChildren pieces length).lines = linesOf pieces := by
  match pieces with
  | [] => simp [leafLimit] at hmany
  | [piece] => exact ⟨h.1, (linesOf_singleton _).symm⟩
  | first :: second :: rest =>
    refine ⟨obeys_ofChildren h (hrule _ (by simp) fun p hp => ⟨?_, hle p hp⟩) hmany hlength,
      lines_ofChildren ..⟩
    exact (allObey_iff.mp h p hp).lineCount_pos

/-- Parts are built into a rope with their lines, and the rope obeys the rule. -/
theorem ofParts_spec (hrule : rule.Builds) {parts : List Rope} (h : AllObey rule parts)
    (hne : parts ≠ []) :
    (ofParts parts (joinedLength parts)).Obeys rule
      ∧ (ofParts parts (joinedLength parts)).lines = linesOf parts := by
  -- The groups that are built themselves have fewer lines.
  induction hn : lineTotal parts using Nat.strongRecOn generalizing parts with
  | ind n ih =>
    subst hn
    by_cases hfew : lineTotal parts < leafLimit
    · exact ofParts_spec_of_lt h hne hfew
    · obtain ⟨hgroups, hflat⟩ := groups_spec h
      have hbuilt : ∀ g ∈ groups parts, (builtGroup (lineTotal parts) g).Obeys rule
          ∧ (builtGroup (lineTotal parts) g).lines = linesOf g := by
        intro g hg
        have hclosed := hgroups g hg
        match g with
        | [] => exact absurd rfl hclosed.ne_nil
        | [piece] => exact ⟨hclosed.obey.1, (linesOf_singleton _).symm⟩
        | first :: second :: rest =>
          have hlt := hclosed.lineTotal_lt (by simp)
          rw [builtGroup, if_pos hlt]
          · exact ih _ hlt hclosed.obey hclosed.ne_nil rfl
          · simp
      obtain ⟨hobey, hlines⟩ := allObey_map hbuilt
      rw [hflat] at hlines
      -- The bound on the children is told by all the lines, and the built groups have as many as
      -- the parts.
      have hcount : lineTotal ((groups parts).map (builtGroup (lineTotal parts)))
          = lineTotal parts := by
        rw [lineTotal_eq hobey, hlines, lineTotal_eq h]
      rw [ofParts_eq, if_neg hfew, ← hlines]
      refine ofChildren_spec hrule hobey (by omega) (fun p hp => ?_) ?_
      · obtain ⟨g, hg, rfl⟩ := List.mem_map.mp hp
        rw [(hbuilt g hg).1.lineCount_eq, (hbuilt g hg).2, ← lineTotal_eq (hgroups g hg).obey,
          hcount]
        exact (hgroups g hg).lineTotal_le
      · rw [← total_linesOf hobey, hlines, total_linesOf h]

/-- Building keeps the items. -/
theorem items_ofParts (hrule : rule.Builds) {parts : List Rope} (h : AllObey rule parts)
    (hne : parts ≠ []) : (ofParts parts (joinedLength parts)).items = itemsOf parts := by
  rw [items, (ofParts_spec hrule h hne).2, itemsOf]

/-- Lines cut into leaves are still the same lines. -/
theorem leaves_spec (rule : Rule) (block : List String) :
    AllObey rule (leaves block) ∧ linesOf (leaves block) = block := by
  induction hn : block.length using Nat.strongRecOn generalizing block with
  | ind n ih =>
    subst hn
    cases block with
    | nil => simp [leaves, AllObey, linesOf]
    | cons line block =>
      have hlt : ((line :: block).drop leafLimit).length < (line :: block).length := by
        simp only [List.length_drop, List.length_cons, leafLimit]
        omega
      obtain ⟨hobey, hlines⟩ := ih _ hlt _ rfl
      rw [leaves, AllObey, linesOf, hlines]
      refine ⟨⟨obeys_ofBlock ?_ (List.length_take_le _ _), hobey⟩, List.take_append_drop _ _⟩
      simp [leafLimit]

theorem leaves_ne_nil {block : List String} (h : block ≠ []) : leaves block ≠ [] := by
  obtain ⟨line, rest, rfl⟩ := List.exists_cons_of_ne_nil h
  simp [leaves]

/-- Leaves are built into a rope with their lines. -/
theorem ofParts_leaves_spec (hrule : rule.Builds) {block : List String} (h : block ≠ []) :
    (ofParts (leaves block) (Line.total block)).Obeys rule
      ∧ (ofParts (leaves block) (Line.total block)).lines = block := by
  obtain ⟨hobey, hlines⟩ := leaves_spec rule block
  have hspec := ofParts_spec hrule hobey (leaves_ne_nil h)
  rwa [← total_linesOf hobey, hlines] at hspec

/-- The rope of some lines has these lines. -/
theorem ofLines_spec (hrule : rule.Builds) {block : List String} (h : block ≠ []) :
    (ofLines block).Obeys rule ∧ (ofLines block).lines = block := by
  rw [ofLines]
  split
  · next hempty =>
    subst hempty
    exact ⟨obeys_empty, rfl⟩
  · split
    · next hle => exact ⟨obeys_ofBlock h hle, rfl⟩
    · exact ofParts_leaves_spec hrule h

end TextRevision.Rope
