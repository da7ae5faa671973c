import TextRevision.Proofs.Rope.Cutting

/-!
# Editing ropes

An edit refines the plain one on items: the items of a range are replaced by those of the new text,
whichever way the rope is taken. The rope that results obeys every rule that building keeps and that
is not hurt when one child is replaced by another of a size within the band; and whenever pieces are
welded on the way, leaves meet.

## Main definitions

- `Rope.SpliceFits`: every weld of an edit joins leaves, at whichever depth it takes place

## Main statements

- `Rope.splice_spec`, `Rope.extract_spec`
-/

namespace TextRevision.Rope

variable {rule : Rule}

/-- A rule that still holds when a child is replaced by one of a size within the band. -/
def Rule.Swaps (rule : Rule) : Prop :=
  ∀ (before after : List Rope) (old new : Rope),
    rule (before ++ old :: after) (lineTotal (before ++ old :: after)) →
    inBand new.lineCount (lineTotal (before ++ new :: after)) = true →
    rule (before ++ new :: after) (lineTotal (before ++ new :: after))

theorem inBand_iff {lines total : Nat} :
    inBand lines total = true ↔ total / 64 < lines ∧ lines < total / 16 := by
  simp [inBand]

/-- A sibling does not have more than 64 of 65 parts of the lines afterwards, since the new child
has more than a 64th of them. -/
theorem Rule.swaps_shareRule : shareRule.Swaps := by
  intro before after old new ⟨hlen, _⟩ hband
  rw [inBand_iff] at hband
  refine ⟨by simpa using hlen, ?_⟩
  intro r hr
  have hsibling : r ∈ before ++ after → 65 * r.lineCount
      ≤ 64 * lineTotal (before ++ new :: after) := by
    intro hmem
    have hle := lineCount_le_lineTotal hmem
    simp only [lineTotal_append, lineTotal_cons] at hle hband ⊢
    omega
  rcases List.mem_append.mp hr with hr | hr
  · exact hsibling (List.mem_append_left _ hr)
  · rcases List.mem_cons.mp hr with rfl | hr
    · omega
    · exact hsibling (List.mem_append_right _ hr)

mutual

/-- Every weld of an edit joins leaves. -/
def SpliceFits : Rope → (start stop : Nat) → (text : Rope) → Prop
  | leaf lines length, start, stop, text =>
    match text with
    | leaf .. => True
    | branch .. =>
      let (start, stop) := clip length start stop
      RebuildFits (leaf lines length) start stop text
  | branch children length lineCount, start, stop, text =>
    let (start, stop) := clip length start stop
    let r := branch children length lineCount
    if text.lineCount < lineCount then
      SpliceInFits children 0 start stop text ∧
        match spliceIn children 0 start stop text with
        | some inner =>
          inBand inner.new.lineCount
              (lineCount - inner.old.lineCount + inner.new.lineCount) = false →
            RebuildFits r inner.start (inner.start + inner.old.length) inner.new
        | none => RebuildFits r start stop text
    else RebuildFits r start stop text

/-- Every weld of the edit in the rope that holds the whole range joins leaves. -/
def SpliceInFits : List Rope → (pos start stop : Nat) → (text : Rope) → Prop
  | [], _, _, _, _ => True
  | r :: rs, pos, start, stop, text =>
    if pos ≤ start ∧ stop ≤ pos + r.length then r.SpliceFits (start - pos) (stop - pos) text
    else SpliceInFits rs (pos + r.length + 1) start stop text

end

/-- The place where a rope starts that stands under others. -/
def placeAfter (before : List Rope) : Nat :=
  sumBy (fun r => r.length + 1) before

/-- What stands around a rope does not depend on it. -/
theorem exists_itemsOf_around {before after : List Rope} (hb : AllObey rule before)
    (ha : AllObey rule after) :
    ∃ front back : List Item, front.length = placeAfter before ∧
      ∀ r : Rope, r.Obeys rule → itemsOf (before ++ r :: after) = front ++ r.items ++ back := by
  -- A break stands on either side only if there are ropes on it.
  obtain ⟨back, hback⟩ : ∃ back : List Item,
      ∀ r : Rope, r.Obeys rule → itemsOf (r :: after) = r.items ++ back := by
    by_cases hnil : after = []
    · subst hnil
      exact ⟨[], fun r _ => by simp⟩
    · exact ⟨none :: itemsOf after, fun r hr => itemsOf_cons hr ha hnil⟩
  by_cases hnil : before = []
  · subst hnil
    exact ⟨[], back, rfl, fun r hr => by simpa using hback r hr⟩
  · refine ⟨itemsOf before ++ [none], back, ?_, fun r hr => ?_⟩
    · obtain ⟨first, rest, rfl⟩ := List.exists_cons_of_ne_nil hnil
      rw [List.length_append, length_itemsOf hb]
      simp only [joinedLength, placeAfter, sumBy_cons, List.length_cons,
        List.length_nil]
      omega
    · rw [itemsOf_append hb (show AllObey rule (r :: after) from ⟨hr, ha⟩) hnil (by simp),
        hback r hr]
      simp

/-- What is known of an edit that one rope of several takes in, from place `pos` on. -/
structure InnerEdit (rule : Rule) (rs : List Rope) (pos start stop : Nat) (text : Rope)
    (inner : Inner) : Prop where
  split : rs = inner.before ++ inner.old :: inner.after
  place : inner.start = pos + placeAfter inner.before
  start_le : inner.start ≤ start
  le_stop : stop ≤ inner.start + inner.old.length
  obey : inner.new.Obeys rule
  items : inner.new.items = inner.old.items.take (start - inner.start) ++ text.items
    ++ inner.old.items.drop (stop - inner.start)

/-- What an edit of a rope comes to. -/
structure Spliced (rule : Rule) (r : Rope) (start stop : Nat) (text new : Rope) : Prop where
  obey : new.Obeys rule
  items : new.items = r.items.take start ++ text.items ++ r.items.drop stop

theorem clip_of_le {length start stop : Nat} (hle : start ≤ stop) (hstop : stop ≤ length) :
    clip length start stop = (start, stop) := by
  simp only [clip]
  congr 1 <;> omega

/-- A leaf that takes a leaf in. -/
theorem splice_leaf_leaf_spec (hrule : rule.Builds) {lines inserted : List String}
    {length insertedLength start stop : Nat} (hr : (leaf lines length).Obeys rule)
    (ht : (leaf inserted insertedLength).Obeys rule) (hle : start ≤ stop) (hstop : stop ≤ length) :
    Spliced rule (leaf lines length) start stop (leaf inserted insertedLength)
      ((leaf lines length).splice start stop (leaf inserted insertedLength)) := by
  have hne : Block.glue (Block.glue (Block.extract lines 0 start) inserted)
      (Block.pieces lines stop (Line.total lines)) ≠ [] :=
    Block.glue_ne_nil _ (Block.glue_ne_nil _ (Block.extract_ne_nil _ _ _))
  have hitems : Block.items (Block.glue (Block.glue (Block.extract lines 0 start) inserted)
      (Block.pieces lines stop (Line.total lines)))
      = (Block.items lines).take start ++ Block.items inserted
        ++ (Block.items lines).drop stop := by
    have hback : ((Block.items lines).drop stop).length ≤ Line.total lines - stop :=
      Nat.le_of_eq (by rw [List.length_drop, Block.length_items])
    rw [Block.items_glue, Block.items_glue, Block.items_extract, Block.items_pieces, List.drop_zero,
      Nat.sub_zero, List.take_of_length_le hback]
  have htotal : length - (stop - start) + insertedLength = Line.total
      (Block.glue (Block.glue (Block.extract lines 0 start) inserted)
        (Block.pieces lines stop (Line.total lines))) := by
    rw [← Block.length_items, hitems, List.length_append, List.length_append, List.length_take,
      List.length_drop, Block.length_items, Block.length_items, ← hr.2.2, ← ht.2.2]
    omega
  rw [splice, clip_of_le hle hstop]
  dsimp only
  split
  · next hfew => exact ⟨⟨hne, hfew, htotal⟩, hitems⟩
  · rw [htotal]
    obtain ⟨hobey, hlines⟩ := ofParts_leaves_spec hrule hne
    exact ⟨hobey, by rw [Rope.items, hlines, hitems]; rfl⟩

/-- The edited items stand where the edited rope stands. -/
theorem InnerEdit.items_around {rs : List Rope} {start stop : Nat} {text : Rope} {inner : Inner}
    (h : InnerEdit rule rs 0 start stop text inner) (hrs : AllObey rule rs) (hle : start ≤ stop) :
    itemsOf (inner.before ++ inner.new :: inner.after)
        = (itemsOf rs).take start ++ text.items ++ (itemsOf rs).drop stop
      ∧ (itemsOf rs).take inner.start ++ inner.new.items
          ++ (itemsOf rs).drop (inner.start + inner.old.length)
        = (itemsOf rs).take start ++ text.items ++ (itemsOf rs).drop stop := by
  have hstart := h.start_le
  have hstop := h.le_stop
  have hsplit := hrs
  rw [h.split, allObey_append] at hsplit
  obtain ⟨hbefore, hold, hafter⟩ := hsplit
  obtain ⟨front, back, hplace, hitems⟩ := exists_itemsOf_around hbefore hafter
  rw [← Nat.zero_add (placeAfter inner.before), ← h.place] at hplace
  -- The range lies in the edited rope: what stands around it is neither taken nor dropped.
  have hlen := hold.length_items
  have hall : itemsOf rs = front ++ (inner.old.items ++ back) := by
    rw [h.split, hitems _ hold, List.append_assoc]
  have htake : (itemsOf rs).take start = front ++ inner.old.items.take (start - inner.start) := by
    rw [hall, List.take_append, List.take_of_length_le (by omega), hplace,
      List.take_append_of_le_length (by omega)]
  have hdrop : (itemsOf rs).drop stop = inner.old.items.drop (stop - inner.start) ++ back := by
    rw [hall, List.drop_append, List.drop_eq_nil_of_le (by omega), List.nil_append, hplace,
      List.drop_append_of_le_length (by omega)]
  constructor
  · rw [hitems _ h.obey, h.items, htake, hdrop]
    simp only [List.append_assoc]
  · rw [htake, hdrop, hall, ← hplace, List.take_left, ← hlen, ← List.length_append,
      ← List.append_assoc, List.drop_left, h.items, hplace]
    simp only [List.append_assoc]

/-- An edit that a child within the band takes in. -/
theorem InnerEdit.ofChildren_spec (hswaps : rule.Swaps) {children : List Rope}
    {length lineCount start stop : Nat} {text : Rope} {inner : Inner}
    (h : InnerEdit rule children 0 start stop text inner)
    (hr : (branch children length lineCount).Obeys rule) (ht : text.Obeys rule)
    (hle : start ≤ stop) (hstop : stop ≤ length)
    (hband : inBand inner.new.lineCount
      (lineCount - inner.old.lineCount + inner.new.lineCount) = true) :
    Spliced rule (branch children length lineCount) start stop text
      (ofChildren (inner.before ++ inner.new :: inner.after)
        (length - (stop - start) + text.length)) := by
  obtain ⟨hitems, -⟩ := h.items_around hr.1 hle
  obtain ⟨hchildren, hchildrenRule, hmin, hlength, hcount⟩ := hr
  rw [← lineTotal_eq hchildren] at hcount
  subst hcount
  have htotal := total_linesOf hchildren
  rw [← hlength, ← length_itemsOf hchildren] at htotal
  rw [h.split] at hchildren hchildrenRule hband
  obtain ⟨hbefore, hold, hafter⟩ := allObey_append.mp hchildren
  have hnew : AllObey rule (inner.before ++ inner.new :: inner.after) :=
    allObey_append.mpr ⟨hbefore, h.obey, hafter⟩
  -- The band is told by the lines of the branch afterwards.
  have hsum : lineTotal (inner.before ++ inner.old :: inner.after) - inner.old.lineCount
      + inner.new.lineCount = lineTotal (inner.before ++ inner.new :: inner.after) := by
    simp only [lineTotal_append, lineTotal_cons]
    omega
  rw [hsum] at hband
  refine ⟨obeys_ofChildren hnew (hswaps _ _ _ _ hchildrenRule hband) ?_ ?_, ?_⟩
  · have := inBand_iff.mp hband
    have := h.obey.lineCount_pos
    simp only [leafLimit]
    omega
  · rw [← length_itemsOf hnew, hitems, List.length_append, List.length_append, List.length_take,
      List.length_drop, ← htotal, ht.length_items]
    omega
  · rw [Rope.items, lines_ofChildren]
    exact hitems

theorem rebuild_spliced (hbuilds : rule.Builds) {r text : Rope} {start stop : Nat}
    (hr : r.Obeys rule) (ht : text.Obeys rule) (hle : start ≤ stop) (hstop : stop ≤ r.length) :
    Spliced rule r start stop text (rebuild r start stop text) :=
  ⟨(rebuild_spec hbuilds hr ht hle hstop).1, (rebuild_spec hbuilds hr ht hle hstop).2⟩

/-- A branch that is built anew around a child that took the edit in. -/
theorem InnerEdit.rebuild_spec (hbuilds : rule.Builds) {children : List Rope}
    {length lineCount start stop : Nat} {text : Rope} {inner : Inner}
    (h : InnerEdit rule children 0 start stop text inner)
    (hr : (branch children length lineCount).Obeys rule) (hle : start ≤ stop) :
    RebuildFits (branch children length lineCount) inner.start
        (inner.start + inner.old.length) inner.new
      ∧ Spliced rule (branch children length lineCount) start stop text
          (rebuild (branch children length lineCount) inner.start
            (inner.start + inner.old.length) inner.new) := by
  have hend : inner.start + inner.old.length ≤ length := by
    have hlength := hr.length_items
    have hsplit := hr.1
    rw [h.split, allObey_append] at hsplit
    obtain ⟨hbefore, hold, hafter⟩ := hsplit
    obtain ⟨front, back, hplace, hitems⟩ := exists_itemsOf_around hbefore hafter
    rw [← Nat.zero_add (placeAfter inner.before), ← h.place] at hplace
    rw [length_branch, Rope.items, Rope.lines, ← itemsOf, h.split, hitems _ hold,
      List.length_append, List.length_append, hold.length_items] at hlength
    omega
  have hfits := spliceParts_spec hr h.obey (Nat.le_add_right ..) hend
  have hrebuilt := Rope.rebuild_spec hbuilds hr h.obey (Nat.le_add_right ..) hend
  refine ⟨hfits.1, hrebuilt.1, hrebuilt.2.trans ?_⟩
  exact (h.items_around hr.1 hle).2

mutual

/-- An edit replaces the items of the range by those of the text, and every weld joins leaves. -/
theorem splice_spec_of_le (hbuilds : rule.Builds) (hswaps : rule.Swaps) :
    (r : Rope) → (start stop : Nat) → (text : Rope) → r.Obeys rule → text.Obeys rule →
      start ≤ stop → stop ≤ r.length →
      Spliced rule r start stop text (r.splice start stop text) ∧ r.SpliceFits start stop text
  | leaf lines length, start, stop, text, hr, ht, hle, hstop => by
    rw [length_leaf] at hstop
    cases text with
    | leaf inserted insertedLength =>
      exact ⟨splice_leaf_leaf_spec hbuilds hr ht hle hstop, by simp [SpliceFits]⟩
    | branch children textLength lineCount =>
      rw [splice, SpliceFits, clip_of_le hle hstop]
      exact ⟨rebuild_spliced hbuilds hr ht hle hstop, (spliceParts_spec hr ht hle hstop).1⟩
  | branch children length lineCount, start, stop, text, hr, ht, hle, hstop => by
    have hanew := rebuild_spliced hbuilds hr ht hle hstop
    have hfits := (spliceParts_spec hr ht hle hstop).1
    rw [length_branch] at hstop
    rw [splice, SpliceFits, clip_of_le hle hstop]
    dsimp only
    split
    -- The text is smaller than the branch, so that a child may take the edit in. Whether it stays
    -- there depends on the size it has then.
    · obtain ⟨hsome, hin⟩ := spliceIn_spec hbuilds hswaps children 0 start stop text hr.1 ht hle
      cases hinner : spliceIn children 0 start stop text with
      | none => exact ⟨hanew, hin, hfits⟩
      | some inner =>
        have hedit := hsome inner hinner
        have hrebuild := hedit.rebuild_spec hbuilds hr hle
        dsimp only
        refine ⟨?_, hin, fun _ => hrebuild.1⟩
        split
        · next hband => exact hedit.ofChildren_spec hswaps hr ht hle hstop hband
        · exact hrebuild.2
    · exact ⟨hanew, hfits⟩

theorem spliceIn_spec (hbuilds : rule.Builds) (hswaps : rule.Swaps) :
    (rs : List Rope) → (pos start stop : Nat) → (text : Rope) → AllObey rule rs →
      text.Obeys rule → start ≤ stop →
      (∀ inner, spliceIn rs pos start stop text = some inner →
        InnerEdit rule rs pos start stop text inner) ∧ SpliceInFits rs pos start stop text
  | [], _, _, _, _, _, _, _ => ⟨by simp [spliceIn], trivial⟩
  | r :: rs, pos, start, stop, text, h, ht, hle => by
    rw [spliceIn, SpliceInFits]
    split
    · next hholds =>
      obtain ⟨hspliced, hfits⟩ := splice_spec_of_le hbuilds hswaps r (start - pos) (stop - pos)
        text h.1 ht (by omega) (by omega)
      refine ⟨fun inner hinner => ?_, hfits⟩
      obtain rfl := Option.some.inj hinner
      exact ⟨rfl, rfl, hholds.1, hholds.2, hspliced.obey, hspliced.items⟩
    · obtain ⟨hsome, hfits⟩ := spliceIn_spec hbuilds hswaps rs (pos + r.length + 1) start stop text
        h.2 ht hle
      refine ⟨fun inner hinner => ?_, hfits⟩
      obtain ⟨deeper, hdeeper, rfl⟩ := Option.map_eq_some_iff.mp hinner
      have hedit := hsome deeper hdeeper
      refine ⟨by rw [List.cons_append, ← hedit.split], ?_, hedit.start_le, hedit.le_stop,
        hedit.obey, hedit.items⟩
      rw [hedit.place, placeAfter, placeAfter, sumBy_cons]
      omega

end

section Range

variable {r text : Rope}

theorem clip_le (length start stop : Nat) :
    (clip length start stop).1 ≤ (clip length start stop).2
      ∧ (clip length start stop).2 ≤ length := by
  simp only [clip]
  omega

theorem clip_clip (length start stop : Nat) :
    clip length (clip length start stop).1 (clip length start stop).2 = clip length start stop :=
  clip_of_le (clip_le length start stop).1 (clip_le length start stop).2

/-- An edit only depends on the range that is left when its ends are clipped and put in order. -/
theorem splice_clip (r : Rope) (start stop : Nat) (text : Rope) :
    r.splice start stop text
        = r.splice (clip r.length start stop).1 (clip r.length start stop).2 text
      ∧ (r.SpliceFits start stop text
        ↔ r.SpliceFits (clip r.length start stop).1 (clip r.length start stop).2 text) := by
  cases r with
  | leaf lines length =>
    cases text with
    | leaf => simp only [splice, SpliceFits, length_leaf, clip_clip, iff_self, and_self]
    | branch => simp only [splice, SpliceFits, length_leaf, clip_clip, iff_self, and_self]
  | branch => simp only [splice, SpliceFits, length_branch, clip_clip, iff_self, and_self]

/-- The items of the range between the clipped ends are replaced, and every weld joins leaves. -/
theorem splice_spec (hbuilds : rule.Builds) (hswaps : rule.Swaps) (hr : r.Obeys rule)
    (ht : text.Obeys rule) (start stop : Nat) :
    Spliced rule r (clip r.length start stop).1 (clip r.length start stop).2 text
        (r.splice start stop text)
      ∧ r.SpliceFits start stop text := by
  obtain ⟨hsplice, hfits⟩ := splice_clip r start stop text
  obtain ⟨hle, hstop⟩ := clip_le r.length start stop
  rw [hsplice, hfits]
  exact splice_spec_of_le hbuilds hswaps r _ _ text hr ht hle hstop

/-- The edited document has the length that the range leaves and that of the text. -/
theorem Spliced.length_eq {start stop : Nat} {new : Rope} (h : Spliced rule r start stop text new)
    (hr : r.Obeys rule) (ht : text.Obeys rule) (hle : start ≤ stop) (hstop : stop ≤ r.length) :
    new.length = r.length - (stop - start) + text.length := by
  rw [← h.obey.length_items, h.items, List.length_append, List.length_append, List.length_take,
    List.length_drop, hr.length_items, ht.length_items]
  omega

/-- Appending puts the items of a document behind those of another. -/
theorem append_spec (hbuilds : rule.Builds) (hswaps : rule.Swaps) (hr : r.Obeys rule)
    (ht : text.Obeys rule) :
    (r.append text).Obeys rule ∧ (r.append text).items = r.items ++ text.items := by
  obtain ⟨hspliced, -⟩ := splice_spec_of_le hbuilds hswaps r r.length r.length text hr ht
    (Nat.le_refl _) (Nat.le_refl _)
  refine ⟨hspliced.obey, hspliced.items.trans ?_⟩
  rw [← hr.length_items, List.take_length, List.drop_length, List.append_nil]

/-- An extract holds the items of the range between the clipped ends. -/
theorem extract_spec (hbuilds : rule.Builds) (hr : r.Obeys rule) (start stop : Nat) :
    (r.extract start stop).Obeys rule
      ∧ (r.extract start stop).items = (r.items.drop (clip r.length start stop).1).take
          ((clip r.length start stop).2 - (clip r.length start stop).1) := by
  obtain ⟨hle, hstop⟩ := clip_le r.length start stop
  rw [extract]
  generalize clip r.length start stop = range at hle hstop ⊢
  obtain ⟨start, stop⟩ := range
  have hcut := cut_spec r start stop false false hr (Nat.le_trans hle hstop) hle
  have hlength : stop - start = joinedLength (r.cut start stop false false) := by
    rw [hcut.joinedLength_eq, List.length_take, List.length_drop, hr.length_items]
    exact (Nat.min_eq_left (Nat.sub_le_sub_right hstop start)).symm
  dsimp only
  rw [← hcut.items, hlength]
  exact ⟨(ofParts_spec hbuilds hcut.obey hcut.ne_nil).1,
    items_ofParts hbuilds hcut.obey hcut.ne_nil⟩

end Range

end TextRevision.Rope
