import TextRevision.Proofs.Rope.Building

/-!
# Cutting and welding ropes

The pieces that a rope is cut into hold the items of the range, and where an edge has to be welded
there is a leaf. Welding pieces puts their items behind each other. So the pieces of an edit hold
the items in front of the range, the new ones and those behind the range, and every weld joins
leaves.

## Main definitions

- `Rope.Pieces`: pieces that obey a rule and hold some items
- `Rope.LeafFirst`, `Rope.LeafLast`: pieces that can be welded at an edge

## Main statements

- `Rope.cut_spec`, `Rope.weld_spec`, `Rope.spliceParts_spec`
-/

namespace TextRevision.Rope

variable {rule : Rule}

/-- Pieces that obey a rule and hold some items. There is at least one. -/
structure Pieces (rule : Rule) (ps : List Rope) (xs : List Item) : Prop where
  obey : AllObey rule ps
  ne_nil : ps ≠ []
  items : itemsOf ps = xs

/-- The first of some pieces is a leaf. -/
def LeafFirst (ps : List Rope) : Prop :=
  ∃ lines length, ps.head? = some (leaf lines length)

/-- The last of some pieces is a leaf. -/
def LeafLast (ps : List Rope) : Prop :=
  ∃ lines length, ps.getLast? = some (leaf lines length)

theorem Pieces.single {r : Rope} (h : r.Obeys rule) : Pieces rule [r] r.items :=
  ⟨⟨h, trivial⟩, by simp, itemsOf_singleton r⟩

/-- Pieces in front of others, with a break between them. -/
theorem Pieces.append {ps qs : List Rope} {xs ys : List Item} (hp : Pieces rule ps xs)
    (hq : Pieces rule qs ys) : Pieces rule (ps ++ qs) (xs ++ none :: ys) :=
  ⟨allObey_append.mpr ⟨hp.obey, hq.obey⟩, by simp [hp.ne_nil], by
    rw [itemsOf_append hp.obey hq.obey hp.ne_nil hq.ne_nil, hp.items, hq.items]⟩

theorem Pieces.joinedLength_eq {ps : List Rope} {xs : List Item} (h : Pieces rule ps xs) :
    joinedLength ps = xs.length := by
  rw [← length_itemsOf h.obey, h.items]

theorem LeafFirst.append {ps : List Rope} (qs : List Rope) (h : LeafFirst ps) :
    LeafFirst (ps ++ qs) := by
  obtain ⟨lines, length, h⟩ := h
  exact ⟨lines, length, by simp [List.head?_append, h]⟩

theorem LeafLast.append (ps : List Rope) {qs : List Rope} (h : LeafLast qs) :
    LeafLast (ps ++ qs) := by
  obtain ⟨lines, length, h⟩ := h
  exact ⟨lines, length, by simp [List.getLast?_append, h]⟩

/-- What is known of the pieces of a range: they hold its items, and leaves stand at the edges that
have to be welded. -/
structure Cuts (rule : Rule) (ps : List Rope) (xs : List Item) (left right : Prop) : Prop
    extends Pieces rule ps xs where
  first : left → LeafFirst ps
  last : right → LeafLast ps

theorem Cuts.append {ps qs : List Rope} {xs ys : List Item} {left right left' right' : Prop}
    (hp : Cuts rule ps xs left right') (hq : Cuts rule qs ys left' right) :
    Cuts rule (ps ++ qs) (xs ++ none :: ys) left right :=
  ⟨hp.toPieces.append hq.toPieces, fun h => (hp.first h).append qs, fun h => (hq.last h).append ps⟩

theorem Cuts.mono {ps : List Rope} {xs ys : List Item} {left right left' right' : Prop}
    (h : Cuts rule ps xs left right) (hxs : xs = ys) (hl : left' → left) (hr : right' → right) :
    Cuts rule ps ys left' right' :=
  ⟨hxs ▸ h.toPieces, fun h' => h.first (hl h'), fun h' => h.last (hr h')⟩

/-- The pieces that a rope gives to a range, in a list of ropes at place `pos`. -/
def ownPieces (r : Rope) (pos start stop : Nat) (left right : Bool) : List Rope :=
  if start ≤ pos + r.length then
    if start ≤ pos ∧ pos + r.length ≤ stop ∧ !(left && pos ≤ start)
        ∧ !(right && stop ≤ pos + r.length) then [r]
    else r.cut (start - pos) (stop - pos) (left && pos ≤ start) (right && stop ≤ pos + r.length)
  else []

theorem cutAll_of_lt {rs : List Rope} {pos start stop : Nat} {left right : Bool}
    (h : stop < pos) : cutAll rs pos start stop left right = [] := by
  cases rs <;> simp [cutAll, h]

theorem cutAll_cons {r : Rope} {rs : List Rope} {pos start stop : Nat} {left right : Bool}
    (h : pos ≤ stop) :
    cutAll (r :: rs) pos start stop left right
      = ownPieces r pos start stop left right
        ++ cutAll rs (pos + r.length + 1) start stop left right := by
  rw [cutAll, if_neg (Nat.not_lt.mpr h)]
  rfl

theorem ownPieces_of_lt {r : Rope} {pos start stop : Nat} {left right : Bool}
    (h : pos + r.length < start) : ownPieces r pos start stop left right = [] :=
  if_neg (Nat.not_le.mpr h)

theorem joinedLength_cons (r : Rope) {rs : List Rope} (h : rs ≠ []) :
    joinedLength (r :: rs) = r.length + 1 + joinedLength rs := by
  obtain ⟨s, ss, rfl⟩ := List.exists_cons_of_ne_nil h
  simp only [joinedLength, sumBy_cons]
  omega

theorem joinedLength_singleton (r : Rope) : joinedLength [r] = r.length := by
  simp [joinedLength]

/-- A leaf is cut into the leaf of the range. -/
theorem cut_leaf_spec {lines : List String} {length start stop : Nat} {left right : Bool}
    (h : (leaf lines length).Obeys rule) :
    Cuts rule (cut (leaf lines length) start stop left right)
      (((leaf lines length).items.drop start).take (stop - start)) True True := by
  rw [cut]
  split
  · next hwhole =>
    obtain ⟨rfl, hstop⟩ := hwhole
    have hitems := h.length_items
    rw [length_leaf] at hitems
    rw [List.drop_zero, Nat.sub_zero, List.take_of_length_le (by omega)]
    exact ⟨Pieces.single h, fun _ => ⟨_, _, rfl⟩, fun _ => ⟨_, _, rfl⟩⟩
  · refine ⟨⟨⟨⟨Block.extract_ne_nil _ _ _, ?_, ?_⟩, trivial⟩, by simp, ?_⟩,
      fun _ => ⟨_, _, rfl⟩, fun _ => ⟨_, _, rfl⟩⟩
    · exact Nat.le_trans (Block.length_extract_le lines start stop h.1) h.2.1
    · rw [← Block.length_items, Block.items_extract, List.length_take, List.length_drop,
        Block.length_items, ← h.2.2]
      omega
    · simp [items, Rope.lines]

/-- A rope that a range meets gives itself or its pieces. -/
theorem ownPieces_spec {r : Rope} {pos start stop : Nat} (left right : Bool)
    (h : r.Obeys rule) (hmeet : start ≤ pos + r.length)
    (hcut : ∀ left right, Cuts rule (r.cut (start - pos) (stop - pos) left right)
      ((r.items.drop (start - pos)).take (stop - pos - (start - pos)))
      (left = true) (right = true ∧ stop - pos ≤ r.length)) :
    Cuts rule (ownPieces r pos start stop left right)
      ((r.items.drop (start - pos)).take (stop - pos - (start - pos)))
      (left = true ∧ pos ≤ start) (right = true ∧ stop ≤ pos + r.length) := by
  rw [ownPieces, if_pos hmeet]
  split
  · next hwhole =>
    obtain ⟨hs, hstop, hleft, hright⟩ := hwhole
    have hlength := h.length_items
    rw [Nat.sub_eq_zero_of_le hs, List.drop_zero, List.take_of_length_le (by omega)]
    refine ⟨Pieces.single h, fun hl => ?_, fun hr => ?_⟩
    · simp [hl.1, hl.2] at hleft
    · simp [hr.1, hr.2] at hright
  · refine (hcut _ _).mono rfl (fun hl => by simpa using hl) fun hr => ?_
    exact ⟨by simpa using hr, by omega⟩

mutual

/-- The pieces of a range hold its items; at an edge that has to be welded stands a leaf. -/
theorem cut_spec : (r : Rope) → (start stop : Nat) → (left right : Bool) → r.Obeys rule →
    start ≤ r.length → start ≤ stop →
      Cuts rule (r.cut start stop left right) ((r.items.drop start).take (stop - start))
        (left = true) (right = true ∧ stop ≤ r.length)
  | leaf lines length, start, stop, left, right, h, _, _ =>
    (cut_leaf_spec h).mono rfl (fun _ => trivial) fun _ => trivial
  | branch children length lineCount, start, stop, left, right, h, hs, hle => by
    have hlength : length = joinedLength children := by
      rw [← total_linesOf h.1]
      exact h.length_eq
    have hne : children ≠ [] := by
      rintro rfl
      exact h.lines_ne_nil rfl
    have hall := cutAll_spec children 0 start stop left right h.1 hne (Nat.zero_le _) hle
      (by rw [Nat.zero_add, ← hlength]; exact hs)
    rw [cut]
    refine hall.mono rfl (fun hl => ⟨hl, Nat.zero_le _⟩) fun hr => ⟨hr.1, ?_⟩
    rw [Nat.zero_add, ← hlength]
    exact hr.2

theorem cutAll_spec : (rs : List Rope) → (pos start stop : Nat) → (left right : Bool) →
    AllObey rule rs → rs ≠ [] → pos ≤ stop → start ≤ stop → start ≤ pos + joinedLength rs →
      Cuts rule (cutAll rs pos start stop left right)
        (((itemsOf rs).drop (start - pos)).take (stop - pos - (start - pos)))
        (left = true ∧ pos ≤ start) (right = true ∧ stop ≤ pos + joinedLength rs)
  | [], _, _, _, _, _, _, hne, _, _, _ => absurd rfl hne
  | r :: rs, pos, start, stop, left, right, h, _, hpos, hle, hs => by
    have hlength := h.1.length_items
    rw [cutAll_cons hpos]
    by_cases hmeet : start ≤ pos + r.length
    · have hown := ownPieces_spec left right h.1 hmeet fun left right =>
        cut_spec r (start - pos) (stop - pos) left right h.1
          (by omega) (by omega)
      by_cases hnil : rs = []
      · subst hnil
        simpa [cutAll, joinedLength_singleton] using hown
      · rw [itemsOf_cons h.1 h.2 hnil, joinedLength_cons r hnil]
        by_cases hstop : stop ≤ pos + r.length
        · rw [cutAll_of_lt (by omega), List.append_nil, Block.window_front (by omega)]
          exact hown.mono rfl id fun hr => ⟨hr.1, hstop⟩
        · -- The range goes on behind the break.
          have hrest := cutAll_spec rs (pos + r.length + 1) start stop left right
            h.2 hnil (by omega) hle (by omega)
          rw [Block.window_across (by omega) (by omega)]
          refine (hown.append hrest).mono ?_ id fun hr => ⟨hr.1, by omega⟩
          rw [List.take_of_length_le (by rw [List.length_drop]; omega),
            Nat.sub_eq_zero_of_le (show start ≤ pos + r.length + 1 by omega), List.drop_zero,
            hlength]
          congr 3
          omega
    -- The range lies behind the first rope and the break that follows it.
    · have hnil : rs ≠ [] := by
        rintro rfl
        rw [joinedLength_singleton] at hs
        omega
      rw [joinedLength_cons r hnil] at hs ⊢
      have hrest := cutAll_spec rs (pos + r.length + 1) start stop left right
        h.2 hnil (by omega) hle (by omega)
      rw [ownPieces_of_lt (by omega), List.nil_append, itemsOf_cons h.1 h.2 hnil,
        Block.window_back (by omega), hlength]
      refine hrest.mono ?_ (fun hl => ⟨hl.1, by omega⟩) fun hr => ⟨hr.1, by omega⟩
      rw [show start - pos - (r.length + 1) = start - (pos + r.length + 1) by omega,
        show stop - pos - (r.length + 1) = stop - (pos + r.length + 1) by omega]

end

/-- Two leaves that are joined are one leaf or two, with the items of both. -/
theorem joinLeaves_spec {front back : List String} {frontLength backLength : Nat}
    (hf : (leaf front frontLength).Obeys rule) (hb : (leaf back backLength).Obeys rule) :
    Pieces rule (joinLeaves front frontLength back backLength)
        ((leaf front frontLength).items ++ (leaf back backLength).items)
      ∧ LeafLast (joinLeaves front frontLength back backLength) := by
  have hlen := Block.length_glue hf.1 hb.1
  have hne := Block.glue_ne_nil back hf.1
  have hfle := hf.2.1
  have hble := hb.2.1
  rw [joinLeaves]
  split
  · next hle =>
    refine ⟨⟨⟨⟨hne, hle, ?_⟩, trivial⟩, by simp, by simp [items, Rope.lines]⟩, ⟨_, _, rfl⟩⟩
    rw [← Block.length_items, Block.items_glue, List.length_append, Block.length_items,
      Block.length_items, hf.2.2, hb.2.2]
  · next hlt =>
    simp only [leafLimit] at hfle hble hlt
    refine ⟨⟨⟨obeys_ofBlock ?_ ?_, obeys_ofBlock ?_ ?_, trivial⟩, by simp, ?_⟩, ⟨_, _, rfl⟩⟩
    · simp only [ne_eq, List.take_eq_nil_iff, not_or]
      exact ⟨by omega, hne⟩
    · simp only [List.length_take, leafLimit]
      omega
    · simp only [ne_eq, List.drop_eq_nil_iff, Nat.not_le]
      omega
    · simp only [List.length_drop, leafLimit]
      omega
    · simp [itemsOf, linesOf, ofBlock, Rope.lines, items]

theorem weld_cons (piece next : Rope) (rest back : List Rope) :
    weld (piece :: next :: rest) back = piece :: weld (next :: rest) back := by
  cases piece <;> cases back <;> rfl

/-- Welded pieces hold the items of both sides, and end as the back ones do. -/
theorem weld_spec {front back : List Rope} {xs ys : List Item} (hf : Pieces rule front xs)
    (hb : Pieces rule back ys) (hweld : Weldable front back) :
    Pieces rule (weld front back) (xs ++ ys) ∧ (LeafLast back → LeafLast (weld front back)) := by
  -- Welding goes to the last of the front pieces, and only that one changes.
  induction front generalizing xs with
  | nil => exact absurd rfl hf.ne_nil
  | cons piece front ih =>
    obtain ⟨⟨lines, length, hlast⟩, backLines, backLength, hfirst⟩ := hweld
    by_cases hnil : front = []
    · subst hnil
      obtain rfl : piece = leaf lines length := by simpa using hlast
      obtain ⟨later, rfl⟩ : ∃ later, back = leaf backLines backLength :: later := by
        cases back with
        | nil => simp at hfirst
        | cons first later => exact ⟨later, by simpa using hfirst⟩
      obtain ⟨hjoin, hjoinLast⟩ := joinLeaves_spec hf.obey.1 hb.obey.1
      have hxs : (leaf lines length).items = xs := by simpa using hf.items
      rw [weld, ← hxs, ← hb.items]
      by_cases hlater : later = []
      · subst hlater
        simpa using ⟨hjoin, fun _ => hjoinLast⟩
      · rw [itemsOf_cons hb.obey.1 hb.obey.2 hlater, ← List.append_assoc]
        refine ⟨hjoin.append ⟨hb.obey.2, hlater, rfl⟩, fun hl => LeafLast.append _ ?_⟩
        obtain ⟨endLines, endLength, hend⟩ := hl
        exact ⟨endLines, endLength, by rwa [List.getLast?_cons_of_ne_nil hlater] at hend⟩
    · obtain ⟨next, rest, rfl⟩ := List.exists_cons_of_ne_nil hnil
      have hrest : Pieces rule (next :: rest) (itemsOf (next :: rest)) := ⟨hf.obey.2, hnil, rfl⟩
      have hweld' : Weldable (next :: rest) back :=
        ⟨⟨lines, length, by simpa using hlast⟩, backLines, backLength, hfirst⟩
      obtain ⟨hwelded, hend⟩ := ih hrest hweld'
      rw [← hf.items, itemsOf_cons hf.obey.1 hf.obey.2 hnil, List.append_assoc, List.cons_append,
        weld_cons]
      exact ⟨(Pieces.single hf.obey.1).append hwelded, fun hl => LeafLast.append [piece] (hend hl)⟩

/-- Every weld of an edit joins leaves: the one in front of the new text, if there is any, and the
one behind it. -/
def RebuildFits (r : Rope) (start stop : Nat) (text : Rope) : Prop :=
  let front := r.cut 0 start false true
  let inner := text.cut 0 text.length true true
  (text.isEmpty = false → Weldable front inner)
    ∧ Weldable (if text.isEmpty then front else weld front inner) (r.cut stop r.length true false)

/-- The pieces of an edit hold the items in front of the range, the new ones and those behind it. -/
theorem spliceParts_spec {r text : Rope} {start stop : Nat} (hr : r.Obeys rule)
    (ht : text.Obeys rule) (hle : start ≤ stop) (hstop : stop ≤ r.length) :
    RebuildFits r start stop text
      ∧ Pieces rule (spliceParts r start stop text)
          (r.items.take start ++ text.items ++ r.items.drop stop) := by
  have hfront := cut_spec r 0 start false true hr
    (Nat.zero_le _) (Nat.zero_le _)
  have hinner := cut_spec text 0 text.length true true ht
    (Nat.zero_le _) (Nat.zero_le _)
  have hback := cut_spec r stop r.length true false hr
    hstop hstop
  have hrlen := hr.length_items
  have htlen := ht.length_items
  rw [List.drop_zero, Nat.sub_zero] at hfront hinner
  rw [List.take_of_length_le (by omega)] at hinner
  rw [List.take_of_length_le (by rw [List.length_drop]; omega)] at hback
  have hfrontLast := hfront.last ⟨rfl, by omega⟩
  rw [RebuildFits, spliceParts]
  by_cases hempty : text.isEmpty = true
  -- Without a text the front is welded to the back at once.
  · have htext : text.items = [] := by
      apply List.eq_nil_of_length_eq_zero
      rw [htlen]
      simpa [isEmpty] using hempty
    have hweld : Weldable (r.cut 0 start false true) (r.cut stop r.length true false) :=
      ⟨hfrontLast, hback.first rfl⟩
    simp only [hempty, if_true, htext, List.append_nil]
    exact ⟨⟨by simp, hweld⟩, (weld_spec hfront.toPieces hback.toPieces hweld).1⟩
  · have hweld : Weldable (r.cut 0 start false true) (text.cut 0 text.length true true) :=
      ⟨hfrontLast, hinner.first rfl⟩
    obtain ⟨hwelded, hlast⟩ := weld_spec hfront.toPieces hinner.toPieces hweld
    have hweld' : Weldable (weld (r.cut 0 start false true) (text.cut 0 text.length true true))
        (r.cut stop r.length true false) :=
      ⟨hlast (hinner.last ⟨rfl, Nat.le_refl _⟩), hback.first rfl⟩
    simp only [hempty]
    exact ⟨⟨fun _ => hweld, hweld'⟩, (weld_spec hwelded hback.toPieces hweld').1⟩

/-- A rope that is built anew from the pieces of an edit holds the edited items. -/
theorem rebuild_spec (hrule : rule.Builds) {r text : Rope} {start stop : Nat} (hr : r.Obeys rule)
    (ht : text.Obeys rule) (hle : start ≤ stop) (hstop : stop ≤ r.length) :
    (rebuild r start stop text).Obeys rule
      ∧ (rebuild r start stop text).items
        = r.items.take start ++ text.items ++ r.items.drop stop := by
  obtain ⟨-, hparts⟩ := spliceParts_spec hr ht hle hstop
  have hlength : r.length - (stop - start) + text.length
      = joinedLength (spliceParts r start stop text) := by
    rw [hparts.joinedLength_eq, List.length_append, List.length_append, List.length_take,
      List.length_drop, hr.length_items, ht.length_items]
    omega
  rw [rebuild, hlength]
  refine ⟨(ofParts_spec hrule hparts.obey hparts.ne_nil).1, ?_⟩
  rw [items_ofParts hrule hparts.obey hparts.ne_nil, hparts.items]

end TextRevision.Rope
