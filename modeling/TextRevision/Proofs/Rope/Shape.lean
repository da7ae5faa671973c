import TextRevision.Proofs.Content
import TextRevision.Rope.Splice

/-!
# The shape of ropes

A rope obeys a rule if every leaf holds 1 to 32 lines, every branch at least 32 lines, every node
stores its true length and its true number of lines, and the children of every branch are as the
rule asks. What is proved of building and editing holds for every rule that these operations keep.

## Main definitions

- `Rope.Rule`, `Rope.Obeys`: what the children of a branch are held to
- `Rope.pairRule`: a branch has at least two children
- `Rope.shareRule`: moreover no child has more than 64 of 65 parts of the lines
- `Rope.items`: the items of a document
-/

namespace TextRevision.Rope

/-- A condition on the children of a branch and its number of lines. -/
abbrev Rule := List Rope → (lineCount : Nat) → Prop

mutual

/-- The stored numbers of a rope are right, no node is too small or too large, and the children of
every branch are as the rule asks. -/
def Obeys (rule : Rule) : Rope → Prop
  | leaf lines length => lines ≠ [] ∧ lines.length ≤ leafLimit ∧ length = Line.total lines
  | branch children length lineCount =>
    AllObey rule children ∧ rule children lineCount ∧ leafLimit ≤ lineCount
      ∧ length = Line.total (linesOf children) ∧ lineCount = (linesOf children).length

/-- Each of several ropes obeys a rule. -/
def AllObey (rule : Rule) : List Rope → Prop
  | [] => True
  | r :: rs => r.Obeys rule ∧ AllObey rule rs

end

/-- A branch has at least two children. -/
def pairRule : Rule :=
  fun children _ => 2 ≤ children.length

/-- A branch has at least two children, none of which has more than 64 of 65 parts of its lines. -/
def shareRule : Rule :=
  fun children lineCount =>
    2 ≤ children.length ∧ ∀ r ∈ children, 65 * r.lineCount ≤ 64 * lineCount

/-- The items of a document. -/
def items (r : Rope) : List Item :=
  Block.items r.lines

/-- The items of ropes that stand under each other. -/
def itemsOf (rs : List Rope) : List Item :=
  Block.items (linesOf rs)

variable {rule : Rule} {r s : Rope} {rs ss : List Rope}

theorem allObey_iff : AllObey rule rs ↔ ∀ r ∈ rs, r.Obeys rule := by
  induction rs with
  | nil => simp [AllObey]
  | cons r rs ih => simp [AllObey, ih]

@[simp] theorem allObey_append :
    AllObey rule (rs ++ ss) ↔ AllObey rule rs ∧ AllObey rule ss := by
  simp [allObey_iff, or_imp, forall_and]

theorem linesOf_append (rs ss : List Rope) : linesOf (rs ++ ss) = linesOf rs ++ linesOf ss := by
  simp [linesOf_eq_flatMap]

@[simp] theorem linesOf_singleton (r : Rope) : linesOf [r] = r.lines := by
  simp [linesOf]

@[simp] theorem itemsOf_singleton (r : Rope) : itemsOf [r] = r.items := by
  simp [itemsOf, items]

@[simp] theorem lineTotal_nil : lineTotal [] = 0 := rfl

@[simp] theorem lineTotal_cons (r : Rope) (rs : List Rope) :
    lineTotal (r :: rs) = r.lineCount + lineTotal rs := by
  simp [lineTotal]

@[simp] theorem lineTotal_append (rs ss : List Rope) :
    lineTotal (rs ++ ss) = lineTotal rs + lineTotal ss := by
  simp [lineTotal]

@[simp] theorem lineTotal_reverse (rs : List Rope) : lineTotal rs.reverse = lineTotal rs := by
  simp [lineTotal]

theorem Obeys.lineCount_eq (h : r.Obeys rule) : r.lineCount = r.lines.length := by
  cases r with
  | leaf lines length => rfl
  | branch children length lineCount => exact h.2.2.2.2

theorem Obeys.length_eq (h : r.Obeys rule) : r.length = Line.total r.lines := by
  cases r with
  | leaf lines length => exact h.2.2
  | branch children length lineCount => exact h.2.2.2.1

/-- The stored length counts the items. -/
theorem Obeys.length_items (h : r.Obeys rule) : r.items.length = r.length := by
  rw [items, Block.length_items, h.length_eq]

theorem Obeys.lines_ne_nil (h : r.Obeys rule) : r.lines ≠ [] := by
  cases r with
  | leaf lines length => exact h.1
  | branch children length lineCount =>
    obtain ⟨-, -, hmin, -, hcount⟩ := h
    intro hnil
    rw [lines] at hnil
    rw [hnil, List.length_nil] at hcount
    simp [hcount, leafLimit] at hmin

theorem Obeys.lineCount_pos (h : r.Obeys rule) : 0 < r.lineCount := by
  rw [h.lineCount_eq]
  exact List.length_pos_iff.mpr h.lines_ne_nil

/-- A branch has at least 32 lines. -/
theorem Obeys.leafLimit_le {children : List Rope} {length lineCount : Nat}
    (h : (branch children length lineCount).Obeys rule) : leafLimit ≤ lineCount :=
  h.2.2.1

theorem linesOf_ne_nil (h : AllObey rule rs) (hne : rs ≠ []) : linesOf rs ≠ [] := by
  cases rs with
  | nil => exact absurd rfl hne
  | cons r rs => simp [linesOf, h.1.lines_ne_nil]

theorem lineTotal_eq (h : AllObey rule rs) : lineTotal rs = (linesOf rs).length := by
  induction rs with
  | nil => rfl
  | cons r rs ih =>
    rw [lineTotal_cons, ih h.2, linesOf, List.length_append, h.1.lineCount_eq]

theorem itemsOf_append (hr : AllObey rule rs) (hs : AllObey rule ss) (hrs : rs ≠ [])
    (hss : ss ≠ []) : itemsOf (rs ++ ss) = itemsOf rs ++ none :: itemsOf ss := by
  rw [itemsOf, linesOf_append, Block.items_append (linesOf_ne_nil hr hrs) (linesOf_ne_nil hs hss)]
  rfl

theorem itemsOf_cons (hr : r.Obeys rule) (hs : AllObey rule rs) (hrs : rs ≠ []) :
    itemsOf (r :: rs) = r.items ++ none :: itemsOf rs := by
  have hone : AllObey rule [r] := ⟨hr, trivial⟩
  simpa using itemsOf_append hone hs (by simp) hrs

/-- The length of ropes that stand under each other counts their items. -/
theorem length_itemsOf (h : AllObey rule rs) : (itemsOf rs).length = joinedLength rs := by
  induction rs with
  | nil => rfl
  | cons r rs ih =>
    -- Only in front of further ropes does a break follow.
    by_cases hrs : rs = []
    · subst hrs
      simp [joinedLength, h.1.length_items]
    · obtain ⟨next, rest, rfl⟩ := List.exists_cons_of_ne_nil hrs
      rw [itemsOf_cons h.1 h.2 hrs, List.length_append, List.length_cons, ih h.2,
        h.1.length_items]
      simp only [joinedLength, sumBy_cons]
      omega

theorem total_linesOf (h : AllObey rule rs) : Line.total (linesOf rs) = joinedLength rs := by
  rw [← Block.length_items, ← length_itemsOf h, itemsOf]

/-- Ropes of the same items have the same lines. -/
theorem lines_eq_of_items {rule' : Rule} (hr : r.Obeys rule) (hs : s.Obeys rule')
    (h : r.items = s.items) : r.lines = s.lines :=
  Block.eq_of_items_eq hr.lines_ne_nil hs.lines_ne_nil h

/-- The lines of a document can be read off its items. -/
theorem Obeys.ofItems_items (h : r.Obeys rule) : Block.ofItems r.items = r.lines :=
  Block.ofItems_items h.lines_ne_nil

theorem obeys_ofBlock {lines : List String} (hne : lines ≠ []) (hle : lines.length ≤ leafLimit) :
    (ofBlock lines).Obeys rule :=
  ⟨hne, hle, rfl⟩

theorem obeys_empty : empty.Obeys rule :=
  obeys_ofBlock (show [""] ≠ [] by simp) (by decide)

@[simp] theorem items_empty : empty.items = [] := rfl

@[simp] theorem lines_ofChildren (children : List Rope) (length : Nat) :
    (ofChildren children length).lines = linesOf children := by
  simp [ofChildren, lines]

theorem obeys_ofChildren {children : List Rope} {length : Nat} (h : AllObey rule children)
    (hrule : rule children (lineTotal children)) (hmin : leafLimit ≤ lineTotal children)
    (hlength : length = joinedLength children) : (ofChildren children length).Obeys rule :=
  ⟨h, hrule, hmin, by rw [hlength, total_linesOf h], lineTotal_eq h⟩

end TextRevision.Rope
