import TextRevision.Proofs.Reachable
import TextRevision.Proofs.Rope.Splicing

/-!
# Balance and editing of reachable ropes

Every operation keeps the rule that no child of a branch has more than 64 of 65 parts of its lines,
though an edit that one child takes in leaves its siblings where they are: it only does so if the
child is of a size within the band. So the depth of a reachable rope is bounded by the logarithm of
its number of lines, however it was edited, and an edit of a reachable rope refines the edit of its
items.

## Main statements

- `Rope.Reachable.balanced`: the invariant of reachable ropes, and the bound on their depth
- `Rope.Reachable.splice_refines`: what an edit does to the lines
-/

namespace TextRevision.Rope

variable {rule : Rule} {fits : Nat → Prop}

/-- Every operation keeps a rule that building keeps and that holds on when a child is replaced by
one within the band. -/
theorem preserved_obeys (hbuilds : rule.Builds) (hswaps : rule.Swaps) : Preserved (Obeys rule) where
  ofLines _ h := (ofLines_spec hbuilds h).1
  splice _ start stop _ hr ht := (splice_spec hbuilds hswaps hr ht start stop).1.obey
  extract _ start stop hr := (extract_spec hbuilds hr start stop).1
  child r children child hr hchildren hchild := by
    cases r with
    | leaf lines length => cases hchildren
    | branch children' length lineCount =>
      obtain rfl := Option.some.inj hchildren
      exact allObey_iff.mp hr.1 child hchild

theorem preserved_share : Preserved (Obeys shareRule) :=
  preserved_obeys Rule.builds_shareRule Rule.swaps_shareRule

/-- Reachable ropes have no branch with a child of more than 64 of 65 parts of its lines. -/
theorem ReachableBy.obeys {admits : Admission} {r : Rope} (h : ReachableBy fits admits r) :
    r.Obeys shareRule :=
  h.preserved preserved_share

/-- One of several ropes is the deepest. -/
theorem exists_depth_eq {rs : List Rope} (h : rs ≠ []) : ∃ r ∈ rs, r.depth = depthOf rs := by
  induction rs with
  | nil => exact absurd rfl h
  | cons r rs ih =>
    by_cases hrs : depthOf rs ≤ r.depth
    · exact ⟨r, by simp, by rw [depthOf, Nat.max_eq_left hrs]⟩
    · have hne : rs ≠ [] := by
        rintro rfl
        exact hrs (Nat.zero_le _)
      obtain ⟨s, hs, hdepth⟩ := ih hne
      exact ⟨s, by simp [hs], by rw [depthOf, hdepth, Nat.max_eq_right (by omega)]⟩

theorem depth_pos (r : Rope) : 0 < r.depth := by
  cases r with
  | leaf lines length => exact Nat.one_pos
  | branch children length lineCount => exact Nat.succ_pos _

mutual

/-- Each level holds at least a 64th more lines than the deepest child on it. -/
theorem Obeys.pow_depth_le : (r : Rope) → r.Obeys shareRule →
    65 ^ (r.depth - 1) ≤ r.lineCount * 64 ^ (r.depth - 1)
  | leaf lines length, h => by
    have hpos := h.lineCount_pos
    simp only [depth, Nat.sub_self, Nat.pow_zero, Nat.mul_one]
    omega
  | branch children length lineCount, h => by
    have hne : children ≠ [] := by
      rintro rfl
      exact h.lines_ne_nil rfl
    obtain ⟨child, hchild, hdepth⟩ := exists_depth_eq hne
    -- The deepest child has at most 64 of 65 parts of the lines and is one level less deep.
    have hshare := h.2.1.2 child hchild
    have hdeep := allObey_pow_depth_le children h.1 child hchild
    have hpos := child.depth_pos
    rw [depth, Nat.add_sub_cancel, ← hdepth, lineCount_branch]
    obtain ⟨d, hd⟩ : ∃ d, child.depth = d + 1 := ⟨child.depth - 1, by omega⟩
    rw [hd, Nat.add_sub_cancel] at hdeep
    rw [hd]
    calc 65 ^ (d + 1) = 65 ^ d * 65 := Nat.pow_succ ..
      _ ≤ child.lineCount * 64 ^ d * 65 := Nat.mul_le_mul_right 65 hdeep
      _ = 65 * child.lineCount * 64 ^ d := by rw [Nat.mul_right_comm, Nat.mul_comm 65]
      _ ≤ 64 * lineCount * 64 ^ d := Nat.mul_le_mul_right _ hshare
      _ = lineCount * 64 ^ (d + 1) := by rw [Nat.pow_succ, Nat.mul_comm 64, Nat.mul_right_comm,
          Nat.mul_assoc]

theorem allObey_pow_depth_le : (rs : List Rope) → AllObey shareRule rs →
    ∀ r ∈ rs, 65 ^ (r.depth - 1) ≤ r.lineCount * 64 ^ (r.depth - 1)
  | [], _ => by simp
  | r :: rs, h => List.forall_mem_cons.mpr ⟨Obeys.pow_depth_le r h.1, allObey_pow_depth_le rs h.2⟩

end

/-- Every node of a reachable rope stores its true length and its true number of lines, a leaf has 1
to 32 lines, a branch at least 32 lines and two children, and no child more than 64 of 65 parts of
the lines of its branch. So the rope has at least (65/64)ⁿ lines, where n + 1 is its depth. -/
theorem Reachable.balanced {r : Rope} (h : Reachable fits r) :
    r.Obeys shareRule ∧ 65 ^ (r.depth - 1) ≤ r.lines.length * 64 ^ (r.depth - 1) := by
  have hobeys := h.obeys
  refine ⟨hobeys, ?_⟩
  rw [← hobeys.lineCount_eq]
  exact hobeys.pow_depth_le

/-- Forty lines make a branch that is balanced. -/
theorem balanced_forty_lines :
    ofLines? (List.replicate 40 "x") = .ok (ofLines (List.replicate 40 "x"))
      ∧ (ofLines (List.replicate 40 "x")).Obeys shareRule
      ∧ 65 ^ ((ofLines (List.replicate 40 "x")).depth - 1)
        ≤ (ofLines (List.replicate 40 "x")).lines.length
          * 64 ^ ((ofLines (List.replicate 40 "x")).depth - 1) :=
  have hlines : ofLines? (List.replicate 40 "x") = .ok (ofLines (List.replicate 40 "x")) := rfl
  have hreach : Reachable (fun _ => True) (ofLines (List.replicate 40 "x")) := .ofLines hlines
  ⟨hlines, Reachable.balanced hreach⟩

/-- An edit of a reachable rope replaces the items of the range, its ends clipped to the document
and put in order, by those of the text: the lines are those between the breaks of the sequence that
results. The stored length and number of lines are right, and whenever pieces are welded on the way,
leaves meet. -/
theorem Reachable.splice_refines {t s : Rope} (ht : Reachable fits t) (hs : Reachable fits s)
    (start stop : Nat) :
    (t.splice start stop s).lines = Block.ofItems (t.items.take (min (min start stop) t.length)
        ++ s.items ++ t.items.drop (min (max start stop) t.length))
      ∧ (t.splice start stop s).length
        = t.length - (min (max start stop) t.length - min (min start stop) t.length) + s.length
      ∧ (t.splice start stop s).lineCount = (t.splice start stop s).lines.length
      ∧ t.SpliceFits start stop s := by
  have htobeys := ht.obeys
  have hsobeys := hs.obeys
  obtain ⟨hspliced, hfits⟩ :=
    splice_spec Rule.builds_shareRule Rule.swaps_shareRule htobeys hsobeys start stop
  obtain ⟨hle, hstop⟩ := clip_le t.length start stop
  refine ⟨?_, hspliced.length_eq htobeys hsobeys hle hstop, hspliced.obey.lineCount_eq, hfits⟩
  rw [← hspliced.obey.ofItems_items, hspliced.items]
  rfl

/-- Two lines put in place of the three characters in the middle of two others. -/
theorem splice_refines_two_lines :
    ofLines? ["ab", "cd"] = .ok (ofBlock ["ab", "cd"])
      ∧ ofLines? ["x", "y"] = .ok (ofBlock ["x", "y"])
      ∧ ((ofBlock ["ab", "cd"]).splice 4 1 (ofBlock ["x", "y"])).lines = ["ax", "yd"]
      ∧ ((ofBlock ["ab", "cd"]).splice 4 1 (ofBlock ["x", "y"])).length = 5 :=
  have ht : ofLines? ["ab", "cd"] = .ok (ofBlock ["ab", "cd"]) := rfl
  have hs : ofLines? ["x", "y"] = .ok (ofBlock ["x", "y"]) := rfl
  have hreach : Reachable (fun _ => True) (ofBlock ["ab", "cd"]) := .ofLines ht
  have h := Reachable.splice_refines hreach (.ofLines hs) 4 1
  ⟨ht, hs, h.1.trans (by decide), h.2.1⟩

end TextRevision.Rope
