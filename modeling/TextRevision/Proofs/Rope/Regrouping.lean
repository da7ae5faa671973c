import Mathlib.Logic.Relation
import TextRevision.Proofs.Rope.Gathering

/-!
# The calls of building

Building calls itself for each group of several pieces, so a rope is built by a tree of calls. Each
of them gets well-formed parts, and fewer lines than the one that made it; so the calls come to an
end, and what one call makes of its parts is told for all of them at once. Nothing is asked here of
the number of children: the parts may have a branch with a single child.

## Main definitions

- `Rope.anyRule`: the rule that asks nothing of children
- `Rope.Calls`: the calls that a call makes
- `Rope.Regrouped`: what a call makes of its parts

## Main statements

- `Rope.Calls.spec`: what one call passes on to another
- `Rope.regrouped_ofParts`: what one call makes of its parts
- `Rope.ofParts_regroups`: the same for every call, and that there is an end to the calls
-/

namespace TextRevision.Rope

/-- Nothing is asked of the children of a branch. -/
def anyRule : Rule :=
  fun _ _ => True

theorem Rule.builds_anyRule : anyRule.Builds :=
  fun _ _ _ => trivial

/-- While it builds `parts`, building calls itself for `group`. -/
structure Calls (parts group : List Rope) : Prop where
  many_lines : leafLimit ≤ lineTotal parts
  mem_groups : group ∈ groups parts
  several : 2 ≤ group.length

/-- What is built of parts has their lines and stores what is true. It is a leaf, a piece of the
parts or a new branch, which has two or more children that are not too large. -/
structure Regrouped (parts : List Rope) (r : Rope) : Prop where
  lines : r.lines = linesOf parts
  obeys : r.Obeys anyRule
  node : (∃ lines length, r = leaf lines length)
    ∨ r ∈ breakUpAll (2 * chunkSize (lineTotal parts)) parts
    ∨ r = ofChildren ((groups parts).map built) (joinedLength parts)
        ∧ 2 ≤ (groups parts).length
        ∧ ∀ c ∈ (groups parts).map built, c.lineCount ≤ 2 * max 32 (r.lineCount / 32)

variable {rule : Rule} {parts : List Rope}

/-- Gathering puts pieces together, and merges only leaves. -/
theorem mem_gather {chunk : Nat} {group pieces g : List Rope} {piece : Rope}
    (hg : g ∈ gather chunk group pieces) (hpiece : piece ∈ g) :
    (∃ lines length, piece = leaf lines length) ∨ piece ∈ group ∨ piece ∈ pieces := by
  have hclose {group : List Rope} (hg : g ∈ close group) : piece ∈ group := by
    rwa [eq_reverse_of_mem_close hg, List.mem_reverse] at hpiece
  induction pieces generalizing group with
  | nil => exact Or.inr (Or.inl (hclose hg))
  | cons next pieces ih =>
    rw [gather] at hg
    split at hg
    · rcases List.mem_append.mp hg with hg | hg
      · exact Or.inr (Or.inl (hclose hg))
      · rcases List.mem_cons.mp hg with rfl | hg
        · rw [List.mem_singleton] at hpiece
          simp [hpiece]
        · have := ih hg
          grind
    · split at hg
      · next group' hmerge =>
        obtain ⟨last, lastLength, rest, lines, length, rfl, rfl, rfl⟩ :=
          mergeLeaf?_eq_some hmerge
        have := ih hg
        grind
      · split at hg
        · rcases List.mem_append.mp hg with hg | hg
          · exact Or.inr (Or.inl (hclose hg))
          · have := ih hg
            grind
        · have := ih hg
          grind

/-- A call that is made gets well-formed parts again, and fewer lines. -/
theorem Calls.spec (h : AllObey rule parts) {group : List Rope} (hcall : Calls parts group) :
    group ≠ [] ∧ AllObey rule group ∧ lineTotal group < lineTotal parts := by
  have hclosed := (groups_spec h).1 group hcall.mem_groups
  exact ⟨hclosed.ne_nil, hclosed.obey, hclosed.lineTotal_lt hcall.several⟩

/-- Every call gets well-formed parts. -/
theorem obey_of_calls (hne : parts ≠ []) (h : AllObey rule parts) {call : List Rope}
    (hcalls : Relation.ReflTransGen Calls parts call) : call ≠ [] ∧ AllObey rule call := by
  induction hcalls with
  | refl => exact ⟨hne, h⟩
  | tail _ hcall ih =>
    obtain ⟨hgroup, hobey, -⟩ := hcall.spec ih.2
    exact ⟨hgroup, hobey⟩

/-- There is an end to the calls, since each gets fewer lines. -/
theorem acc_calls (h : AllObey rule parts) : Acc (fun group parts => Calls parts group) parts := by
  induction hn : lineTotal parts using Nat.strongRecOn generalizing parts with
  | ind n ih =>
    subst hn
    refine Acc.intro parts fun group hcall => ?_
    obtain ⟨-, hobey, hlt⟩ := hcall.spec h
    exact ih _ hlt hobey rfl

/-- What a group becomes has its lines. -/
theorem lineCount_built (hrule : rule.Builds) {group : List Rope} (h : AllObey rule group)
    (hne : group ≠ []) : (built group).lineCount = lineTotal group := by
  match group with
  | [] => exact absurd rfl hne
  | [piece] => simp [built]
  | first :: second :: rest =>
    obtain ⟨hobey, hlines⟩ := ofParts_spec hrule h hne
    have hbuilt : built (first :: second :: rest)
        = ofParts (first :: second :: rest) (joinedLength (first :: second :: rest)) := rfl
    rw [hbuilt, hobey.lineCount_eq, hlines, lineTotal_eq h]

/-- If parts of many lines fall into a single group, that is a single piece: several pieces never
hold all the lines. -/
theorem groups_eq_singleton (h : AllObey rule parts) {group : List Rope}
    (hone : groups parts = [group]) : ∃ piece, group = [piece] := by
  obtain ⟨hgroups, hflat⟩ := groups_spec h
  have hclosed := hgroups group (by simp [hone])
  rw [hone, List.flatten_singleton] at hflat
  have htotal : lineTotal group = lineTotal parts := by
    rw [lineTotal_eq hclosed.obey, hflat, lineTotal_eq h]
  match group with
  | [] => exact absurd rfl hclosed.ne_nil
  | [piece] => exact ⟨piece, rfl⟩
  | first :: second :: rest =>
    have := hclosed.lineTotal_lt (by simp)
    omega

theorem regrouped_ofParts (hne : parts ≠ []) (h : AllObey anyRule parts) :
    Regrouped parts (ofParts parts (joinedLength parts)) := by
  obtain ⟨hobey, hlines⟩ := ofParts_spec Rule.builds_anyRule h hne
  obtain ⟨hgroups, hflat⟩ := groups_spec h
  refine ⟨hlines, hobey, ?_⟩
  have hcount : (ofParts parts (joinedLength parts)).lineCount = lineTotal parts := by
    rw [hobey.lineCount_eq, hlines, lineTotal_eq h]
  rw [hcount, ofParts_eq_gathered h, gathered_eq h]
  by_cases hfew : lineTotal parts < leafLimit
  · rw [if_pos hfew]
    refine Or.inl ?_
    split
    · exact ⟨_, _, rfl⟩
    · exact ⟨_, _, rfl⟩
  rw [if_neg hfew]
  match hgs : groups parts with
  | [] =>
    rw [hgs] at hflat
    exact absurd hflat.symm (linesOf_ne_nil h hne)
  | [group] =>
    obtain ⟨piece, rfl⟩ := groups_eq_singleton h hgs
    have hmem : [piece] ∈ gather (chunkSize (lineTotal parts)) []
        (breakUpAll (2 * chunkSize (lineTotal parts)) parts) := by
      rw [← groups, hgs]
      exact List.mem_singleton_self _
    rcases mem_gather hmem (List.mem_singleton_self _) with hleaf | hnil | hpiece
    · exact Or.inl hleaf
    · cases hnil
    · exact Or.inr (Or.inl hpiece)
  | first :: second :: rest =>
    refine Or.inr (Or.inr ⟨rfl, by simp, fun c hc => ?_⟩)
    obtain ⟨group, hgroup, rfl⟩ := List.mem_map.mp hc
    have hclosed := hgroups group (by rw [hgs]; exact hgroup)
    rw [lineCount_built Rule.builds_anyRule hclosed.obey hclosed.ne_nil]
    exact hclosed.lineTotal_le

/-- Building regroups its parts. Its calls come to an end, since each one gets fewer lines than the
call that made it; and every one of them returns what building by gathering returns, a rope with the
lines of its parts, whose stored numbers are right and whose root is in bounds if it is new. The
calls are those that gathering makes: it builds each group by itself. -/
theorem ofParts_regroups (hne : parts ≠ []) (h : AllObey anyRule parts) :
    Acc (fun group parts => Calls parts group) parts
      ∧ ∀ call, Relation.ReflTransGen Calls parts call →
          Regrouped call (ofParts call (joinedLength call))
            ∧ (ofParts call (joinedLength call) =
                if lineTotal call < leafLimit then
                  if joinedLength call = 0 then empty
                  else leaf (linesOf call) (joinedLength call)
                else
                  match gathered call with
                  | [piece] => piece
                  | pieces => ofChildren pieces (joinedLength call))
            ∧ gathered call = (groups call).map built
            ∧ ∀ group, Calls call group → lineTotal group < lineTotal call := by
  refine ⟨acc_calls h, fun call hcalls => ?_⟩
  obtain ⟨hcall, hobey⟩ := obey_of_calls hne h hcalls
  refine ⟨regrouped_ofParts hcall hobey, ofParts_eq_gathered hobey _, gathered_eq hobey, ?_⟩
  intro group hgroup
  exact (hgroup.spec hobey).2.2

/-- Sixty-five full leaves, of 2080 lines in all, are put together with all their lines. -/
theorem ofParts_regroups_sixty_five_leaves :
    let parts := List.replicate 65 (ofBlock (List.replicate 32 ""))
    parts ≠ [] ∧ AllObey anyRule parts
      ∧ Regrouped parts (ofParts parts (joinedLength parts)) := by
  intro parts
  have hleaf : (ofBlock (List.replicate 32 "")).Obeys anyRule :=
    obeys_ofBlock (by simp) (by simp [leafLimit])
  have hobey : AllObey anyRule parts := by
    rw [allObey_iff]
    intro r hr
    rw [List.eq_of_mem_replicate hr]
    exact hleaf
  have hne : parts ≠ [] := List.cons_ne_nil _ _
  exact ⟨hne, hobey, ((ofParts_regroups hne hobey).2 parts .refl).1⟩

end TextRevision.Rope
