import Mathlib.Data.List.Basic
import TextRevision.Line.Breaks

/-!
# Lines joined again

What a string is split into can be joined again. Split at line breaks, it comes out with a line feed
for each of its breaks, and lines that hold no break come back when the text that they are joined to
is split. Split at a separator, the string itself comes out, and no piece holds the separator, since
the leftmost occurrences are cut first.

## Main definitions

- `Line.normalize`: a string with a line feed for each of its breaks
- `Line.Clean`: neither a carriage return nor a line feed

## Main statements

- `Line.intercalate_atBreaks`, `Line.atBreaks_intercalate`
- `Line.intercalate_atSeparator`, `Line.not_infix_of_mem_atSeparator`
- `Line.intercalate_split_none`, `Line.split_none_intercalate`, `Line.intercalate_split_some`
-/

namespace TextRevision.Line

variable {sep cs piece : List Char} {pieces : List (List Char)}

theorem intercalate_consFirst (sep : List Char) (c : Char) (h : pieces ≠ []) :
    sep.intercalate (consFirst c pieces) = c :: sep.intercalate pieces := by
  cases pieces with
  | nil => exact absurd rfl h
  | cons piece rest =>
    rw [consFirst]
    cases rest with
    | nil => rw [List.intercalate_singleton, List.intercalate_singleton]
    | cons next rest =>
      rw [List.intercalate_cons_cons, List.intercalate_cons_cons, List.cons_append,
        List.cons_append]

/-- What is joined starts with the first piece. -/
theorem prefix_intercalate (sep piece : List Char) (pieces : List (List Char)) :
    piece <+: sep.intercalate (piece :: pieces) := by
  cases pieces with
  | nil => exact (List.intercalate_singleton).symm ▸ List.prefix_rfl
  | cons next rest =>
    rw [List.intercalate_cons_cons, List.append_assoc]
    exact List.prefix_append _ _

section Breaks

/-- A text with a line feed for each carriage return that has a line feed behind it. -/
def mergeReturns : List Char → List Char
  | [] => []
  | '\r' :: '\n' :: cs => '\n' :: mergeReturns cs
  | c :: cs => c :: mergeReturns cs

/-- A line feed for a carriage return, and any other character for itself. -/
def toFeed (c : Char) : Char :=
  if c = '\r' then '\n' else c

/-- A string with a line feed for each carriage return and line feed in this order, and then one for
each carriage return that is left. -/
def normalize (s : String) : String :=
  String.ofList ((mergeReturns s.toList).map toFeed)

/-- Neither a carriage return nor a line feed is among the characters. -/
structure Clean (cs : List Char) : Prop where
  no_return : '\r' ∉ cs
  no_feed : '\n' ∉ cs

theorem clean_nil : Clean [] := ⟨by simp, by simp⟩

theorem clean_cons_iff {c : Char} : Clean (c :: cs) ↔ c ≠ '\r' ∧ c ≠ '\n' ∧ Clean cs := by
  constructor
  · rintro ⟨hreturn, hfeed⟩
    rw [List.mem_cons, not_or] at hreturn hfeed
    exact ⟨Ne.symm hreturn.1, Ne.symm hfeed.1, hreturn.2, hfeed.2⟩
  · rintro ⟨hreturn, hfeed, hclean⟩
    exact ⟨List.not_mem_cons_of_ne_of_not_mem (Ne.symm hreturn) hclean.no_return,
      List.not_mem_cons_of_ne_of_not_mem (Ne.symm hfeed) hclean.no_feed⟩

/-- Only a carriage return with a line feed behind it is left out. -/
theorem mergeReturns_cons {c : Char} (h : c = '\r' → ∀ rest, cs ≠ '\n' :: rest) :
    mergeReturns (c :: cs) = c :: mergeReturns cs := by
  rw [mergeReturns]
  exact fun rest hreturn => h hreturn rest

/-- A character that is no break stays in the piece that goes on behind it. -/
theorem atBreaks_cons {c : Char} (hreturn : c ≠ '\r') (hfeed : c ≠ '\n') (cs : List Char) :
    atBreaks (c :: cs) = consFirst c (atBreaks cs) := by
  rw [atBreaks]
  · exact fun _ h => absurd h hreturn
  · exact hreturn
  · exact hfeed

/-- A text split at its breaks is joined to itself, with a line feed for each break. -/
theorem intercalate_atBreaks (cs : List Char) :
    ['\n'].intercalate (atBreaks cs) = (mergeReturns cs).map toFeed := by
  have hbreak : ∀ cs, ['\n'].intercalate ([] :: atBreaks cs)
      = '\n' :: ['\n'].intercalate (atBreaks cs) :=
    fun cs => List.intercalate_cons_of_ne_nil (atBreaks_ne_nil cs)
  fun_induction atBreaks cs with
  | case1 => rfl
  | case2 cs ih =>
    rw [hbreak, ih, mergeReturns]
    rfl
  | case3 cs hnext ih =>
    rw [hbreak, ih, mergeReturns_cons fun _ => hnext]
    rfl
  | case4 cs ih =>
    rw [hbreak, ih, mergeReturns_cons fun h => absurd h (by decide)]
    rfl
  | case5 c cs hpair hreturn hfeed ih =>
    rw [intercalate_consFirst _ _ (atBreaks_ne_nil cs), ih,
      mergeReturns_cons fun h => absurd h hreturn, List.map_cons, toFeed, if_neg hreturn]

/-- No piece between breaks holds one. -/
theorem clean_of_mem_atBreaks (cs : List Char) : ∀ piece ∈ atBreaks cs, Clean piece := by
  fun_induction atBreaks cs with
  | case1 => exact List.forall_mem_singleton.mpr clean_nil
  | case2 cs ih => exact List.forall_mem_cons.mpr ⟨clean_nil, ih⟩
  | case3 cs hnext ih => exact List.forall_mem_cons.mpr ⟨clean_nil, ih⟩
  | case4 cs ih => exact List.forall_mem_cons.mpr ⟨clean_nil, ih⟩
  | case5 c cs hpair hreturn hfeed ih =>
    cases hpieces : atBreaks cs with
    | nil => exact absurd hpieces (atBreaks_ne_nil cs)
    | cons piece pieces =>
      rw [hpieces, List.forall_mem_cons] at ih
      exact List.forall_mem_cons.mpr ⟨clean_cons_iff.mpr ⟨hreturn, hfeed, ih.1⟩, ih.2⟩

/-- A text that starts with a piece without breaks is split behind it, where a line feed stands or
the text ends. -/
theorem atBreaks_append_feed (h : Clean piece) (cs : List Char) :
    atBreaks (piece ++ '\n' :: cs) = piece :: atBreaks cs := by
  induction piece with
  | nil => rfl
  | cons c piece ih =>
    obtain ⟨hreturn, hfeed, hclean⟩ := clean_cons_iff.mp h
    rw [List.cons_append, atBreaks_cons hreturn hfeed, ih hclean]
    rfl

theorem atBreaks_of_clean (h : Clean cs) : atBreaks cs = [cs] := by
  induction cs with
  | nil => rfl
  | cons c cs ih =>
    obtain ⟨hreturn, hfeed, hclean⟩ := clean_cons_iff.mp h
    rw [atBreaks_cons hreturn hfeed, ih hclean]
    rfl

/-- Pieces without breaks come back when what line feeds join them to is split. -/
theorem atBreaks_intercalate (hsome : pieces ≠ []) (h : ∀ piece ∈ pieces, Clean piece) :
    atBreaks (['\n'].intercalate pieces) = pieces := by
  induction pieces with
  | nil => exact absurd rfl hsome
  | cons piece rest ih =>
    obtain ⟨hpiece, hrest⟩ := List.forall_mem_cons.mp h
    by_cases hend : rest = []
    · subst hend
      rw [List.intercalate_singleton, atBreaks_of_clean hpiece]
    · rw [List.intercalate_cons_of_ne_nil hend, List.append_assoc, List.singleton_append,
        atBreaks_append_feed hpiece, ih hend hrest]

end Breaks

section Separator

/-- The pieces between the occurrences of a separator are joined by it to the text, but for what is
left out in front. -/
theorem intercalate_atSeparator (hsep : sep ≠ []) (skip : Nat) (cs : List Char) :
    sep.intercalate (atSeparator sep skip cs) = cs.drop skip := by
  fun_induction atSeparator sep skip cs with
  | case1 skip => rw [List.drop_nil]; rfl
  | case2 skip c cs ih => exact ih
  | case3 c cs hhere ih =>
    obtain ⟨rest, hrest⟩ := List.isPrefixOf_iff_prefix.mp hhere
    have hdrop : cs.drop (sep.length - 1) = rest := by
      obtain ⟨s, sep', rfl⟩ := List.exists_cons_of_ne_nil hsep
      obtain ⟨rfl, rfl⟩ := List.cons.inj hrest
      exact List.drop_left
    rw [List.intercalate_cons_of_ne_nil (atSeparator_ne_nil sep _ cs), ih, hdrop]
    exact hrest
  | case4 c cs hhere ih => rw [intercalate_consFirst _ _ (atSeparator_ne_nil sep 0 cs), ih]; rfl

/-- No piece between the occurrences of a separator holds it. -/
theorem not_infix_of_mem_atSeparator (hsep : sep ≠ []) (skip : Nat) (cs : List Char) :
    ∀ piece ∈ atSeparator sep skip cs, ¬ sep <:+: piece := by
  have hnil : ¬ sep <:+: [] := fun h => hsep (List.infix_nil.mp h)
  fun_induction atSeparator sep skip cs with
  | case1 skip => exact List.forall_mem_singleton.mpr hnil
  | case2 skip c cs ih => exact ih
  | case3 c cs hhere ih => exact List.forall_mem_cons.mpr ⟨hnil, ih⟩
  | case4 c cs hhere ih =>
    have hjoined := intercalate_atSeparator hsep 0 cs
    cases hpieces : atSeparator sep 0 cs with
    | nil => exact absurd hpieces (atSeparator_ne_nil sep 0 cs)
    | cons piece pieces =>
      rw [hpieces, List.forall_mem_cons] at ih
      rw [hpieces, List.drop_zero] at hjoined
      refine List.forall_mem_cons.mpr ⟨fun hinfix => ?_, ih.2⟩
      -- A separator that starts with the character stands at the front of the text: it was cut.
      rcases List.infix_cons_iff.mp hinfix with hfront | hlater
      · have hpiece : c :: piece <+: c :: cs :=
          List.cons_prefix_cons.mpr ⟨rfl, hjoined ▸ prefix_intercalate sep piece pieces⟩
        exact hhere (List.isPrefixOf_iff_prefix.mpr (hfront.trans hpiece))
      · exact ih.1 hlater

/-- The pieces of a text hold characters of the text only. -/
theorem subset_of_mem_atSeparator (sep : List Char) (skip : Nat) (cs : List Char) :
    ∀ piece ∈ atSeparator sep skip cs, piece ⊆ cs := by
  fun_induction atSeparator sep skip cs with
  | case1 skip => exact List.forall_mem_singleton.mpr (List.Subset.refl [])
  | case2 skip c cs ih => exact fun piece hpiece => List.subset_cons_of_subset c (ih piece hpiece)
  | case3 c cs hhere ih =>
    exact List.forall_mem_cons.mpr ⟨List.nil_subset _,
      fun piece hpiece => List.subset_cons_of_subset c (ih piece hpiece)⟩
  | case4 c cs hhere ih =>
    cases hpieces : atSeparator sep 0 cs with
    | nil => exact absurd hpieces (atSeparator_ne_nil sep 0 cs)
    | cons piece pieces =>
      rw [hpieces, List.forall_mem_cons] at ih
      exact List.forall_mem_cons.mpr ⟨List.cons_subset_cons c ih.1,
        fun piece hpiece => List.subset_cons_of_subset c (ih.2 piece hpiece)⟩

end Separator

section Strings

theorem toList_ne_nil {s : String} (h : s ≠ "") : s.toList ≠ [] :=
  mt String.toList_eq_nil_iff.mp h

theorem split_none (s : String) : split s none = (atBreaks s.toList).map String.ofList := rfl

/-- An empty separator is no separator. -/
theorem split_empty (s : String) : split s (some "") = split s none := rfl

theorem split_some {sep : String} (s : String) (h : sep ≠ "") :
    split s (some sep) = (atSeparator sep.toList 0 s.toList).map String.ofList := by
  obtain ⟨c, cs, hcs⟩ := List.exists_cons_of_ne_nil (toList_ne_nil h)
  rw [split, Option.map_some, hcs]

theorem split_ne_nil (s : String) (sep : Option String) : split s sep ≠ [] := by
  rw [split]
  split <;> simp [atSeparator_ne_nil, atBreaks_ne_nil]

theorem toList_intercalate_ofList (sep : String) (pieces : List (List Char)) :
    (sep.intercalate (pieces.map String.ofList)).toList = sep.toList.intercalate pieces := by
  have hback : String.toList ∘ String.ofList = id := funext fun _ => String.toList_ofList
  rw [String.toList_intercalate, List.map_map, hback, List.map_id]

/-- The lines of a string hold no breaks, and line feeds join them to the string with a line feed
for each of its breaks. -/
theorem intercalate_split_none (s : String) : "\n".intercalate (split s none) = normalize s := by
  rw [← String.toList_inj, split_none, toList_intercalate_ofList, normalize]
  exact (intercalate_atBreaks s.toList).trans String.toList_ofList.symm

theorem clean_of_mem_split_none (s : String) : ∀ line ∈ split s none, Clean line.toList := by
  rw [split_none, List.forall_mem_map]
  intro piece hpiece
  rw [String.toList_ofList]
  exact clean_of_mem_atBreaks s.toList piece hpiece

/-- Lines without breaks come back when what line feeds join them to is split. -/
theorem split_none_intercalate {lines : List String} (hsome : lines ≠ [])
    (h : ∀ line ∈ lines, Clean line.toList) : split ("\n".intercalate lines) none = lines := by
  have hpieces : atBreaks (['\n'].intercalate (lines.map String.toList))
      = lines.map String.toList :=
    atBreaks_intercalate (by simpa using hsome) (List.forall_mem_map.mpr h)
  have hback : String.ofList ∘ String.toList = id := funext fun _ => String.ofList_toList
  rw [split_none, String.toList_intercalate]
  exact (congrArg (List.map String.ofList) hpieces).trans (by rw [List.map_map, hback, List.map_id])

theorem intercalate_split_some {sep : String} (s : String) (h : sep ≠ "") :
    sep.intercalate (split s (some sep)) = s := by
  rw [← String.toList_inj, split_some s h, toList_intercalate_ofList,
    intercalate_atSeparator (toList_ne_nil h), List.drop_zero]

theorem not_infix_of_mem_split_some {sep : String} (s : String) (h : sep ≠ "") :
    ∀ piece ∈ split s (some sep), ¬ sep.toList <:+: piece.toList := by
  rw [split_some s h, List.forall_mem_map]
  intro piece hpiece
  rw [String.toList_ofList]
  exact not_infix_of_mem_atSeparator (toList_ne_nil h) 0 s.toList piece hpiece

theorem subset_of_mem_split_some {sep : String} (s : String) (h : sep ≠ "") :
    ∀ piece ∈ split s (some sep), piece.toList ⊆ s.toList := by
  rw [split_some s h, List.forall_mem_map]
  intro piece hpiece
  rw [String.toList_ofList]
  exact subset_of_mem_atSeparator sep.toList 0 s.toList piece hpiece

end Strings

end TextRevision.Line
