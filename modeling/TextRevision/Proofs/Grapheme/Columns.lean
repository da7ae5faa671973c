import Mathlib.Order.Bounds.Basic
import Mathlib.Order.Monotone.Basic
import TextRevision.Grapheme.Column

/-!
# Columns and offsets

Each cluster of a line, a tab included, takes at least one column. So the column of an offset grows
with the offset, and it grows from each boundary between clusters to the next. The offset at which a
column is reached is the first boundary with that column or a later one, and a search for the column
of a boundary ends at the boundary. All this rests on the clusters being non-empty, and on nothing
else about the way in which a line is cut into them. What is counted is held to words, and nothing
leaves its word as long as the last column of the line does not.

## Main definitions

- `Grapheme.IsBoundary`: the boundaries between clusters
- `Grapheme.Inverse`: what columns and offsets have to do with each other

## Main statements

- `Grapheme.columnFrom_mono`, `Grapheme.columnFrom_lt`
- `Grapheme.offsetFrom?_spec`: the offset is the least boundary that reaches the column
- `Grapheme.columnFrom?_eq`, `Grapheme.seekFrom_eq`: columns and searches held to words
- `Grapheme.column_offset_inverse`
-/

namespace TextRevision.Grapheme

/-- A boundary of clusters of which the first starts at `here`: in front of them, between two of
them, or behind them all. -/
def IsBoundary (here : Nat) (gs : List (List Char)) (p : Nat) : Prop :=
  ∃ front, front <+: gs ∧ p = here + front.flatten.length

/-- Columns of offsets, and offsets of columns, in a line of the given clusters and length: both
come to something, and they are inverse to each other. -/
structure Inverse (gs : List (List Char)) (length : Nat) (column? : (stop : Nat) → Option Nat)
    (seek : (target : Nat) → (strict : Bool) → Checked (Option Nat)) (column : Nat → Nat) :
    Prop where
  counted : ∀ stop, column? stop = some (column stop)
  /-- A column is reached at the first boundary that has it or a later one. -/
  reached : ∀ target strict, (∃ p, IsBoundary 0 gs p ∧ target ≤ column p) →
    ∃ p, IsLeast {p | IsBoundary 0 gs p ∧ target ≤ column p} p
      ∧ seek target strict = .done (some p)
  /-- A column that no boundary has or exceeds is missing, or counts as the end of the line. -/
  unreached : ∀ target strict, (∀ p, IsBoundary 0 gs p → column p < target) →
    seek target strict = .done (if strict then none else some length)
  /-- The column of a boundary is reached there. -/
  seek_column : ∀ strict p, IsBoundary 0 gs p → seek (column p) strict = .done (some p)
  strictMonoOn : StrictMonoOn column {p | IsBoundary 0 gs p}
  mono : Monotone column

variable {tab col here p q : Nat} {g : List Char} {gs : List (List Char)}

section Boundaries

theorem isBoundary_nil : IsBoundary here [] p ↔ p = here := by
  simp [IsBoundary]

/-- Boundaries stand in front of the first cluster or between those behind it. -/
theorem isBoundary_cons :
    IsBoundary here (g :: gs) p ↔ p = here ∨ IsBoundary (here + g.length) gs p := by
  constructor
  · rintro ⟨front, hfront, rfl⟩
    rcases List.prefix_cons_iff.mp hfront with rfl | ⟨back, rfl, hback⟩
    · exact .inl rfl
    · refine .inr ⟨back, hback, ?_⟩
      rw [List.flatten_cons, List.length_append, Nat.add_assoc]
  · rintro (rfl | ⟨front, hfront, rfl⟩)
    · exact ⟨[], List.nil_prefix, rfl⟩
    · refine ⟨g :: front, List.cons_prefix_cons.mpr ⟨rfl, hfront⟩, ?_⟩
      rw [List.flatten_cons, List.length_append, Nat.add_assoc]

theorem IsBoundary.le (h : IsBoundary here gs p) : here ≤ p := by
  obtain ⟨front, -, rfl⟩ := h
  exact Nat.le_add_right _ _

/-- A boundary behind the first cluster stands behind its start. -/
theorem IsBoundary.lt_of_ne_nil (hg : g ≠ []) (h : IsBoundary (here + g.length) gs p) : here < p :=
  (Nat.lt_add_of_pos_right (List.length_pos_iff.mpr hg)).trans_le h.le

theorem IsBoundary.le_length (h : IsBoundary here gs p) : p ≤ here + gs.flatten.length := by
  obtain ⟨front, ⟨back, rfl⟩, rfl⟩ := h
  rw [List.flatten_append, List.length_append]
  omega

end Boundaries

section Columns

/-- Every cluster takes a column. -/
theorem width_pos (htab : 0 < tab) (col : Nat) (g : List Char) : 0 < width tab col g := by
  rw [width]
  split
  · exact Nat.sub_pos_of_lt (Nat.mod_lt col htab)
  · exact Nat.zero_lt_one

theorem columnFrom_of_le {stop : Nat} (h : stop ≤ here) :
    columnFrom tab stop col here gs = col := by
  cases gs with
  | nil => rfl
  | cons g gs => rw [columnFrom, if_pos h]

theorem columnFrom_cons_of_lt {stop : Nat} (h : here < stop) :
    columnFrom tab stop col here (g :: gs)
      = columnFrom tab stop (col + width tab col g) (here + g.length) gs := by
  rw [columnFrom, if_neg (Nat.not_le.mpr h)]

theorem le_columnFrom (tab stop col here : Nat) (gs : List (List Char)) :
    col ≤ columnFrom tab stop col here gs := by
  induction gs generalizing col here with
  | nil => exact le_rfl
  | cons g gs ih =>
    rw [columnFrom]
    split
    · exact le_rfl
    · exact (Nat.le_add_right _ _).trans (ih _ _)

/-- The column does not fall from an offset to a later one. -/
theorem columnFrom_mono (tab col here : Nat) (gs : List (List Char)) :
    Monotone fun stop => columnFrom tab stop col here gs := by
  intro p q hpq
  dsimp only
  induction gs generalizing col here with
  | nil => exact le_rfl
  | cons g gs ih =>
    by_cases hp : p ≤ here
    · rw [columnFrom_of_le hp]
      exact le_columnFrom ..
    · have hstart : here < p := Nat.not_le.mp hp
      rw [columnFrom_cons_of_lt hstart, columnFrom_cons_of_lt (hstart.trans_le hpq)]
      exact ih _ _

/-- The column grows from a boundary to any later offset of the line. -/
theorem columnFrom_lt (htab : 0 < tab) (hgs : ∀ g ∈ gs, g ≠ []) (hp : IsBoundary here gs p)
    (hpq : p < q) (hq : q ≤ here + gs.flatten.length) :
    columnFrom tab p col here gs < columnFrom tab q col here gs := by
  induction gs generalizing col here with
  | nil =>
    obtain rfl := isBoundary_nil.mp hp
    exact absurd hq (by simpa using hpq)
  | cons g gs ih =>
    obtain ⟨hg, hgs⟩ := List.forall_mem_cons.mp hgs
    rw [List.flatten_cons, List.length_append, ← Nat.add_assoc] at hq
    rcases isBoundary_cons.mp hp with rfl | hp
    · rw [columnFrom_of_le le_rfl, columnFrom_cons_of_lt hpq]
      exact (Nat.lt_add_of_pos_right (width_pos htab col g)).trans_le (le_columnFrom ..)
    · have hstart : here < p := hp.lt_of_ne_nil hg
      rw [columnFrom_cons_of_lt hstart, columnFrom_cons_of_lt (hstart.trans hpq)]
      exact ih hgs hp hq

end Columns

section Offsets

/-- A boundary with column `target` or a later one, counted on from column `col` at offset
`here`. -/
def Reaches (tab target col here : Nat) (gs : List (List Char)) (p : Nat) : Prop :=
  IsBoundary here gs p ∧ target ≤ columnFrom tab p col here gs

/-- A boundary that reaches a column not yet reached stands behind the first cluster. -/
theorem reaches_cons_iff {target : Nat} (hg : g ≠ []) (h : col < target) :
    Reaches tab target col here (g :: gs) p
      ↔ Reaches tab target (col + width tab col g) (here + g.length) gs p := by
  constructor
  · rintro ⟨hp, hreach⟩
    rcases isBoundary_cons.mp hp with rfl | hp
    · rw [columnFrom_of_le le_rfl] at hreach
      exact absurd hreach (Nat.not_le.mpr h)
    · rw [columnFrom_cons_of_lt (hp.lt_of_ne_nil hg)] at hreach
      exact ⟨hp, hreach⟩
  · rintro ⟨hp, hreach⟩
    refine ⟨isBoundary_cons.mpr (.inr hp), ?_⟩
    rw [columnFrom_cons_of_lt (hp.lt_of_ne_nil hg)]
    exact hreach

/-- A column that is reached already is reached in front of the first cluster. -/
theorem isLeast_reaches {target : Nat} (h : target ≤ col) :
    IsLeast {p | Reaches tab target col here gs p} here := by
  refine ⟨⟨⟨[], List.nil_prefix, rfl⟩, ?_⟩, fun p hp => hp.1.le⟩
  rwa [columnFrom_of_le le_rfl]

/-- A search for a column ends at the first boundary that reaches it, or finds that none does. -/
theorem offsetFrom?_spec (tab target : Nat) (strict : Bool) (hgs : ∀ g ∈ gs, g ≠ []) :
    (∃ p, offsetFrom? tab target strict col here gs = some p
        ∧ IsLeast {p | Reaches tab target col here gs p} p)
      ∨ ((∀ p, ¬ Reaches tab target col here gs p)
        ∧ offsetFrom? tab target strict col here gs
          = if strict then none else some (here + gs.flatten.length)) := by
  induction gs generalizing col here with
  | nil =>
    by_cases hreach : target ≤ col
    · exact .inl ⟨here, by rw [offsetFrom?, if_pos hreach], isLeast_reaches hreach⟩
    · refine .inr ⟨fun p hp => hreach hp.2, ?_⟩
      rw [offsetFrom?, if_neg hreach]
      rfl
  | cons g gs ih =>
    by_cases hreach : target ≤ col
    · exact .inl ⟨here, by rw [offsetFrom?, if_pos hreach], isLeast_reaches hreach⟩
    · obtain ⟨hg, hgs⟩ := List.forall_mem_cons.mp hgs
      have hbehind : ∀ p, Reaches tab target col here (g :: gs) p
          ↔ Reaches tab target (col + width tab col g) (here + g.length) gs p :=
        fun p => reaches_cons_iff hg (Nat.not_le.mp hreach)
      have hlength : here + (g :: gs).flatten.length = here + g.length + gs.flatten.length := by
        rw [List.flatten_cons, List.length_append, Nat.add_assoc]
      -- The search goes on behind the first cluster, and no boundary in front of it is missed.
      simp only [hbehind, hlength, offsetFrom?, if_neg hreach]
      exact ih hgs

end Offsets

section Lines

theorem columnIn_mono (gs : List (List Char)) (tab : Nat) : Monotone (columnIn gs tab) :=
  columnFrom_mono (max tab 1) 0 0 gs

theorem columnIn_strictMonoOn (hgs : ∀ g ∈ gs, g ≠ []) (tab : Nat) :
    StrictMonoOn (columnIn gs tab) {p | IsBoundary 0 gs p} :=
  fun _ hp _ hq hpq => columnFrom_lt (Nat.le_max_right tab 1) hgs hp hpq hq.le_length

/-- The column of a boundary is reached there, since the boundaries in front have lesser columns. -/
theorem offsetIn?_columnIn (hgs : ∀ g ∈ gs, g ≠ []) (tab : Nat) (strict : Bool)
    (hp : IsBoundary 0 gs p) : offsetIn? gs (columnIn gs tab p) tab strict = some p := by
  have hreach : Reaches (max tab 1) (columnIn gs tab p) 0 0 gs p := ⟨hp, le_rfl⟩
  rcases offsetFrom?_spec (max tab 1) (columnIn gs tab p) strict hgs with
    ⟨q, hoffset, ⟨hq, hcolumn⟩, hleast⟩ | ⟨hnone, -⟩
  · have hle : q ≤ p := hleast hreach
    have hge : p ≤ q := by
      by_contra hlt
      have hless := columnIn_strictMonoOn hgs tab hq hp (Nat.not_le.mp hlt)
      exact absurd hcolumn (Nat.not_le.mpr hless)
    rw [offsetIn?, hoffset, Nat.le_antisymm hle hge]
  · exact absurd hreach (hnone p)

end Lines

section Words

variable {target : Nat} {strict : Bool}

/-- No offset has a later column than the end of the line. -/
theorem columnFrom_le_end (stop : Nat) (hgs : ∀ g ∈ gs, g ≠ []) :
    columnFrom tab stop col here gs ≤ columnFrom tab (here + gs.flatten.length) col here gs := by
  induction gs generalizing col here with
  | nil => exact le_rfl
  | cons g gs ih =>
    obtain ⟨hg, hgs⟩ := List.forall_mem_cons.mp hgs
    have hstart : here < here + g.length := Nat.lt_add_of_pos_right (List.length_pos_iff.mpr hg)
    rw [List.flatten_cons, List.length_append, ← Nat.add_assoc,
      columnFrom_cons_of_lt (hstart.trans_le (Nat.le_add_right _ _))]
    by_cases hstop : stop ≤ here
    · rw [columnFrom_of_le hstop]
      exact (Nat.le_add_right _ _).trans (le_columnFrom ..)
    · rw [columnFrom_cons_of_lt (Nat.not_le.mp hstop)]
      exact ih hgs

/-- A column only grows, so that it stays in its word if the last one does. -/
theorem columnFrom?_eq {stop : Nat} (h : col < wordCount) :
    columnFrom? tab stop col here gs = word? (columnFrom tab stop col here gs) := by
  induction gs generalizing col here with
  | nil => exact (word?_of_lt h).symm
  | cons g gs ih =>
    rw [columnFrom?, columnFrom]
    split
    · exact (word?_of_lt h).symm
    · by_cases hword : col + width tab col g < wordCount
      · rw [word?_of_lt hword]
        exact ih hword
      · have hle : wordCount ≤ col + width tab col g := Nat.not_lt.mp hword
        rw [word?_of_le hle, word?_of_le (hle.trans (le_columnFrom ..))]
        rfl

/-- Where a word holds the column of the end of a line, every search in it comes to an end. -/
theorem seekFrom_eq (hgs : ∀ g ∈ gs, g ≠ [])
    (h : columnFrom tab (here + gs.flatten.length) col here gs < wordCount) :
    seekFrom tab target strict col here gs = .done (offsetFrom? tab target strict col here gs) := by
  induction gs generalizing col here with
  | nil => rfl
  | cons g gs ih =>
    obtain ⟨hg, hgs⟩ := List.forall_mem_cons.mp hgs
    have hstart : here < here + g.length := Nat.lt_add_of_pos_right (List.length_pos_iff.mpr hg)
    rw [List.flatten_cons, List.length_append, ← Nat.add_assoc,
      columnFrom_cons_of_lt (hstart.trans_le (Nat.le_add_right _ _))] at h
    have hword : word? (col + width tab col g) = some (col + width tab col g) :=
      word?_of_lt ((le_columnFrom ..).trans_lt h)
    rw [seekFrom, offsetFrom?, hword]
    split
    · rfl
    · exact ih hgs h

theorem columnIn?_eq (gs : List (List Char)) (tab stop : Nat) :
    columnIn? gs tab stop = word? (columnIn gs tab stop) :=
  columnFrom?_eq (by decide)

/-- Where a word holds the column of the end of a line, columns and offsets in it are inverse. -/
theorem inverse_of_flatten {s : String} (hs : gs.flatten = s.toList) (hgs : ∀ g ∈ gs, g ≠ [])
    (hword : columnIn gs tab s.length < wordCount) :
    Inverse gs s.length (columnIn? gs tab) (seekIn gs · tab) (columnIn gs tab) := by
  have hend : s.length = 0 + gs.flatten.length := by rw [hs, String.length_toList, Nat.zero_add]
  rw [columnIn, hend] at hword
  have hseek : ∀ target strict,
      seekIn gs target tab strict = .done (offsetIn? gs target tab strict) :=
    fun target strict => seekFrom_eq hgs hword
  refine ⟨fun stop => ?_, fun target strict ⟨q, hq⟩ => ?_, fun target strict hunreached => ?_,
    fun strict p hp => ?_, columnIn_strictMonoOn hgs tab, columnIn_mono gs tab⟩
  · rw [columnIn?_eq]
    exact word?_of_lt ((columnFrom_le_end stop hgs).trans_lt hword)
  · rw [hseek]
    rcases offsetFrom?_spec (max tab 1) target strict hgs with ⟨p, hoffset, hleast⟩ | ⟨hnone, -⟩
    · exact ⟨p, hleast, congrArg Checked.done hoffset⟩
    · exact absurd hq (hnone q)
  · rw [hseek]
    rcases offsetFrom?_spec (max tab 1) target strict hgs with ⟨p, -, hreach, -⟩ | ⟨-, hoffset⟩
    · exact absurd hreach.2 (Nat.not_le.mpr (hunreached p hreach.1))
    · rw [← hend] at hoffset
      exact congrArg Checked.done hoffset
  · rw [hseek, offsetIn?_columnIn hgs tab strict hp]

/-- In a line that is cut into clusters, none of them empty, columns and offsets are inverse to each
other, and so they are in a line with the clusters that it has. A word has to hold the column of the
end of the line. A tab size of zero counts as one. -/
theorem column_offset_inverse (s : String) (tab : Nat) :
    (∀ gs : List (List Char), gs.flatten = s.toList → (∀ g ∈ gs, g ≠ []) →
        columnIn gs tab s.length < wordCount →
        Inverse gs s.length (columnIn? gs tab) (seekIn gs · tab) (columnIn gs tab))
      ∧ (column s tab s.length < wordCount →
        Inverse (clusters s) s.length (column? s tab) (seek s · tab) (column s tab))
      ∧ ∀ gs : List (List Char), columnIn? gs 0 = columnIn? gs 1
        ∧ ∀ target strict, seekIn gs target 0 strict = seekIn gs target 1 strict :=
  ⟨fun _ hs hgs hword => inverse_of_flatten hs hgs hword,
    fun hword => inverse_of_flatten (flatten_clusters s)
      (fun _ hg => ne_nil_of_mem_clusters hg) hword,
    fun _ => ⟨rfl, fun _ _ => rfl⟩⟩

/-- A character, a tab and a letter with an accent on it: with tabs of four columns, the letter
stands at column four, and a column within the tab is reached behind the tab. -/
theorem column_offset_inverse_behind_a_tab :
    let gs := [['a'], ['\t'], ['e', '\u0301']]
    gs.flatten = "a\te\u0301".toList ∧ (∀ g ∈ gs, g ≠ [])
      ∧ columnIn gs 4 "a\te\u0301".length < wordCount
      ∧ columnIn? gs 4 2 = some 4 ∧ columnIn? gs 4 3 = some 5 ∧ columnIn? gs 4 4 = some 5
      ∧ seekIn gs (columnIn gs 4 2) 4 true = .done (some 2)
      ∧ (∃ p, IsLeast {p | IsBoundary 0 gs p ∧ 3 ≤ columnIn gs 4 p} p
        ∧ seekIn gs 3 4 true = .done (some p))
      ∧ columnIn gs 4 2 < columnIn gs 4 4 := by
  intro gs
  have hs : gs.flatten = "a\te\u0301".toList := by decide
  have hgs : ∀ g ∈ gs, g ≠ [] := by decide
  have hword : columnIn gs 4 "a\te\u0301".length < wordCount := by decide
  have htab : IsBoundary 0 gs 2 := ⟨[['a'], ['\t']], by decide, rfl⟩
  have hend : IsBoundary 0 gs 4 := ⟨gs, by decide, rfl⟩
  have h := (column_offset_inverse "a\te\u0301" 4).1 gs hs hgs hword
  exact ⟨hs, hgs, hword, h.counted 2, h.counted 3, h.counted 4, h.seek_column true 2 htab,
    h.reached 3 true ⟨2, htab, by decide⟩, h.strictMonoOn htab hend (by decide)⟩

/-- Behind two tabs of more than half as many columns as a word can count, no word holds the column,
and a search for a column between them and the first comes to nothing. -/
theorem not_column_offset_inverse :
    let gs := [['\t'], ['\t']]
    clusters "\t\t" = gs ∧ IsBoundary 0 gs 2
      ∧ columnIn gs 9223372036854775809 1 < 9223372036854775813
      ∧ 9223372036854775813 ≤ columnIn gs 9223372036854775809 2
      ∧ column? "\t\t" 9223372036854775809 2 = none
      ∧ seek "\t\t" 9223372036854775813 9223372036854775809 true = .nothing := by
  intro gs
  have hclusters : clusters "\t\t" = gs := by decide
  refine ⟨hclusters, ⟨gs, by decide, rfl⟩, by decide, by decide, ?_, ?_⟩
  · rw [column?, hclusters]
    decide
  · rw [seek, hclusters]
    decide

end Words

end TextRevision.Grapheme
