import TextRevision.Grapheme.Category

/-!
# Grapheme clusters

A text falls into extended grapheme clusters, the units a reader takes for one character. Whether a
character joins the cluster in front of it depends on the last character of that cluster and on
three facts about the cluster's end, which `Context` keeps: whether an odd number of regional
indicators stands there, whether a pictograph is open, and whether a conjunct is.

## Main definitions

- `Grapheme.Context.joins`: whether a character belongs to the cluster in front of it
- `Grapheme.clusters`: the clusters of a text

## Main statements

- `Grapheme.flatten_clusters`: the clusters, one after the other, are the text
- `Grapheme.ne_nil_of_mem_clusters`: no cluster is empty
-/

namespace TextRevision.Grapheme

/-- What stands open at the end of a cluster. -/
inductive Pending where
  | nothing
  /-- A base that still needs its link: a joiner, or a linker. -/
  | base
  /-- A base and its link. -/
  | linked
  deriving DecidableEq, Repr

/-- The end of a cluster, as far as it decides what joins it. -/
structure Context where
  last : Category
  /-- Whether the last character is a regional indicator without a partner. -/
  unpaired : Bool
  /-- A pictograph with marks behind it, and then a joiner. -/
  pictograph : Pending
  /-- A consonant with marks behind it, a linker among them. -/
  conjunct : Pending

namespace Context

/-- The end of a cluster that a single character starts. -/
def start (c : Char) : Context where
  last := category c
  unpaired := category c = .regional
  pictograph := if isPictograph c then .base else .nothing
  conjunct := if isConsonant c then .base else .nothing

/-- The end of a cluster after one more character. -/
def push (ctx : Context) (c : Char) : Context where
  last := category c
  unpaired := category c = .regional && !ctx.unpaired
  pictograph :=
    if isPictograph c then .base
    else if ctx.pictograph = .base ∧ category c = .extend then .base
    else if ctx.pictograph = .base ∧ category c = .joiner then .linked
    else .nothing
  conjunct :=
    if isConsonant c then .base
    else if ctx.conjunct = .nothing then .nothing
    else if isLinker c then .linked
    else if extendsConjunct c then ctx.conjunct
    else .nothing

/-- Whether the class of a character lets it follow a class of Hangul without a break. -/
def hangulJoins : Category → Category → Bool
  | .hangulL, .hangulL => true
  | .hangulL, .hangulV => true
  | .hangulL, .hangulLV => true
  | .hangulL, .hangulLVT => true
  | .hangulLV, .hangulV => true
  | .hangulLV, .hangulT => true
  | .hangulV, .hangulV => true
  | .hangulV, .hangulT => true
  | .hangulLVT, .hangulT => true
  | .hangulT, .hangulT => true
  | _, _ => false

/-- Whether breaks surround a class wherever it stands. -/
def alwaysBreaks : Category → Bool
  | .carriageReturn => true
  | .lineFeed => true
  | .control => true
  | _ => false

/-- Whether a character belongs to the cluster in front of it. -/
def joins (ctx : Context) (c : Char) : Bool :=
  if ctx.last = .carriageReturn ∧ category c = .lineFeed then true
  else if alwaysBreaks ctx.last || alwaysBreaks (category c) then false
  else
    hangulJoins ctx.last (category c)
      || category c = .extend || category c = .joiner || category c = .spacing
      || ctx.last = .leading
      || (ctx.conjunct = .linked && isConsonant c)
      || (ctx.pictograph = .linked && isPictograph c)
      || (ctx.unpaired && category c = .regional)

end Context

/-- The clusters of a text whose first cluster is begun: `seen` holds its characters so far, newest
first. -/
def clustersFrom (ctx : Context) (seen : List Char) : List Char → List (List Char)
  | [] => [seen.reverse]
  | c :: cs =>
    if ctx.joins c then clustersFrom (ctx.push c) (c :: seen) cs
    else seen.reverse :: clustersFrom (Context.start c) [c] cs

def clusters (s : String) : List (List Char) :=
  match s.toList with
  | [] => []
  | c :: cs => clustersFrom (Context.start c) [c] cs

theorem flatten_clustersFrom (ctx : Context) (seen cs : List Char) :
    (clustersFrom ctx seen cs).flatten = seen.reverse ++ cs := by
  induction cs generalizing ctx seen with
  | nil => simp [clustersFrom]
  | cons c cs ih =>
    simp only [clustersFrom]
    split
    · simp [ih]
    · simp [ih]

/-- The clusters of a text, one after the other, are the text. -/
theorem flatten_clusters (s : String) : (clusters s).flatten = s.toList := by
  simp only [clusters]
  split
  · next h => simp [h]
  · next h => simp [flatten_clustersFrom, h]

theorem ne_nil_of_mem_clustersFrom {ctx : Context} {seen cs g : List Char} (h : seen ≠ [])
    (hg : g ∈ clustersFrom ctx seen cs) : g ≠ [] := by
  induction cs generalizing ctx seen with
  | nil => simp_all [clustersFrom]
  | cons c cs ih =>
    simp only [clustersFrom] at hg
    split at hg
    · exact ih (by simp) hg
    · rcases List.mem_cons.1 hg with rfl | hg
      · simpa using h
      · exact ih (by simp) hg

/-- No cluster is empty. -/
theorem ne_nil_of_mem_clusters {s : String} {g : List Char} (hg : g ∈ clusters s) : g ≠ [] := by
  simp only [clusters] at hg
  split at hg
  · simp at hg
  · exact ne_nil_of_mem_clustersFrom (by simp) hg

end TextRevision.Grapheme
