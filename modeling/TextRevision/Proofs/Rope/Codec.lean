import TextRevision.Proofs.Change.Written
import TextRevision.Proofs.Json.RoundTrip
import TextRevision.Proofs.Rope.Sameness

/-!
# Documents made of lines and read again

A document is made of lines if there is at least one and none holds a break, and it has the lines it
is made of, however these are cut into leaves and these leaves into branches. The array of its lines
is its written form. So reading a document that was written gives a document of the same lines,
which may be balanced in another way.

## Main definitions

- `Rope.FirstBreak`: lines of which one is the first that holds a break

## Main statements

- `Rope.ofLines?_eq_ok_iff`, `Rope.FirstBreak.ofLines?_eq`: the lines that make a document, and the
  fault of others
- `Rope.ofJson_eq_ok_iff`: the values that are read as documents
- `Rope.ofLines?_and_ofJson_spec`
-/

namespace TextRevision

namespace Rope

section Lines

/-- The lines of a document: at least one, and none with a break in it. -/
structure Writable (lines : List String) : Prop where
  some_line : lines ≠ []
  unbroken : ∀ line ∈ lines, '\n' ∉ line.toList

/-- Behind the lines `front`, the line `line` is the first that holds a break. -/
structure FirstBreak (front : List String) (line : String) : Prop where
  unbroken : ∀ before ∈ front, '\n' ∉ before.toList
  broken : '\n' ∈ line.toList

variable {front back lines : List String} {line : String} {r : Rope}

/-- The first line with a break is told by its index. -/
theorem FirstBreak.breakIndex?_eq (h : FirstBreak front line) (back : List String) :
    breakIndex? (front ++ line :: back) = some front.length := by
  have hfront : breakIndex? front = none := Revision.breakIndex?_eq_none_iff.mpr h.unbroken
  have hline : line.toList.contains '\n' = true := List.contains_iff_mem.mpr h.broken
  rw [breakIndex?] at hfront
  rw [breakIndex?, List.findIdx?_append, hfront, List.findIdx?_cons, if_pos hline]
  simp

/-- Lines with a break among them have a first one. -/
theorem exists_firstBreak (h : ∃ line ∈ lines, '\n' ∈ line.toList) :
    ∃ front line back, lines = front ++ line :: back ∧ FirstBreak front line := by
  induction lines with
  | nil => simp at h
  | cons first rest ih =>
    by_cases hfirst : '\n' ∈ first.toList
    · exact ⟨[], first, rest, rfl, by simp, hfirst⟩
    · have hrest : ∃ line ∈ rest, '\n' ∈ line.toList := by
        obtain ⟨line, hline, hbroken⟩ := h
        rcases List.mem_cons.mp hline with rfl | hline
        · exact absurd hbroken hfirst
        · exact ⟨line, hline, hbroken⟩
      obtain ⟨front, line, back, rfl, hfront, hline⟩ := ih hrest
      exact ⟨first :: front, line, back, rfl, List.forall_mem_cons.mpr ⟨hfirst, hfront⟩, hline⟩

theorem Writable.ofLines?_eq (h : Writable lines) : ofLines? lines = .ok (ofLines lines) := by
  have hsome : ¬ lines.isEmpty = true := fun hempty => h.some_line (List.isEmpty_iff.mp hempty)
  rw [ofLines?, if_neg hsome, Revision.breakIndex?_eq_none_iff.mpr h.unbroken]

theorem FirstBreak.ofLines?_eq (h : FirstBreak front line) (back : List String) :
    ofLines? (front ++ line :: back) = .error (.breakInLine front.length) := by
  have hsome : ¬ (front ++ line :: back).isEmpty = true := by simp
  rw [ofLines?, if_neg hsome, h.breakIndex?_eq back]

theorem ofLines?_nil : ofLines? [] = .error .noLines := rfl

/-- Lines are none at all, or they make a document, or one is the first that holds a break. -/
theorem lines_cases (lines : List String) :
    lines = [] ∨ Writable lines
      ∨ ∃ front line back, lines = front ++ line :: back ∧ FirstBreak front line := by
  by_cases hempty : lines = []
  · exact .inl hempty
  · by_cases hbroken : ∃ line ∈ lines, '\n' ∈ line.toList
    · exact .inr (.inr (exists_firstBreak hbroken))
    · exact .inr (.inl ⟨hempty, fun line hline hbreak => hbroken ⟨line, hline, hbreak⟩⟩)

theorem ofLines?_eq_ok_iff : ofLines? lines = .ok r ↔ Writable lines ∧ ofLines lines = r := by
  constructor
  · intro hmade
    rcases lines_cases lines with rfl | hwritable | ⟨front, line, back, rfl, hbreak⟩
    · rw [ofLines?_nil] at hmade
      cases hmade
    · exact ⟨hwritable, Except.ok.inj (hwritable.ofLines?_eq.symm.trans hmade)⟩
    · rw [hbreak.ofLines?_eq] at hmade
      cases hmade
  · rintro ⟨hwritable, rfl⟩
    exact hwritable.ofLines?_eq

theorem ofLines?_eq_noLines_iff : ofLines? lines = .error .noLines ↔ lines = [] := by
  constructor
  · intro hfault
    rcases lines_cases lines with hempty | hwritable | ⟨front, line, back, rfl, hbreak⟩
    · exact hempty
    · rw [hwritable.ofLines?_eq] at hfault
      cases hfault
    · rw [hbreak.ofLines?_eq] at hfault
      cases hfault
  · rintro rfl
    exact ofLines?_nil

/-- A document made of lines has these lines, and their counts. -/
theorem counts_ofLines (h : lines ≠ []) :
    (ofLines lines).lines = lines ∧ (ofLines lines).lineCount = lines.length
      ∧ (ofLines lines).length = Line.total lines := by
  obtain ⟨hobeys, hlines⟩ := ofLines_spec Rule.builds_shareRule h
  exact ⟨hlines, by rw [hobeys.lineCount_eq, hlines], by rw [hobeys.length_eq, hlines]⟩

end Lines

section Json

variable {v : Json} {lines : List String} {r : Rope}

theorem writtenLines?_eq_some_iff : writtenLines? v = some lines ↔ v = .arr (lines.map .str) := by
  rw [writtenLines?, Option.bind_eq_some_iff]
  constructor
  · rintro ⟨items, hitems, hlines⟩
    rw [Json.items?_eq_some_iff.mp hitems, Json.mapM_str?_eq_some_iff.mp hlines]
  · rintro rfl
    exact ⟨_, rfl, Json.mapM_str?_eq_some_iff.mpr rfl⟩

theorem writtenLines?_toJson (r : Rope) : writtenLines? r.toJson = some r.lines :=
  writtenLines?_eq_some_iff.mpr rfl

/-- Exactly the arrays of lines that make a document are read, as that document. -/
theorem ofJson_eq_ok_iff :
    ofJson v = .ok r ↔ ∃ lines, Writable lines ∧ v = .arr (lines.map .str) ∧ ofLines lines = r := by
  constructor
  · intro hread
    rw [ofJson] at hread
    split at hread
    · next lines hlines =>
      obtain ⟨hwritable, hmade⟩ := ofLines?_eq_ok_iff.mp hread
      exact ⟨lines, hwritable, writtenLines?_eq_some_iff.mp hlines, hmade⟩
    · cases hread
  · rintro ⟨lines, hwritable, rfl, rfl⟩
    rw [ofJson, writtenLines?_eq_some_iff.mpr rfl]
    exact hwritable.ofLines?_eq

/-- The written form is an array of strings. -/
theorem plain_toJson (r : Rope) : r.toJson.Plain 1 := by
  intro item hitem
  obtain ⟨line, -, rfl⟩ := List.mem_map.mp hitem
  trivial

/-- A document that is written is read as one made of its lines. -/
theorem ofJson_toJson (h : Writable r.lines) : ofJson r.toJson = .ok (ofLines r.lines) :=
  ofJson_eq_ok_iff.mpr ⟨r.lines, h, rfl, rfl⟩

theorem deserialize_serialize {ω ε : Type} {format : Json.Format ω ε} (hformat : format.Faithful 1)
    (mistyped : Json → ε) (h : Writable r.lines) :
    ∃ form, r.serialize format = .ok form
      ∧ deserialize format mistyped form = .ok (ofLines r.lines) := by
  obtain ⟨form, hwrite, hform⟩ := hformat r.toJson (plain_toJson r)
  refine ⟨form, hwrite, ?_⟩
  rw [deserialize, hform]
  dsimp only [Bind.bind, Except.bind]
  rw [writtenLines?_toJson]
  dsimp only
  rw [h.ofLines?_eq]
  rfl

end Json

/-- A document that obeys a rule has the items of one that is made of its lines. -/
theorem Obeys.alike_ofLines {r : Rope} (hr : r.Obeys shareRule) : (ofLines r.lines).Alike r := by
  obtain ⟨hobeys, hlines⟩ := ofLines_spec Rule.builds_shareRule hr.lines_ne_nil
  exact ⟨hobeys, hr, congrArg Block.items hlines⟩

/-- Lines without breaks make a document as soon as there is one of them. It has these lines in this
order, and their number and length. No lines at all are refused, and nothing else is with the same
fault; of lines with breaks, the first one is told. A value is read as a document if and only if it
is an array of lines that make one. What is written of a document whose lines hold no breaks is read
as an equal document, and a data format that keeps what is written keeps the document. -/
theorem ofLines?_and_ofJson_spec {fits : Nat → Prop} :
    (∀ lines, Writable lines → ∃ r, ofLines? lines = .ok r ∧ r.lines = lines
        ∧ r.lineCount = lines.length ∧ r.length = Line.total lines)
      ∧ (∀ lines, ofLines? lines = .error .noLines ↔ lines = [])
      ∧ (∀ lines, (∃ line ∈ lines, '\n' ∈ line.toList) → ∃ front line back,
          lines = front ++ line :: back ∧ FirstBreak front line
            ∧ ofLines? lines = .error (.breakInLine front.length))
      ∧ (∀ v, (∃ r, ofJson v = .ok r) ↔ ∃ lines, Writable lines ∧ v = .arr (lines.map .str))
      ∧ ∀ r, Reachable fits r → (∀ line ∈ r.lines, '\n' ∉ line.toList) →
        ∃ s, ofJson r.toJson = .ok s ∧ (s == r) = true ∧ s.lines = r.lines
          ∧ ∀ {ω ε : Type} (format : Json.Format ω ε) (mistyped : Json → ε), format.Faithful 1 →
            ∃ form, r.serialize format = .ok form ∧ deserialize format mistyped form = .ok s := by
  refine ⟨fun lines hlines => ?_, fun lines => ofLines?_eq_noLines_iff, fun lines hbroken => ?_,
    fun v => ⟨?_, ?_⟩, fun r hr hunbroken => ?_⟩
  · exact ⟨_, hlines.ofLines?_eq, counts_ofLines hlines.some_line⟩
  · obtain ⟨front, line, back, rfl, hbreak⟩ := exists_firstBreak hbroken
    exact ⟨front, line, back, rfl, hbreak, hbreak.ofLines?_eq back⟩
  · rintro ⟨r, hread⟩
    obtain ⟨lines, hlines, hv, -⟩ := ofJson_eq_ok_iff.mp hread
    exact ⟨lines, hlines, hv⟩
  · rintro ⟨lines, hlines, hv⟩
    exact ⟨_, ofJson_eq_ok_iff.mpr ⟨lines, hlines, hv, rfl⟩⟩
  · have hwritable : Writable r.lines := ⟨hr.obeys.lines_ne_nil, hunbroken⟩
    have halike := hr.obeys.alike_ofLines
    exact ⟨_, ofJson_toJson hwritable, halike.beq, halike.lines_eq, fun format mistyped hformat =>
      deserialize_serialize hformat mistyped hwritable⟩

/-- Forty lines, which are cut into two leaves, and two lines of which the second holds a break. -/
theorem ofLines?_and_ofJson_spec_forty_lines :
    Writable (List.replicate 40 "x")
      ∧ (∃ r, ofLines? (List.replicate 40 "x") = .ok r ∧ r.lines = List.replicate 40 "x"
        ∧ r.lineCount = 40 ∧ r.length = 79
        ∧ ∃ s text, (s == r) = true ∧ r.serialize Json.text = .ok text
          ∧ deserialize Json.text (fun _ => none) text = .ok s)
      ∧ ∃ front line back, ["a", "b\nc"] = front ++ line :: back ∧ FirstBreak front line
        ∧ ofLines? ["a", "b\nc"] = .error (.breakInLine front.length) := by
  have hlines : Writable (List.replicate 40 "x") :=
    ⟨by decide, fun line hline => by rw [List.eq_of_mem_replicate hline]; decide⟩
  obtain ⟨hmake, -, hbreak, -, hreread⟩ := @ofLines?_and_ofJson_spec fun _ => True
  obtain ⟨r, hr, hrLines, hrCount, hrLength⟩ := hmake _ hlines
  obtain ⟨s, -, hsame, -, hkept⟩ := hreread r (.ofLines hr) (by rw [hrLines]; exact hlines.unbroken)
  obtain ⟨text, hwrite, hread⟩ := hkept Json.text (fun _ => none) (Json.text_faithful 1)
  exact ⟨hlines, ⟨r, hr, hrLines, hrCount, hrLength, s, text, hsame, hwrite, hread⟩,
    hbreak _ (by decide)⟩

end Rope

end TextRevision
