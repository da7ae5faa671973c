import TextRevision.Proofs.Line.Splitting
import TextRevision.Proofs.Rope.Codec
import TextRevision.Proofs.Rope.Rendering

/-!
# Documents spelled by strings

The text of a document is its lines with line feeds between them, whatever its tree. So a string
comes out of the document that it spells with a line feed for each of its breaks, and a document of
lines that hold no breaks is spelled by its own text, perhaps with another tree.

## Main statements

- `Rope.Obeys.toText_eq`: the text of a document joins its lines
- `Rope.lines_ofString`, `Rope.toText_ofString`
- `Rope.Obeys.split_toText`: a document spelled by its own text
- `Rope.split_and_ofString_spec`
-/

namespace TextRevision.Rope

variable {rule : Rule} {r : Rope}

/-- The whole text of a document joins its lines by line feeds. -/
theorem Obeys.toText_eq (h : r.Obeys rule) : r.toText = "\n".intercalate r.lines := by
  have hclip : clip r.length 0 r.length = (0, r.length) :=
    clip_of_le (Nat.zero_le r.length) le_rfl
  have hall : r.items.take r.length = r.items := by
    rw [← h.length_items, List.take_length]
  rw [← String.toList_inj, toText, toList_render h, hclip, Block.toList_intercalate, List.drop_zero,
    Nat.sub_zero, hall]
  rfl

theorem lines_ofString (s : String) (sep : Option String) :
    (ofString s sep).lines = Line.split s sep :=
  (counts_ofLines (Line.split_ne_nil s sep)).1

/-- The text of the document that a string spells is the string with a line feed for each break. -/
theorem toText_ofString (s : String) : (ofString s none).toText = Line.normalize s := by
  obtain ⟨hobeys, hlines⟩ := ofLines_spec Rule.builds_shareRule (Line.split_ne_nil s none)
  rw [ofString, hobeys.toText_eq, hlines, Line.intercalate_split_none]

/-- The text of a document whose lines hold no breaks spells these lines. -/
theorem Obeys.split_toText (h : r.Obeys rule)
    (hclean : ∀ line ∈ r.lines, Line.Clean line.toList) :
    Line.split r.toText none = r.lines := by
  rw [h.toText_eq, Line.split_none_intercalate h.lines_ne_nil hclean]

/-- The lines that a string is split into by default are some, hold no breaks, and are joined by
line feeds to the string with a line feed for each of its breaks, which is the text of the document
that the string spells. A document whose lines hold no breaks is equal to the one that its text
spells. The pieces between the occurrences of a separator do not hold it and are joined by it to
the string. -/
theorem split_and_ofString_spec {fits : Nat → Prop} :
    (∀ s, "\n".intercalate (Line.split s none) = Line.normalize s
        ∧ Line.split s none ≠ []
        ∧ (∀ line ∈ Line.split s none, '\r' ∉ line.toList ∧ '\n' ∉ line.toList)
        ∧ (ofString s none).toText = Line.normalize s)
      ∧ (∀ t, Reachable fits t → (∀ line ∈ t.lines, '\r' ∉ line.toList ∧ '\n' ∉ line.toList) →
          (ofString t.toText none == t) = true ∧ (ofString t.toText none).lines = t.lines)
      ∧ ∀ s sep, sep ≠ "" → sep.intercalate (Line.split s (some sep)) = s
          ∧ ∀ piece ∈ Line.split s (some sep), ¬ sep.toList <:+: piece.toList := by
  refine ⟨fun s => ⟨Line.intercalate_split_none s, Line.split_ne_nil s none, fun line hline => ?_,
    toText_ofString s⟩, fun t ht hlines => ?_, fun s sep hsep =>
      ⟨Line.intercalate_split_some s hsep, Line.not_infix_of_mem_split_some s hsep⟩⟩
  · have hclean := Line.clean_of_mem_split_none s line hline
    exact ⟨hclean.no_return, hclean.no_feed⟩
  · have hsplit : Line.split t.toText none = t.lines :=
      ht.obeys.split_toText fun line hline => ⟨(hlines line hline).1, (hlines line hline).2⟩
    have halike := ht.obeys.alike_ofLines
    rw [← hsplit] at halike
    exact ⟨halike.beq, halike.lines_eq⟩

/-- A string with breaks of each kind, three lines of which one is empty, and a separator that
overlaps itself. -/
theorem split_and_ofString_spec_three_lines :
    (ofString "a\r\n\rb\n" none).toText = "a\n\nb\n"
      ∧ ofLines? ["a", "", "b"] = .ok (ofBlock ["a", "", "b"])
      ∧ (ofString (ofBlock ["a", "", "b"]).toText none == ofBlock ["a", "", "b"]) = true
      ∧ "::".intercalate (Line.split "a:::b" (some "::")) = "a:::b"
      ∧ ∀ piece ∈ ["a", ":b"], ¬ [':', ':'] <:+: piece.toList := by
  have hlines : ofLines? ["a", "", "b"] = .ok (ofBlock ["a", "", "b"]) := rfl
  obtain ⟨hdefault, hspelled, hcustom⟩ := @split_and_ofString_spec fun _ => True
  obtain ⟨-, -, -, htext⟩ := hdefault "a\r\n\rb\n"
  obtain ⟨hsame, -⟩ := hspelled _ (.ofLines hlines) (by decide)
  obtain ⟨hjoined, hpieces⟩ := hcustom "a:::b" "::" (by decide)
  exact ⟨htext.trans (by decide +kernel), hlines, hsame, hjoined, hpieces⟩

end TextRevision.Rope
