import TextRevision.Proofs.Change.Rereading
import TextRevision.Proofs.Rope.Spelling

/-!
# Documents without breaks in their lines

Documents made of lines that are given, or read, hold no line feed within a line, and no operation
on documents or revisions brings one in: what it makes holds the characters of what it is made from.
Only a string can bring one in, if it is split at a separator of one's own. As long as each string
is split into pieces without line feeds, every document and every revision can be written and read
again.

## Main definitions

- `Line.Unbroken`: a string that is split into pieces without line feeds
- `Rope.Unbroken`: a document without line feeds in its lines

## Main statements

- `Rope.kept_unbroken`: every operation leads from such documents to such documents
- `Rope.unbroken_ofString_iff`
- `Rope.ReachableBy.unbroken_and_reread`
-/

namespace TextRevision

namespace Line

/-- No piece that a string is split into holds a line feed. -/
def Unbroken (s : String) (sep : Option String) : Prop :=
  ∀ piece ∈ split s sep, '\n' ∉ piece.toList

theorem unbroken_none (s : String) : Unbroken s none :=
  fun piece hpiece => (clean_of_mem_split_none s piece hpiece).no_feed

theorem unbroken_empty (s : String) : Unbroken s (some "") := by
  rw [Unbroken, split_empty]
  exact unbroken_none s

theorem unbroken_feed (s : String) : Unbroken s (some "\n") := by
  intro piece hpiece hfeed
  have hinfix : "\n".toList <:+: piece.toList := (List.singleton_infix_iff _ _).mpr hfeed
  exact not_infix_of_mem_split_some s (by decide) piece hpiece hinfix

/-- A string without line feeds is split into pieces without them. -/
theorem unbroken_of_not_mem {s : String} (h : '\n' ∉ s.toList) (sep : Option String) :
    Unbroken s sep := by
  cases sep with
  | none => exact unbroken_none s
  | some sep =>
    by_cases hsep : sep = ""
    · subst hsep
      exact unbroken_empty s
    · exact fun piece hpiece hfeed => h (subset_of_mem_split_some s hsep piece hpiece hfeed)

end Line

/-- The characters of lines are those among their items. -/
theorem Block.some_mem_items_iff {c : Char} {block : List String} :
    some c ∈ items block ↔ ∃ line ∈ block, c ∈ line.toList := by
  induction block with
  | nil => simp
  | cons line block ih =>
    by_cases hblock : block = []
    · simp [hblock, Line.items]
    · simp [items_cons line hblock, Line.items, ih]

namespace Rope

/-- A document without line feeds in its lines. -/
structure Unbroken (r : Rope) : Prop where
  obeys : r.Obeys shareRule
  lines : ∀ line ∈ r.lines, '\n' ∉ line.toList

variable {r text : Rope}

/-- Among the items of a document a line feed can only stand in a line. -/
theorem unbroken_iff : r.Unbroken ↔ r.Obeys shareRule ∧ some '\n' ∉ r.items := by
  have hlines : some '\n' ∉ r.items ↔ ∀ line ∈ r.lines, '\n' ∉ line.toList := by
    rw [items, Block.some_mem_items_iff]
    simp only [not_exists, not_and]
  rw [hlines]
  exact ⟨fun h => ⟨h.obeys, h.lines⟩, fun h => ⟨h.1, h.2⟩⟩

theorem Unbroken.writable (h : r.Unbroken) : Writable r.lines :=
  ⟨h.obeys.lines_ne_nil, h.lines⟩

theorem Unbroken.splice (hr : r.Unbroken) (ht : text.Unbroken) (start stop : Nat) :
    (r.splice start stop text).Unbroken := by
  rw [unbroken_iff] at hr ht ⊢
  obtain ⟨hspliced, -⟩ :=
    splice_spec Rule.builds_shareRule Rule.swaps_shareRule hr.1 ht.1 start stop
  refine ⟨hspliced.obey, ?_⟩
  rw [hspliced.items, List.mem_append, List.mem_append, not_or, not_or]
  exact ⟨⟨fun h => hr.2 (List.mem_of_mem_take h), ht.2⟩, fun h => hr.2 (List.mem_of_mem_drop h)⟩

theorem Unbroken.extract (hr : r.Unbroken) (start stop : Nat) :
    (r.extract start stop).Unbroken := by
  rw [unbroken_iff] at hr ⊢
  obtain ⟨hobeys, hitems⟩ := extract_spec Rule.builds_shareRule hr.1 start stop
  refine ⟨hobeys, fun h => hr.2 ?_⟩
  rw [hitems] at h
  exact List.mem_of_mem_drop (List.mem_of_mem_take h)

/-- Every operation on documents leads from those without line feeds in their lines to such. -/
theorem kept_unbroken : Kept Unbroken where
  ofLines? lines r h := by
    obtain ⟨hwritable, rfl⟩ := ofLines?_eq_ok_iff.mp h
    obtain ⟨hobeys, hlines⟩ := ofLines_spec Rule.builds_shareRule hwritable.some_line
    exact ⟨hobeys, hlines.symm ▸ hwritable.unbroken⟩
  splice _ start stop _ hr ht := hr.splice ht start stop
  extract _ start stop hr := hr.extract start stop
  child r children child hr hchildren hchild := by
    refine ⟨preserved_share.child r children child hr.obeys hchildren hchild, fun line hline => ?_⟩
    cases r with
    | leaf lines length => cases hchildren
    | branch children' length lineCount =>
      obtain rfl := Option.some.inj hchildren
      refine hr.lines line ?_
      rw [Rope.lines, linesOf_eq_flatMap]
      exact List.mem_flatMap.mpr ⟨child, hchild, hline⟩

/-- A string spells a document without line feeds in its lines if and only if it is split into
pieces without them. -/
theorem unbroken_ofString_iff {s : String} {sep : Option String} :
    (ofString s sep).Unbroken ↔ Line.Unbroken s sep := by
  rw [Line.Unbroken, ← lines_ofString]
  exact ⟨fun h => h.lines, fun h => ⟨preserved_share.ofString s sep, h⟩⟩

end Rope

/-- A revision that is written is read again, also through a data format, as long as its lines hold
no breaks and its lengths are within the limit. -/
theorem Revision.ObtainableBy.exists_reread {c : Revision}
    (hc : Revision.Obtainable (· ≤ lengthLimit) c) (hlines : c.AllTexts Rope.Unbroken) :
    ∃ d, Revision.ofJson c.toJson = .ok d ∧ d.same c = true
      ∧ d.inserted.map Rope.lines = c.inserted.map Rope.lines
      ∧ ∀ {ω ε : Type} (format : Json.Format ω ε), format.Faithful 2 →
        ∃ form, c.serialize format = .ok form ∧ Revision.deserialize format form = .ok d := by
  obtain ⟨hlength, hnew⟩ := hc.within
  have hinserted : ∀ text ∈ c.inserted, ∀ line ∈ text.lines, '\n' ∉ line.toList :=
    fun text htext => (Rope.kept_unbroken.inserted hlines text htext).lines
  have hread := (spells_toJson hc.sound hlength hnew hinserted).ofJson_eq
  rw [merge_ofSpan hc.sound hc.normalSpans.separate hnew] at hread
  obtain ⟨houtline, halike⟩ := reread_spec hc.sound hnew
  refine ⟨_, hread, ?_, Rope.Alike.map_lines_eq halike, fun format hformat => ?_⟩
  · rw [same, houtline, Rope.Alike.beq_list halike]
    simp
  · obtain ⟨form, hwrite, hform⟩ := hformat c.toJson (plain_toJson hlength)
    refine ⟨form, hwrite, ?_⟩
    rw [deserialize, hform]
    dsimp only [Bind.bind, Except.bind]
    rw [hread]
    rfl

/-- A document without line feeds in its lines is read again, also through a data format. -/
theorem Rope.Unbroken.exists_reread {r : Rope} (hr : r.Unbroken) :
    ∃ s, Rope.ofJson r.toJson = .ok s ∧ (s == r) = true ∧ s.lines = r.lines
      ∧ ∀ {ω ε : Type} (format : Json.Format ω ε) (mistyped : Json → ε), format.Faithful 1 →
        ∃ form, r.serialize format = .ok form ∧ Rope.deserialize format mistyped form = .ok s := by
  have halike := hr.obeys.alike_ofLines
  exact ⟨_, ofJson_toJson hr.writable, halike.beq, halike.lines_eq, fun format mistyped hformat =>
    deserialize_serialize hformat mistyped hr.writable⟩

/-- As long as each string is split into pieces without line feeds, every document has lines without
them, and is read again as an equal one when it is written. So is every revision, whose insertions
have such lines, within the limit of written changes. A string is split into such pieces by default,
at an empty separator, at line feeds, and wherever it holds none itself. If it is split into other
pieces, the document that it spells has a line feed in a line. -/
theorem Rope.ReachableBy.unbroken_and_reread {fits : Nat → Prop} :
    (∀ r, Rope.ReachableBy fits Line.Unbroken r →
        (∀ line ∈ r.lines, '\n' ∉ line.toList)
          ∧ ∃ s, Rope.ofJson r.toJson = .ok s ∧ (s == r) = true ∧ s.lines = r.lines
            ∧ ∀ {ω ε : Type} (format : Json.Format ω ε) (mistyped : Json → ε), format.Faithful 1 →
              ∃ form, r.serialize format = .ok form
                ∧ Rope.deserialize format mistyped form = .ok s)
      ∧ (∀ c, Revision.ObtainableBy fits Line.Unbroken c →
        ∀ text ∈ c.inserted, ∀ line ∈ text.lines, '\n' ∉ line.toList)
      ∧ (∀ c, Revision.ObtainableBy (· ≤ lengthLimit) Line.Unbroken c →
        ∃ d, Revision.ofJson c.toJson = .ok d ∧ d.same c = true
          ∧ d.inserted.map Rope.lines = c.inserted.map Rope.lines
          ∧ ∀ {ω ε : Type} (format : Json.Format ω ε), format.Faithful 2 →
            ∃ form, c.serialize format = .ok form ∧ Revision.deserialize format form = .ok d)
      ∧ (∀ s, Line.Unbroken s none ∧ Line.Unbroken s (some "") ∧ Line.Unbroken s (some "\n")
        ∧ ('\n' ∉ s.toList → ∀ sep, Line.Unbroken s sep))
      ∧ ∀ s sep, Line.Unbroken s sep
        ↔ ∀ line ∈ (Rope.ofString s sep).lines, '\n' ∉ line.toList := by
  have hstring : ∀ s sep, Line.Unbroken s sep → (Rope.ofString s sep).Unbroken :=
    fun s sep h => Rope.unbroken_ofString_iff.mpr h
  refine ⟨fun r hr => ?_, fun c hc text htext => ?_, fun c hc => ?_, fun s => ?_, fun s sep => ?_⟩
  · have hunbroken := hr.kept Rope.kept_unbroken hstring
    exact ⟨hunbroken.lines, hunbroken.exists_reread⟩
  · have htexts := hc.allTexts Rope.kept_unbroken hstring
    exact (Rope.kept_unbroken.inserted htexts text htext).lines
  · exact hc.obtainable.exists_reread (hc.allTexts Rope.kept_unbroken hstring)
  · exact ⟨Line.unbroken_none s, Line.unbroken_empty s, Line.unbroken_feed s,
      Line.unbroken_of_not_mem⟩
  · rw [Rope.lines_ofString]
    rfl

/-- Two lines that a string is split into at a bar. -/
theorem Rope.ReachableBy.unbroken_and_reread_two_lines :
    ∃ c r, Revision.ofEdit (.replace 0 0 (.string "a|b")) 0 (some "|") = .ok c
      ∧ Line.Unbroken "a|b" (some "|") ∧ c.apply Rope.empty = .ok r ∧ r.lines = ["a", "b"]
      ∧ (∃ s, Rope.ofJson r.toJson = .ok s ∧ s.lines = ["a", "b"])
      ∧ ∃ d, Revision.ofJson c.toJson = .ok d ∧ d.same c = true := by
  have hadmit : Line.Unbroken "a|b" (some "|") :=
    Line.unbroken_of_not_mem (by decide) (some "|")
  have hmake : Revision.ofEdit (.replace 0 0 (.string "a|b")) 0 (some "|")
      = .ok ⟨[⟨0, 3, Rope.ofBlock ["a", "b"]⟩]⟩ := by cbv
  have hc : Revision.ObtainableBy (· ≤ lengthLimit) Line.Unbroken
      ⟨[⟨0, 3, Rope.ofBlock ["a", "b"]⟩]⟩ :=
    .ofEdit (.string 0 0 hadmit) hmake (by decide) (by decide) ⟨by decide, by decide⟩
  have happly : Revision.apply ⟨[⟨0, 3, Rope.ofBlock ["a", "b"]⟩]⟩ Rope.empty
      = .ok (Rope.ofBlock ["a", "b"]) := rfl
  have hlines : (Rope.ofBlock ["a", "b"]).lines = ["a", "b"] := rfl
  obtain ⟨hdocs, -, hrevisions, -⟩ := @Rope.ReachableBy.unbroken_and_reread (· ≤ lengthLimit)
  obtain ⟨-, s, hread, -, hsLines, -⟩ := hdocs _ (.apply hc .empty happly)
  obtain ⟨d, hreread, hsame, -⟩ := hrevisions _ hc
  exact ⟨_, _, hmake, hadmit, happly, hlines, ⟨s, hread, hsLines.trans hlines⟩, d, hreread, hsame⟩

/-- A string with a line feed that is split at bars brings the line feed into a line: neither the
document nor the revision is read again. -/
theorem Rope.not_unbroken_and_reread :
    ∃ c r, Revision.ofEdit (.replace 0 0 (.string "a\nb")) 0 (some "|") = .ok c
      ∧ Revision.Obtainable (· ≤ lengthLimit) c ∧ c.apply Rope.empty = .ok r
      ∧ Rope.Reachable (· ≤ lengthLimit) r ∧ r.lines = ["a\nb"]
      ∧ Rope.ofJson r.toJson = .error (.breakInLine 0)
      ∧ Revision.ofJson c.toJson = .error (.malformedJson .revision) := by
  have hmake : Revision.ofEdit (.replace 0 0 (.string "a\nb")) 0 (some "|")
      = .ok ⟨[⟨0, 3, Rope.ofBlock ["a\nb"]⟩]⟩ := by cbv
  have hc : Revision.Obtainable (· ≤ lengthLimit) ⟨[⟨0, 3, Rope.ofBlock ["a\nb"]⟩]⟩ :=
    .ofEdit (.string 0 0 trivial) hmake (by decide) (by decide) ⟨by decide, by decide⟩
  have happly : Revision.apply ⟨[⟨0, 3, Rope.ofBlock ["a\nb"]⟩]⟩ Rope.empty
      = .ok (Rope.ofBlock ["a\nb"]) := rfl
  exact ⟨_, _, hmake, hc, happly, .apply hc .empty happly, rfl, rfl, rfl⟩

end TextRevision
