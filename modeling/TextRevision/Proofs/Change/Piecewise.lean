import TextRevision.Proofs.Change.Undoing

/-!
# Revisions made piece by piece

What a revision makes of a document is put together from one part for each of its spans: the range
of the document that a kept run covers, and the insertion of a replaced one. Applying a revision
never looks at the spans one by one, but replaces runs that touch at once, in a document that the
replacements in front have already changed. Without the bound on lengths, a span may insert more
than its count tells, and then applying drops the insertion.

## Main definitions

- `Revision.parts`: the parts of which a revision makes a document

## Main statements

- `Revision.run_drop_eq_parts`: the spans of a revision put the parts behind each other
- `Revision.Obtainable.apply_eq_parts`
-/

namespace TextRevision

/-- The parts that spans make of a document from place `pos` on. -/
def Revision.partsFrom (doc : Rope) : (pos : Nat) → List (Span Rope) → List Rope
  | _, [] => []
  | pos, s :: rest =>
    let stop := pos + s.length
    (if s.isKept then doc.extract pos stop else s.text) :: partsFrom doc stop rest

/-- The parts of which a revision makes a document: the range of a kept run, and the insertion of a
replaced one. -/
def Revision.parts (c : Revision) (doc : Rope) : List Rope :=
  partsFrom doc 0 c.spans

/-- The spans of a revision put the parts behind each other. -/
theorem Revision.run_drop_eq_parts {doc : Rope} (hdoc : doc.Obeys Rope.shareRule) (pos : Nat)
    (spans : List (Span Rope)) (hle : pos + sumBy Span.length spans ≤ doc.length) :
    Rope.reading.run spans (doc.items.drop pos) = (partsFrom doc pos spans).flatMap Rope.items := by
  induction spans generalizing pos with
  | nil => rfl
  | cons s spans ih =>
    rw [sumBy_cons] at hle
    have hrest := ih (pos + s.length) (by omega)
    have hrange := Rope.items_extract hdoc (Nat.le_add_right pos s.length) (by omega)
    rw [Nat.add_sub_cancel_left] at hrange
    rw [Reading.run_cons, partsFrom, List.flatMap_cons, List.drop_drop, hrest]
    congr 1
    rw [Reading.step]
    split
    · exact hrange.symm
    · rfl

/-- A revision makes of a document of its length the parts of its spans behind each other, and the
document that results has the new length. This is for lengths up to the limit of written changes. -/
theorem Revision.Obtainable.apply_eq_parts {fits : Nat → Prop} {c : Revision} {doc : Rope}
    (hc : Revision.Obtainable (· ≤ lengthLimit) c) (hdoc : Rope.Reachable fits doc)
    (hlength : doc.length = c.length) :
    ∃ r, c.apply doc = .ok r ∧ r.items = (c.parts doc).flatMap Rope.items
      ∧ r.length = c.newLength := by
  have hobeys := hdoc.obeys
  obtain ⟨r, hr, hrObeys, hrItems⟩ := Revision.apply_spec hc.sound hobeys hlength.symm
  refine ⟨r, hr, ?_, ?_⟩
  · have hparts := run_drop_eq_parts hobeys 0 c.spans
      (Nat.le_of_eq ((Nat.zero_add _).trans hlength.symm))
    rw [List.drop_zero] at hparts
    exact hrItems.trans hparts
  · rw [← hrObeys.length_items, hrItems]
    exact Reading.length_run hc.sound (hobeys.length_items.trans hlength)

/-- Three of six characters removed, and two inserted behind them. -/
theorem Revision.Obtainable.apply_eq_parts_six_characters :
    Rope.ofLines? ["ab", "def"] = .ok (Rope.ofBlock ["ab", "def"])
      ∧ ∃ r, removeThenInsert.apply (Rope.ofBlock ["ab", "def"]) = .ok r
        ∧ r.items = Block.items ["axyef"] ∧ r.length = 5 := by
  have hlines : Rope.ofLines? ["ab", "def"] = .ok (Rope.ofBlock ["ab", "def"]) := rfl
  have hdoc : Rope.Reachable (fun _ => True) (Rope.ofBlock ["ab", "def"]) := .ofLines hlines
  obtain ⟨r, hr, hitems, hlength⟩ :=
    Revision.Obtainable.apply_eq_parts obtainable_removeThenInsert hdoc rfl
  have hparts : (removeThenInsert.parts (Rope.ofBlock ["ab", "def"])).flatMap Rope.items
      = Block.items ["axyef"] := by
    cbv
  exact ⟨hlines, r, hr, hitems.trans hparts, hlength⟩

/-- Behind 2⁶³ kept characters, an insertion is joined to them and is not told of. -/
theorem obtainable_joined : Revision.Obtainable (fun _ => True)
    ⟨[⟨9223372036854775809, 0, Rope.ofBlock ["x"]⟩]⟩ :=
  .andThen (obtainable_removeBehind (n := 9223372036854775808) (by decide) fun _ _ => trivial)
    (obtainable_insertBehind (by decide) fun _ _ => trivial)
    (removeBehind_andThen_insertBehind (by decide) (by decide)) ⟨trivial, trivial⟩

/-- A revision that removes a character, and inserts one without telling of it. -/
def removeFilled : Revision :=
  ⟨[⟨1, 0, Rope.ofBlock ["x"]⟩]⟩

theorem obtainable_removeFilled : Revision.Obtainable (fun _ => True) removeFilled := by
  have hkeep : Revision.Obtainable (fun _ => True) (keepLast 9223372036854775808) :=
    obtainable_keepLast (by decide)
  exact .rebase false obtainable_joined (.outline hkeep)
    (replaced_rebase_keepLast (by decide) 0 (Rope.ofBlock ["x"])) ⟨trivial, trivial⟩

/-- What it inserts is missing where it is applied. -/
theorem Revision.Obtainable.not_apply_eq_parts :
    ∃ c doc, Revision.Obtainable (fun _ => True) c ∧ Rope.Reachable (fun _ => True) doc
      ∧ doc.length = c.length ∧ c.apply doc = .ok Rope.empty
      ∧ (c.parts doc).flatMap Rope.items = Block.items ["x"] := by
  have hlines : Rope.ofLines? ["q"] = .ok (Rope.ofBlock ["q"]) := rfl
  exact ⟨removeFilled, Rope.ofBlock ["q"], obtainable_removeFilled, .ofLines hlines, rfl, rfl, rfl⟩

end TextRevision
