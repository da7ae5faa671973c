import TextRevision.Proofs.Change.Run
import TextRevision.Proofs.Change.Texts

/-!
# What can be reached

Documents, edits, revisions and outlines are reached by any finite number of operations from lines,
strings and written forms. The documents that a revision inserts can be taken out of it again, and
the texts that a revision is made from are documents that were reached before.

All this is held to lengths that are fit. Where every length is, there is no restriction; a
statement that rests on signed words asks for lengths up to `lengthLimit`, to which written changes
are held.

## Main definitions

- `Rope.ReachableBy`, `Edit.ObtainableBy`, `Revision.ObtainableBy`, `Outline.Obtainable`: what is
  reached by operations that split only strings that are admitted
- `Rope.Reachable`, `Edit.Obtainable`, `Revision.Obtainable`: where all strings are

## Main statements

- `Rope.ReachableBy.reachable`: what is reached with admitted strings is reached
- `Rope.ReachableBy.kept`: a property that operations keep and admitted strings have
- `Rope.ReachableBy.preserved`: a property that every operation keeps holds of reachable documents
-/

namespace TextRevision

/-- The number of characters that an edit which does not consist of others inserts, strings being
split at `sep`. -/
def Edit.atomVolume (sep : Option String) : Edit → Nat
  | .replace _ _ text => (text.toRope sep).length
  | .revision c => c.volume
  | .many _ => 0

/-- The number of characters that an edit inserts. -/
def Edit.volume (sep : Option String) (e : Edit) : Nat :=
  sumBy (Edit.atomVolume sep) e.atoms

/-- The lengths of both documents of a change are fit. -/
def Change.Within {α : Type} (fits : Nat → Prop) (c : Change α) : Prop :=
  fits c.length ∧ fits c.newLength

/-- Which strings may be split, and at which separators. -/
abbrev Admission := String → Option String → Prop

/-- All strings are admitted, at any separator. -/
def admitAll : Admission :=
  fun _ _ => True

mutual

/-- A document that operations lead to which split only those strings that are admitted at the
separator. -/
inductive Rope.ReachableBy (fits : Nat → Prop) : (admits : Admission) → Rope → Prop
  | empty {admits : Admission} : Rope.ReachableBy fits admits Rope.empty
  | ofLines {admits : Admission} {lines : List String} {r : Rope} :
    Rope.ofLines? lines = .ok r → Rope.ReachableBy fits admits r
  | ofString {admits : Admission} {s : String} {sep : Option String} :
    admits s sep → Rope.ReachableBy fits admits (Rope.ofString s sep)
  | ofJson {admits : Admission} {v : Json} {r : Rope} :
    Rope.ofJson v = .ok r → Rope.ReachableBy fits admits r
  | splice {admits : Admission} {r text : Rope} (start stop : Nat) :
    Rope.ReachableBy fits admits r → Rope.ReachableBy fits admits text →
    Rope.ReachableBy fits admits (r.splice start stop text)
  | append {admits : Admission} {r text : Rope} :
    Rope.ReachableBy fits admits r → Rope.ReachableBy fits admits text →
    Rope.ReachableBy fits admits (r.append text)
  | extract {admits : Admission} {r : Rope} (start stop : Nat) :
    Rope.ReachableBy fits admits r → Rope.ReachableBy fits admits (r.extract start stop)
  | child {admits : Admission} {r child : Rope} {children : List Rope} :
    Rope.ReachableBy fits admits r → r.children? = some children → child ∈ children →
    Rope.ReachableBy fits admits child
  | apply {admits : Admission} {c : Revision} {doc r : Rope} :
    Revision.ObtainableBy fits admits c → Rope.ReachableBy fits admits doc → c.apply doc = .ok r →
    Rope.ReachableBy fits admits r
  | inserted {admits : Admission} {c : Revision} {text : Rope} :
    Revision.ObtainableBy fits admits c → text ∈ c.inserted → Rope.ReachableBy fits admits text
  | replacement {admits : Admission} {c : Revision} {r : Replacement Rope} (each : Bool) :
    Revision.ObtainableBy fits admits c → r ∈ c.replacements each →
    Rope.ReachableBy fits admits r.text

/-- An edit with texts that such operations lead to, and with strings that are admitted at the
separator at which they are to be split. -/
inductive Edit.ObtainableBy (fits : Nat → Prop) :
    (admits : Admission) → (sep : Option String) → Edit → Prop
  | nothing {admits : Admission} {sep : Option String} (start stop : Nat) :
    Edit.ObtainableBy fits admits sep (.replace start stop .nothing)
  | string {admits : Admission} {s : String} {sep : Option String} (start stop : Nat) :
    admits s sep → Edit.ObtainableBy fits admits sep (.replace start stop (.string s))
  | rope {admits : Admission} {r : Rope} {sep : Option String} (start stop : Nat) :
    Rope.ReachableBy fits admits r →
    Edit.ObtainableBy fits admits sep (.replace start stop (.rope r))
  | revision {admits : Admission} {c : Revision} {sep : Option String} :
    Revision.ObtainableBy fits admits c → Edit.ObtainableBy fits admits sep (.revision c)
  | many {admits : Admission} {edits : List Edit} {sep : Option String} :
    (∀ e ∈ edits, Edit.ObtainableBy fits admits sep e) →
    Edit.ObtainableBy fits admits sep (.many edits)

/-- A revision that such operations lead to. -/
inductive Revision.ObtainableBy (fits : Nat → Prop) : (admits : Admission) → Revision → Prop
  | unchanged {admits : Admission} (length : Nat) :
    Change.Within fits (Change.unchanged length : Revision) →
    Revision.ObtainableBy fits admits (Change.unchanged length)
  | ofEdit {admits : Admission} {edit : Edit} {length : Nat} {sep : Option String} {c : Revision} :
    Edit.ObtainableBy fits admits sep edit → Revision.ofEdit edit length sep = .ok c →
    fits length → fits (edit.volume sep) → c.Within fits → Revision.ObtainableBy fits admits c
  | ofJson {admits : Admission} {v : Json} {c : Revision} :
    Revision.ofJson v = .ok c → c.Within fits →
    (∀ items, v.items? = some items → ∀ item ∈ items, ∀ s, Revision.part? item = some s →
      fits s.text.length) →
    Revision.ObtainableBy fits admits c
  | inverse {admits : Admission} {c d : Revision} {doc : Rope} :
    Revision.ObtainableBy fits admits c → Rope.ReachableBy fits admits doc →
    c.inverse doc = .ok d → d.Within fits → Revision.ObtainableBy fits admits d
  | andThen {admits : Admission} {c d e : Revision} :
    Revision.ObtainableBy fits admits c → Revision.ObtainableBy fits admits d →
    c.andThen d = .ok e → e.Within fits → Revision.ObtainableBy fits admits e
  | rebase {admits : Admission} {c e : Revision} {d : Outline} (before : Bool) :
    Revision.ObtainableBy fits admits c → Outline.Obtainable fits d → c.rebase d before = .ok e →
    e.Within fits → Revision.ObtainableBy fits admits e
  | divide {admits : Admission} {c : Revision} (ranges : List (Nat × Nat)) :
    Revision.ObtainableBy fits admits c → (c.divide ranges).outside.Within fits →
    Revision.ObtainableBy fits admits (c.divide ranges).outside

/-- An outline that operations lead to, whatever strings they split. -/
inductive Outline.Obtainable (fits : Nat → Prop) : Outline → Prop
  | outline {c : Revision} :
    Revision.ObtainableBy fits admitAll c → Outline.Obtainable fits c.outline
  | ofJson {v : Json} {d : Outline} :
    Outline.ofJson v = .ok d → d.Within fits → Outline.Obtainable fits d
  | inverse {d : Outline} :
    Outline.Obtainable fits d → d.inverse.Within fits → Outline.Obtainable fits d.inverse
  | andThen {c d e : Outline} :
    Outline.Obtainable fits c → Outline.Obtainable fits d → c.andThen d = .ok e →
    e.Within fits → Outline.Obtainable fits e
  | rebase {c d e : Outline} (before : Bool) :
    Outline.Obtainable fits c → Outline.Obtainable fits d → c.rebase d before = .ok e →
    e.Within fits → Outline.Obtainable fits e
  | divide {c : Revision} (ranges : List (Nat × Nat)) :
    Revision.ObtainableBy fits admitAll c → (c.divide ranges).inside.Within fits →
    Outline.Obtainable fits (c.divide ranges).inside

end

/-- A document that operations lead to. -/
abbrev Rope.Reachable (fits : Nat → Prop) (r : Rope) : Prop :=
  Rope.ReachableBy fits admitAll r

/-- An edit with texts that operations lead to, strings being split at any separator. -/
abbrev Edit.Obtainable (fits : Nat → Prop) (e : Edit) : Prop :=
  ∀ sep, Edit.ObtainableBy fits admitAll sep e

/-- A revision that operations lead to. -/
abbrev Revision.Obtainable (fits : Nat → Prop) (c : Revision) : Prop :=
  Revision.ObtainableBy fits admitAll c

theorem Edit.mem_atomsOf {atom : Edit} {edits : List Edit} (h : atom ∈ Edit.atomsOf edits) :
    ∃ e ∈ edits, atom ∈ e.atoms := by
  induction edits with
  | nil => simp [Edit.atomsOf] at h
  | cons e edits ih =>
    rw [Edit.atomsOf] at h
    rcases List.mem_append.mp h with h | h
    · exact ⟨e, by simp, h⟩
    · obtain ⟨e', he', h⟩ := ih h
      exact ⟨e', by simp [he'], h⟩

section Admitting

variable {admits : Admission} {fits : Nat → Prop}

mutual

/-- What is reached with admitted strings is reached. -/
theorem Rope.ReachableBy.reachable {r : Rope} :
    Rope.ReachableBy fits admits r → Rope.Reachable fits r
  | .empty => .empty
  | .ofLines h => .ofLines h
  | .ofString _ => .ofString trivial
  | .ofJson h => .ofJson h
  | .splice start stop hr ht => .splice start stop hr.reachable ht.reachable
  | .append hr ht => .append hr.reachable ht.reachable
  | .extract start stop hr => .extract start stop hr.reachable
  | .child hr hchildren hchild => .child hr.reachable hchildren hchild
  | .apply hc hdoc h => .apply hc.obtainable hdoc.reachable h
  | .inserted hc h => .inserted hc.obtainable h
  | .replacement each hc h => .replacement each hc.obtainable h

theorem Edit.ObtainableBy.obtainable {sep : Option String} {e : Edit} :
    Edit.ObtainableBy fits admits sep e → Edit.ObtainableBy fits admitAll sep e
  | .nothing start stop => .nothing start stop
  | .string start stop _ => .string start stop trivial
  | .rope start stop hr => .rope start stop hr.reachable
  | .revision hc => .revision hc.obtainable
  | .many hedits => .many fun e he => (hedits e he).obtainable

theorem Revision.ObtainableBy.obtainable {c : Revision} :
    Revision.ObtainableBy fits admits c → Revision.Obtainable fits c
  | .unchanged length hfits => .unchanged length hfits
  | .ofEdit hedit h hlength hvolume hfits => .ofEdit hedit.obtainable h hlength hvolume hfits
  | .ofJson h hfits hparts => .ofJson h hfits hparts
  | .inverse hc hdoc h hfits => .inverse hc.obtainable hdoc.reachable h hfits
  | .andThen hc hd h hfits => .andThen hc.obtainable hd.obtainable h hfits
  | .rebase before hc hd h hfits => .rebase before hc.obtainable hd h hfits
  | .divide ranges hc hfits => .divide ranges hc.obtainable hfits

end

variable {P : Rope → Prop}

mutual

/-- A property that every operation keeps, and that admitted strings have when they are split, holds
of every document that is reached with them. -/
theorem Rope.ReachableBy.kept (hP : Rope.Kept P)
    (hstring : ∀ s sep, admits s sep → P (Rope.ofString s sep)) {r : Rope} :
    Rope.ReachableBy fits admits r → P r
  | .empty => hP.empty
  | .ofLines h => hP.ofLines? _ _ h
  | .ofString h => hstring _ _ h
  | .ofJson h => hP.ofJson h
  | .splice start stop hr ht => hP.splice _ start stop _ (hr.kept hP hstring) (ht.kept hP hstring)
  | .append hr ht => hP.append (hr.kept hP hstring) (ht.kept hP hstring)
  | .extract start stop hr => hP.extract _ start stop (hr.kept hP hstring)
  | .child hr hchildren hchild => hP.child _ _ _ (hr.kept hP hstring) hchildren hchild
  | .apply hc hdoc h => hP.apply (hc.allTexts hP hstring) (hdoc.kept hP hstring) h
  | .inserted hc h => hP.inserted (hc.allTexts hP hstring) _ h
  | .replacement each hc h => hP.text_replacement (hc.allTexts hP hstring) each _ h

theorem Edit.ObtainableBy.atomTexts (hP : Rope.Kept P)
    (hstring : ∀ s sep, admits s sep → P (Rope.ofString s sep)) {sep : Option String} {e : Edit} :
    Edit.ObtainableBy fits admits sep e → ∀ atom ∈ e.atoms, atom.AtomTexts P sep
  | .nothing start stop => List.forall_mem_singleton.mpr hP.empty
  | .string start stop h => List.forall_mem_singleton.mpr (hstring _ _ h)
  | .rope start stop hr => List.forall_mem_singleton.mpr (hr.kept hP hstring)
  | .revision hc => List.forall_mem_singleton.mpr (hc.allTexts hP hstring)
  | .many hedits => by
    intro atom hatom
    obtain ⟨e, he, hatom⟩ := Edit.mem_atomsOf hatom
    exact (hedits e he).atomTexts hP hstring atom hatom

/-- So it does of the texts of every revision that is obtained with them. -/
theorem Revision.ObtainableBy.allTexts (hP : Rope.Kept P)
    (hstring : ∀ s sep, admits s sep → P (Rope.ofString s sep)) {c : Revision} :
    Revision.ObtainableBy fits admits c → c.AllTexts P
  | .unchanged length _ => hP.allTexts_unchanged length
  | .ofEdit hedit h _ _ _ => hP.allTexts_ofEdit (hedit.atomTexts hP hstring) h
  | .ofJson h _ _ => hP.allTexts_ofJson h
  | .inverse _ hdoc h _ => hP.allTexts_inverse (hdoc.kept hP hstring) h
  | .andThen hc hd h _ => (hc.allTexts hP hstring).andThen hP.closed (hd.allTexts hP hstring) h
  | .rebase _ hc _ h _ => (hc.allTexts hP hstring).rebase hP.closed h
  | .divide ranges hc _ => (hc.allTexts hP hstring).divide hP.closed ranges

end

/-- A property that every operation keeps holds of every document that operations lead to. -/
theorem Rope.ReachableBy.preserved (hP : Rope.Preserved P) {r : Rope}
    (h : Rope.ReachableBy fits admits r) : P r :=
  h.kept hP.kept fun s sep _ => hP.ofString s sep

theorem Edit.ObtainableBy.texts (hP : Rope.Preserved P) {sep : Option String} {e : Edit}
    (h : Edit.ObtainableBy fits admits sep e) :
    ∀ atom ∈ e.atoms, Rope.Preserved.AtomTexts P atom :=
  fun atom hatom => Rope.Preserved.atomTexts_of
    (h.atomTexts hP.kept (fun s sep _ => hP.ofString s sep) atom hatom)

/-- A property that every operation keeps holds of the texts of every revision that operations lead
to. -/
theorem Revision.ObtainableBy.texts (hP : Rope.Preserved P) {c : Revision}
    (h : Revision.ObtainableBy fits admits c) : c.AllTexts P :=
  h.allTexts hP.kept fun s sep _ => hP.ofString s sep

end Admitting

end TextRevision
