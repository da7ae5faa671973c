import TextRevision.Proofs.ChangeSet.Dividing
import TextRevision.Proofs.ChangeSet.Edits

/-!
# Change sets that operations lead to

Where all lengths are within the limit of written changes, every change set that operations lead to
tells a revision that the same operations on revisions lead to. So it does what that revision does,
and the document that it makes is one that could be reached before.

## Main definitions

- `ChangeSet.Obtainable`: what is reached by operations on change sets, documents and outlines

## Main statements

- `ChangeSet.ofEdit_eq`: an edit makes a change set as it makes a revision
- `ChangeSet.Obtainable.exists_revision`
- `ChangeSet.Obtainable.apply_eq`
-/

namespace TextRevision

/-- A change set that operations lead to, all lengths on the way being fit. An edit takes a length
to be fit together with what it inserts. -/
inductive ChangeSet.Obtainable (fits : Nat → Prop) : ChangeSet → Prop
  | unchanged (length : Nat) : fits length → Obtainable fits (unchanged length)
  | ofEdit {edit : Edit ChangeSet} {length : Nat} {sep : Option String} {c : ChangeSet} :
    (∀ s, .revision s ∈ edit.atoms → Obtainable fits s) →
    (∀ start stop r, .replace start stop (.rope r) ∈ edit.atoms → Rope.Reachable fits r) →
    ofEdit edit length sep = .done c → fits (length + (edit.map revision).volume sep) →
    Obtainable fits c
  | ofJson {v : Json} {c : ChangeSet} :
    ofJson v = .done c → c.outline.Within fits →
    (∀ items, v.items? = some items → ∀ item ∈ items, ∀ s, Revision.part? item = some s →
      fits s.text.length) →
    Obtainable fits c
  | inverse {c d : ChangeSet} {doc : Rope} :
    Obtainable fits c → Rope.Reachable fits doc → c.inverse doc = .done d →
    d.outline.Within fits → Obtainable fits d
  | andThen {c d e : ChangeSet} :
    Obtainable fits c → Obtainable fits d → c.andThen d = .done e → e.outline.Within fits →
    Obtainable fits e
  | rebase {c e : ChangeSet} {d : Outline} (before : Bool) :
    Obtainable fits c → Outline.Obtainable fits d → c.rebase d before = .done e →
    e.outline.Within fits → Obtainable fits e
  | rebaseOver {c d e : ChangeSet} (before : Bool) :
    Obtainable fits c → Obtainable fits d → c.rebase d.outline before = .done e →
    e.outline.Within fits → Obtainable fits e
  | divide {c outside : ChangeSet} {inside : Outline} (ranges : List (Nat × Nat)) :
    Obtainable fits c → c.divide ranges = some (outside, inside) →
    outside.outline.Within fits → Obtainable fits outside

namespace Edit

variable {κ ι : Type}

mutual

/-- An edit is told by the change sets in it, whatever way these are kept. -/
theorem map_map (f : κ → ι) (g : ι → κ) : (e : Edit κ) →
    (∀ c, .revision c ∈ e.atoms → g (f c) = c) → (e.map f).map g = e
  | replace _ _ _, _ => rfl
  | revision c, h => congrArg revision (h c (List.mem_singleton.mpr rfl))
  | many edits, h => congrArg many (mapAll_mapAll f g edits h)

theorem mapAll_mapAll (f : κ → ι) (g : ι → κ) : (es : List (Edit κ)) →
    (∀ c, .revision c ∈ atomsOf es → g (f c) = c) → mapAll g (mapAll f es) = es
  | [], _ => rfl
  | e :: es, h =>
    congrArg₂ List.cons (map_map f g e fun c hc => h c (List.mem_append_left _ hc))
      (mapAll_mapAll f g es fun c hc => h c (List.mem_append_right _ hc))

end

theorem revision_mem_atoms_map {f : κ → ι} {e : Edit κ} {c : ι}
    (h : .revision c ∈ (e.map f).atoms) : ∃ s, .revision s ∈ e.atoms ∧ c = f s := by
  rw [atoms_map] at h
  obtain ⟨atom, hatom, heq⟩ := List.mem_map.mp h
  cases atom with
  | replace start stop text => cases heq
  | revision s =>
    rw [map, revision.injEq] at heq
    exact ⟨s, hatom, heq.symm⟩
  | many edits => cases heq

theorem replace_mem_atoms_map {f : κ → ι} {e : Edit κ} {start stop : Nat} {text : Inserted}
    (h : .replace start stop text ∈ (e.map f).atoms) : .replace start stop text ∈ e.atoms := by
  rw [atoms_map] at h
  obtain ⟨atom, hatom, heq⟩ := List.mem_map.mp h
  cases atom with
  | replace start' stop' text' =>
    rw [map, replace.injEq] at heq
    obtain ⟨rfl, rfl, rfl⟩ := heq
    exact hatom
  | revision s => cases heq
  | many edits => cases heq

mutual

/-- The edits that an edit consists of do not consist of others. -/
theorem many_notMem_atoms (edits : List (Edit κ)) : (e : Edit κ) → .many edits ∉ e.atoms
  | replace _ _ _ => by simp [atoms]
  | revision _ => by simp [atoms]
  | many es => many_notMem_atomsOf edits es

theorem many_notMem_atomsOf (edits : List (Edit κ)) :
    (es : List (Edit κ)) → .many edits ∉ atomsOf es
  | [] => List.not_mem_nil
  | e :: es => by
    rw [atomsOf, List.mem_append, not_or]
    exact ⟨many_notMem_atoms edits e, many_notMem_atomsOf edits es⟩

end

variable {fits : Nat → Prop} {admits : Admission} {sep : Option String}

mutual

/-- An edit is obtainable if the edits that it consists of are. -/
theorem obtainableBy_of_atoms : (e : Edit) →
    (∀ atom ∈ e.atoms, ObtainableBy fits admits sep atom) → ObtainableBy fits admits sep e
  | replace _ _ _, h => h _ (List.mem_singleton.mpr rfl)
  | revision _, h => h _ (List.mem_singleton.mpr rfl)
  | many edits, h => .many (obtainableBy_of_atomsOf edits h)

theorem obtainableBy_of_atomsOf : (es : List Edit) →
    (∀ atom ∈ atomsOf es, ObtainableBy fits admits sep atom) →
    ∀ e ∈ es, ObtainableBy fits admits sep e
  | [], _ => fun _ he => absurd he List.not_mem_nil
  | e :: es, h => by
    refine List.forall_mem_cons.mpr ⟨?_, ?_⟩
    · exact obtainableBy_of_atoms e fun atom hatom => h atom (List.mem_append_left _ hatom)
    · exact obtainableBy_of_atomsOf es fun atom hatom => h atom (List.mem_append_right _ hatom)

end

end Edit

theorem Change.within_unchanged {α : Type} [Insertion α] {fits : Nat → Prop} {length : Nat}
    (h : fits length) : (Change.unchanged length : Change α).Within fits := by
  rw [Change.Within, Change.length, Change.newLength, Change.unchanged]
  dsimp only
  split
  · exact ⟨h, h⟩
  · next hzero =>
    obtain rfl := Nat.eq_zero_of_not_pos hzero
    exact ⟨h, h⟩

namespace ChangeSet

variable {fits : Nat → Prop}

/-- A change set that tells a revision which operations on revisions lead to. -/
def TellsObtainable (s : ChangeSet) : Prop :=
  ∃ c, Revision.Obtainable (· ≤ lengthLimit) c ∧ s = ofRevision c

theorem TellsObtainable.revision {s : ChangeSet} (h : s.TellsObtainable) :
    Revision.Obtainable (· ≤ lengthLimit) s.revision ∧ ofRevision s.revision = s := by
  obtain ⟨c, hc, rfl⟩ := h
  rw [revision_ofRevision (obeys_of_sound hc.sound)]
  exact ⟨hc, rfl⟩

theorem exists_of_done {x : Except Fault Revision} {s : ChangeSet}
    (h : Checked.ofExcept (x.map ofRevision) = .done s) : ∃ c, x = .ok c ∧ s = ofRevision c := by
  cases x with
  | error fault => cases h
  | ok c => exact ⟨c, rfl, (Checked.done.inj h).symm⟩

theorem within_revision {c : Revision} (h : (ofRevision c).outline.Within fits) :
    c.Within fits := by
  rwa [Change.Within, ← Change.length_outline, ← Change.newLength_outline]

/-- The revisions in an edit are obtainable if they are what its change sets tell. -/
theorem obtainable_of_mem_atoms {edit : Edit ChangeSet}
    (hsets : ∀ s, .revision s ∈ edit.atoms → s.TellsObtainable) {c : Revision}
    (hc : .revision c ∈ (edit.map revision).atoms) : Revision.Obtainable (· ≤ lengthLimit) c := by
  obtain ⟨s, hs, rfl⟩ := Edit.revision_mem_atoms_map hc
  exact (hsets s hs).revision.1

/-- An edit of obtainable change sets is one of obtainable revisions. -/
theorem obtainableBy_map {edit : Edit ChangeSet} (sep : Option String)
    (hsets : ∀ s, .revision s ∈ edit.atoms → s.TellsObtainable)
    (htexts : ∀ start stop r, .replace start stop (.rope r) ∈ edit.atoms →
      Rope.Reachable (· ≤ lengthLimit) r) :
    Edit.ObtainableBy (· ≤ lengthLimit) admitAll sep (edit.map revision) := by
  refine Edit.obtainableBy_of_atoms _ fun atom hatom => ?_
  cases atom with
  | replace start stop text =>
    cases text with
    | nothing => exact .nothing start stop
    | string s => exact .string start stop trivial
    | rope r => exact .rope start stop (htexts start stop r (Edit.replace_mem_atoms_map hatom))
  | revision c => exact .revision (obtainable_of_mem_atoms hsets hatom)
  | many edits => exact absurd hatom (Edit.many_notMem_atoms _ _)

/-- An edit makes a change set as it makes a revision, whatever length the documents have that are
inserted: only the number of their characters counts. -/
theorem ofEdit_eq {edit : Edit ChangeSet} {length : Nat} {sep : Option String}
    (hsets : ∀ s, .revision s ∈ edit.atoms → s.TellsObtainable)
    (htexts : ∀ start stop r, .replace start stop (.rope r) ∈ edit.atoms → Rope.Reachable fits r)
    (hlimit : length + (edit.map revision).volume sep ≤ lengthLimit) :
    ofEdit edit length sep
      = .ofExcept ((Revision.ofEdit (edit.map revision) length sep).map ofRevision) := by
  have hatoms : ∀ atom ∈ (edit.map revision).atoms,
      Rope.Preserved.AtomTexts (Rope.Obeys Rope.shareRule) atom := by
    intro atom hatom
    cases atom with
    | replace start stop text =>
      cases text with
      | nothing => trivial
      | string s => trivial
      | rope r => exact (htexts start stop r (Edit.replace_mem_atoms_map hatom)).obeys
    | revision c => exact (obtainable_of_mem_atoms hsets hatom).texts Rope.preserved_share
    | many edits => trivial
  have hmap := ofEdit_map hatoms (fun _ hc => (obtainable_of_mem_atoms hsets hc).sound)
    (fun _ hc => (obtainable_of_mem_atoms hsets hc).within) hlimit
  rwa [Edit.map_map _ _ _ fun s hs => (hsets s hs).revision.2] at hmap

/-- Within the limit of written changes, a change set that operations lead to tells a revision that
the same operations lead to. -/
theorem Obtainable.exists_revision {s : ChangeSet} :
    Obtainable (· ≤ lengthLimit) s → s.TellsObtainable
  | .unchanged length hfits => by
    exact ⟨_, .unchanged length (Change.within_unchanged hfits), unchanged_eq length⟩
  | @Obtainable.ofEdit _ edit length sep _ hsets htexts h hfits => by
    have htold : ∀ s, .revision s ∈ edit.atoms → s.TellsObtainable :=
      fun s hs => (hsets s hs).exists_revision
    have hedit := obtainableBy_map sep htold htexts
    rw [ofEdit_eq htold htexts hfits] at h
    obtain ⟨c, hc, rfl⟩ := exists_of_done h
    obtain ⟨hlength, hvolume⟩ := Revision.length_of_ofEdit
      (fun c hc s hs => (hedit.sound c hc s hs).marked) (by omega) hc
    have hnew := c.newLength_le
    refine ⟨c, .ofEdit hedit hc ?_ ?_ ⟨?_, ?_⟩, rfl⟩
    · omega
    · omega
    · omega
    · omega
  | .ofJson h hwithin hfits => by
    rw [ofJson_eq hfits] at h
    obtain ⟨c, hc, rfl⟩ := exists_of_done h
    exact ⟨c, .ofJson hc (within_revision hwithin) hfits, rfl⟩
  | .inverse hset hdoc h hwithin => by
    obtain ⟨c, hc, rfl⟩ := hset.exists_revision
    rw [inverse_ofRevision hc.within] at h
    obtain ⟨d, hd, rfl⟩ := exists_of_done h
    exact ⟨d, .inverse hc hdoc hd (within_revision hwithin), rfl⟩
  | .andThen hset hset' h hwithin => by
    obtain ⟨c, hc, rfl⟩ := hset.exists_revision
    obtain ⟨d, hd, rfl⟩ := hset'.exists_revision
    rw [andThen_ofRevision hc.sound hd.sound hc.within hd.within] at h
    obtain ⟨e, he, rfl⟩ := exists_of_done h
    exact ⟨e, .andThen hc hd he (within_revision hwithin), rfl⟩
  | .rebase before hset hd h hwithin => by
    obtain ⟨c, hc, rfl⟩ := hset.exists_revision
    rw [rebase_ofRevision hc.sound (fun s hs => (hd.sound s hs).marked) hc.within hd.within] at h
    obtain ⟨e, he, rfl⟩ := exists_of_done h
    exact ⟨e, .rebase before hc hd he (within_revision hwithin), rfl⟩
  | .rebaseOver before hset hset' h hwithin => by
    obtain ⟨c, hc, rfl⟩ := hset.exists_revision
    obtain ⟨d, hd, rfl⟩ := hset'.exists_revision
    have hover : Outline.Obtainable (· ≤ lengthLimit) d.outline := .outline hd
    rw [show (ofRevision d).outline = d.outline from rfl, rebase_ofRevision hc.sound
      (fun s hs => (hover.sound s hs).marked) hc.within hover.within] at h
    obtain ⟨e, he, rfl⟩ := exists_of_done h
    exact ⟨e, .rebase before hc hover he (within_revision hwithin), rfl⟩
  | .divide ranges hset h hwithin => by
    obtain ⟨c, hc, rfl⟩ := hset.exists_revision
    rw [divide_ofRevision hc.sound hc.within] at h
    obtain ⟨rfl, -⟩ := Prod.mk.inj (Option.some.inj h)
    exact ⟨_, .divide ranges hc (within_revision hwithin), rfl⟩

/-- Such a change set is made to a document as its revision is. -/
theorem Obtainable.apply_eq {s : ChangeSet} (h : Obtainable (· ≤ lengthLimit) s) (doc : Rope) :
    s.apply doc = .ofExcept (s.revision.apply doc) := by
  obtain ⟨c, hc, rfl⟩ := h.exists_revision
  rw [apply, revision_ofRevision (obeys_of_sound hc.sound),
    show (ofRevision c).outline = c.outline from rfl,
    (Change.within_outline hc.within).length?_eq, (Change.within_outline hc.within).newLength?_eq,
    Change.length_outline, Revision.apply]
  simp only [Checked.lift_some, Checked.done_bind, Checked.fits_eq]
  rw [Change.fits]
  split <;> rfl

/-- The document that such a change set makes is one that operations lead to. -/
theorem Obtainable.reachable_of_apply {s : ChangeSet} {doc r : Rope}
    (h : Obtainable (· ≤ lengthLimit) s) (hdoc : Rope.Reachable (· ≤ lengthLimit) doc)
    (hr : s.apply doc = .done r) : Rope.Reachable (· ≤ lengthLimit) r := by
  rw [h.apply_eq] at hr
  cases hdone : s.revision.apply doc with
  | error fault =>
    rw [hdone] at hr
    cases hr
  | ok r' =>
    rw [hdone] at hr
    obtain rfl := Checked.done.inj hr
    exact .apply h.exists_revision.revision.1 hdoc hdone

section Behind

variable {n : Nat}

theorem push?_keep (hpos : 0 < n) (h : n < wordCount) :
    Ledger.push? false (.blank : Ledger Rope) (.keep n) = some ⟨[⟨n, Span.keptMark, ()⟩], []⟩ :=
  Ledger.push?_alone (Span.isVoid_eq_false_iff.mpr (Or.inl hpos))
    ⟨h, by simp [Span.keep, Span.shape, Span.map, Span.keptMark, signBound],
      by simp [Span.keep, Span.shape, Span.map, Span.keptMark, signBound]⟩ (by simp [Ledger.blank])

/-- A change set that removes a character behind `n` others. -/
theorem obtainable_removeBehind (hpos : 0 < n) (h : n + 1 < wordCount)
    (hfits : ∀ m ≤ n + 1, fits m) : Obtainable fits (ofRevision (removeBehind n)) := by
  have hword : signedWord Rope.empty.length = 0 := by decide
  have hreplaced : Ledger.push? false ⟨[⟨n, Span.keptMark, ()⟩], []⟩
        (Span.replace (n + 1 - n) (Inserted.nothing.toRope none))
      = some ⟨[⟨1, 0, ()⟩, ⟨n, Span.keptMark, ()⟩], []⟩ := by
    rw [Nat.add_sub_cancel_left, Inserted.toRope, Span.replace, hword]
    rfl
  have hbatch : Ledger.push? false (⟨[⟨1, 0, ()⟩, ⟨n, Span.keptMark, ()⟩], []⟩ : Ledger Rope)
        (.keep (n + 1 - (n + 1)))
      = some ⟨[⟨1, 0, ()⟩, ⟨n, Span.keptMark, ()⟩], []⟩ := by
    rw [Nat.sub_self]
    rfl
  have hmake := ofEdit_replace (Nat.le_succ n) (Nat.le_refl _) (by simp)
    (push?_keep hpos (Nat.lt_of_succ_lt h)) hreplaced hbatch
  exact .ofEdit (by simp [Edit.atoms]) (by simp [Edit.atoms]) hmake (hfits _ (Nat.le_refl _))

/-- A change set that inserts a character behind `n` others. -/
theorem obtainable_insertBehind (hpos : 0 < n) (h : n < wordCount)
    (hfits : ∀ m ≤ n + 1, fits m) : Obtainable fits (ofRevision (insertBehind n)) := by
  have htext : Rope.ofString "x" none = Rope.ofBlock ["x"] := rfl
  have hword : signedWord (Rope.ofBlock ["x"]).length = 1 := by decide
  have hreplaced : Ledger.push? false ⟨[⟨n, Span.keptMark, ()⟩], []⟩
        (Span.replace (n - n) ((Inserted.string "x").toRope none))
      = some ⟨[⟨0, 1, ()⟩, ⟨n, Span.keptMark, ()⟩], [Rope.empty, Rope.ofBlock ["x"]]⟩ := by
    rw [Nat.sub_self, Inserted.toRope, htext, Span.replace, hword]
    exact Ledger.push?_alone (by decide) (by decide) (by simp; omega)
  have hbatch : Ledger.push? false
        ⟨[⟨0, 1, ()⟩, ⟨n, Span.keptMark, ()⟩], [Rope.empty, Rope.ofBlock ["x"]]⟩ (.keep (n - n))
      = some ⟨[⟨0, 1, ()⟩, ⟨n, Span.keptMark, ()⟩], [Rope.empty, Rope.ofBlock ["x"]]⟩ := by
    rw [Nat.sub_self]
    rfl
  have hsome : ¬ (n = n ∧ ((Inserted.string "x").toRope none).isEmpty = true) := by
    rintro ⟨-, hempty⟩
    cases hempty
  have hmake := ofEdit_replace (Nat.le_refl n) (Nat.le_refl n) hsome (push?_keep hpos h) hreplaced
    hbatch
  exact .ofEdit (by simp [Edit.atoms]) (by simp [Edit.atoms]) hmake (hfits _ (Nat.le_refl _))

theorem revision_removeBehind : (ofRevision (removeBehind n)).revision = removeBehind n := rfl

theorem revision_insertBehind : (ofRevision (insertBehind n)).revision = insertBehind n := rfl

end Behind

end ChangeSet

end TextRevision
