import TextRevision.Proofs.ChangeSet.Obtainable

/-!
# Which edits make change sets

An edit makes a change set of a document exactly if it lies in the document, as long as the length
of the document and the number of characters that it inserts are within the limit of written changes
together. Otherwise its first fault is reported, from left to right. Between the batches of an edit
nothing can be refused.

Without the limit an edit can break off although the document that it leads to is no longer than the
old one: each batch is put behind the others in the order told, and one that inserts may come before
one that removes.

## Main statements

- `ChangeSet.ofEdit_accepts`
- `ChangeSet.not_ofEdit_accepts`
-/

namespace TextRevision

namespace Edit

variable {κ ι : Type}

mutual

/-- The first fault in an edit does not depend on how the change sets in it are kept. -/
theorem fault?_map (f : κ → ι) (measure : ι → Nat) (length : Nat) : (e : Edit κ) →
    (e.map f).fault? measure length = e.fault? (fun c => measure (f c)) length
  | replace _ _ _ => rfl
  | revision _ => rfl
  | many edits => faultOf?_mapAll f measure length edits

theorem faultOf?_mapAll (f : κ → ι) (measure : ι → Nat) (length : Nat) : (es : List (Edit κ)) →
    faultOf? measure length (mapAll f es) = faultOf? (fun c => measure (f c)) length es
  | [] => rfl
  | e :: es =>
    congrArg₂ Option.or (fault?_map f measure length e) (faultOf?_mapAll f measure length es)

end

end Edit

namespace ChangeSet

/-- An edit of a document makes a change set exactly if every range in it lies in the document and
every change set in it is one of such a document. Otherwise the first fault in it, from left to
right, is reported. What is made is a change set of the document. All this is for edits that insert
no more than the limit of written changes leaves beside the length of the document. -/
theorem ofEdit_accepts {fits : Nat → Prop} {edit : Edit ChangeSet} {length : Nat}
    {sep : Option String}
    (hsets : ∀ s, .revision s ∈ edit.atoms → Obtainable (· ≤ lengthLimit) s)
    (htexts : ∀ start stop r, .replace start stop (.rope r) ∈ edit.atoms → Rope.Reachable fits r)
    (hlimit : length + (edit.map revision).volume sep ≤ lengthLimit) :
    ((∃ s, ofEdit edit length sep = .done s) ↔ edit.Valid (fun s => s.outline.length) length)
      ∧ (∀ s, ofEdit edit length sep = .done s → s.outline.length = length)
      ∧ (¬ edit.Valid (fun s => s.outline.length) length →
        ∃ fault, edit.fault? (fun s => s.outline.length) length = some fault
          ∧ ofEdit edit length sep = .refused fault) := by
  have hmarked : ∀ c, .revision c ∈ (edit.map revision).atoms → ∀ s ∈ c.spans, s.Marked := by
    intro c hc
    obtain ⟨s, hs, rfl⟩ := Edit.revision_mem_atoms_map hc
    exact fun t ht => ((hsets s hs).exists_revision.revision.1.sound t ht).marked
  have hvolume : (edit.map revision).volume sep ≤ lengthLimit := by omega
  have hsame : (edit.map revision).fault? Change.length length
      = edit.fault? (fun s => s.outline.length) length := by
    rw [Edit.fault?_map]
    simp only [length_revision]
  rw [← Edit.fault?_eq_none_iff, ofEdit_eq (fun s hs => (hsets s hs).exists_revision) htexts hlimit]
  cases hfault : edit.fault? (fun s => s.outline.length) length with
  | none =>
    obtain ⟨c, hc, hlength, -⟩ := Revision.exists_ofEdit hmarked hvolume (hsame.trans hfault)
    rw [hc]
    refine ⟨iff_of_true ⟨_, rfl⟩ rfl, fun s hs => ?_, fun hsome => absurd rfl hsome⟩
    obtain rfl := Checked.done.inj hs
    exact c.length_outline.trans hlength
  | some fault =>
    rw [Revision.ofEdit_of_fault hmarked hvolume (hsame.trans hfault)]
    refine ⟨iff_of_false ?_ (by simp), fun s hs => ?_, fun _ => ⟨fault, rfl, rfl⟩⟩
    · rintro ⟨s, hs⟩
      cases hs
    · cases hs

/-- An edit that goes back twice: a character is put behind two others, the first one is removed,
and a change set removes the last one. -/
def goingBack : Edit ChangeSet :=
  .many [.replace 2 2 (.string "x"),
    .many [.replace 0 1 .nothing, .revision (ofRevision (removeBehind 2))]]

/-- Three characters can be edited so, but two are not what the change set in it is made to. -/
theorem ofEdit_accepts_going_back :
    (∃ s, ofEdit goingBack 3 none = .done s ∧ s.outline.length = 3)
      ∧ ofEdit goingBack 2 none = .refused (.lengthMismatch 2 3) := by
  have hremove : Obtainable (· ≤ lengthLimit) (ofRevision (removeBehind 2)) :=
    obtainable_removeBehind (by decide) (by decide) fun _ hm => Nat.le_trans hm (by decide)
  have hsets : ∀ s, .revision s ∈ goingBack.atoms → Obtainable (· ≤ lengthLimit) s := by
    intro s hs
    obtain rfl : s = ofRevision (removeBehind 2) := by
      simpa [goingBack, Edit.atoms, Edit.atomsOf] using hs
    exact hremove
  have htexts : ∀ start stop r, .replace start stop (.rope r) ∈ goingBack.atoms →
      Rope.Reachable (fun _ => True) r := by
    simp [goingBack, Edit.atoms, Edit.atomsOf]
  have hvolume : (goingBack.map revision).volume none = 1 := rfl
  have hthree : 3 + (goingBack.map revision).volume none ≤ lengthLimit := by
    rw [hvolume]
    decide
  have htwo : 2 + (goingBack.map revision).volume none ≤ lengthLimit := by
    rw [hvolume]
    decide
  have hvalid : goingBack.Valid (fun s => s.outline.length) 3 :=
    (Edit.fault?_eq_none_iff _ 3 _).mp rfl
  have hfault : goingBack.fault? (fun s => s.outline.length) 2 = some (.lengthMismatch 2 3) := rfl
  have hinvalid : ¬ goingBack.Valid (fun s => s.outline.length) 2 := by
    rw [← Edit.fault?_eq_none_iff, hfault]
    simp
  obtain ⟨s, hs⟩ := (ofEdit_accepts hsets htexts hthree).1.mpr hvalid
  obtain ⟨fault, hfirst, hrefused⟩ := (ofEdit_accepts hsets htexts htwo).2.2 hinvalid
  obtain rfl := Option.some.inj (hfault.symm.trans hfirst)
  exact ⟨⟨s, hs, (ofEdit_accepts hsets htexts hthree).2.1 s hs⟩, hrefused⟩

theorem done_of_bind {α β : Type} {x : Checked α} {f : α → Checked β} {y : β}
    (h : x >>= f = .done y) : ∃ a, x = .done a ∧ f a = .done y := by
  cases x with
  | done a => exact ⟨a, rfl, h⟩
  | refused fault => cases h
  | nothing => cases h

/-- Where words do not hold the length of the document that the batches lead to, nothing is put
behind them. -/
theorem Draft.merge_ne_done {d d' : Draft} {total c : ChangeSet} (htotal : d.total = some total)
    (hlong : total.outline.newLength? = none) : d.merge c ≠ .done d' := by
  intro h
  rw [merge, htotal] at h
  obtain ⟨rebased, -, h⟩ := done_of_bind h
  obtain ⟨next, hnext, -⟩ := done_of_bind h
  rw [andThen, hlong] at hnext
  cases hnext

/-- In the longest document of which a word holds the length, a character is put behind five others,
and then the first three are removed. -/
def longest : Edit ChangeSet :=
  .many [.replace 5 5 (.string "x"), .replace 0 3 .nothing]

/-- Without the limit: the document that the first batch leads to is too long for a word, so that
the second one cannot be put behind it. -/
theorem not_ofEdit_accepts :
    ¬ ∀ (edit : Edit ChangeSet) (length : Nat), length < wordCount →
      (∀ s, .revision s ∈ edit.atoms → Obtainable (fun _ => True) s) →
      ((∃ s, ofEdit edit length none = .done s)
        ↔ edit.Valid (fun s => s.outline.length) length) := by
  intro h
  have hsets : ∀ s, .revision s ∈ longest.atoms → Obtainable (fun _ => True) s := by
    simp [longest, Edit.atoms, Edit.atomsOf]
  have hvalid : longest.Valid (fun s => s.outline.length) 18446744073709551615 :=
    (Edit.fault?_eq_none_iff _ _ _).mp rfl
  obtain ⟨s, hs⟩ := (h longest 18446744073709551615 (by decide) hsets).mpr hvalid
  have hword : signedWord (Rope.ofBlock ["x"]).length = 1 := by decide
  have hnone : signedWord Rope.empty.length = 0 := by decide
  let put : Ledger Rope := ⟨[⟨0, 1, ()⟩, ⟨5, -1, ()⟩], [Rope.empty, Rope.ofBlock ["x"]]⟩
  let total : ChangeSet := ⟨⟨[⟨5, -1, ()⟩, ⟨0, 1, ()⟩, ⟨18446744073709551610, -1, ()⟩]⟩,
    [Rope.empty, Rope.ofBlock ["x"]]⟩
  have hput : Ledger.push? false ⟨[⟨5, -1, ()⟩], []⟩ (Span.replace (5 - 5) (Rope.ofBlock ["x"]))
      = some put := by
    rw [Span.replace, hword]
    exact Ledger.push?_alone (by decide) (by decide) (by decide)
  have hfirst : Draft.add ⟨18446744073709551615, none, .blank, 0, none⟩
      (.replace 5 5 (.string "x")) = .done ⟨18446744073709551615, none, put, 5, none⟩ :=
    Draft.add_forward (Nat.le_refl 5) (by decide) (by decide) (Nat.zero_le 5)
      (push?_keep (by decide) (by decide)) hput
  have hbatch : put.push? false (.keep (18446744073709551615 - 5))
      = some ⟨⟨18446744073709551610, -1, ()⟩ :: put.runs, put.texts⟩ :=
    Ledger.push?_alone (by decide) (by decide) (by decide)
  have hsettled : Draft.settle ⟨18446744073709551615, none, put, 5, none⟩
      = .done ⟨18446744073709551615, none, .blank, 0, some total⟩ := by
    have hopen : ¬ put.runs.isEmpty = true := Bool.false_ne_true
    rw [Draft.settle, if_neg hopen, Draft.close, Draft.batch?, hbatch]
    rfl
  have hremove : Ledger.push? false .blank (Span.replace (3 - 0) (Inserted.nothing.toRope none))
      = some (⟨[⟨3, 0, ()⟩], []⟩ : Ledger Rope) := by
    rw [Inserted.toRope, Span.replace, hnone]
    rfl
  have hsecond : Draft.add ⟨18446744073709551615, none, put, 5, none⟩ (.replace 0 3 .nothing)
      = .done ⟨18446744073709551615, none, ⟨[⟨3, 0, ()⟩], []⟩, 3, some total⟩ :=
    Draft.add_back (by decide) (by decide) (by decide) (by decide) hsettled rfl hremove
  obtain ⟨d, hd, hfinish⟩ := done_of_bind hs
  have hatoms : longest.atoms = [.replace 5 5 (.string "x"), .replace 0 3 .nothing] := rfl
  rw [hatoms, List.foldlM_cons, hfirst, Checked.done_bind, List.foldlM_cons, hsecond] at hd
  obtain rfl := Checked.done.inj hd
  obtain ⟨d', hd', -⟩ := done_of_bind hfinish
  obtain ⟨c, -, hmerge⟩ := done_of_bind hd'
  exact Draft.merge_ne_done rfl rfl hmerge

end ChangeSet

end TextRevision
