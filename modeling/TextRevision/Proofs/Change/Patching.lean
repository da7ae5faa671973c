import TextRevision.Proofs.Change.Accepting
import TextRevision.Proofs.Change.Patches
import TextRevision.Proofs.Change.ScriptedCompose

/-!
# Patches in any order

An edit may list patches of one document in any order. Those that go forward are put into one batch,
and a patch that goes back closes the batch, which is rebased over the batches before it and put
behind them. Whatever batches come up, the revision that is made tells the patches place by place.
So it makes them all at once, insertions at one place in the order in which they are listed.

This fails where an insertion is listed behind a removal that begins at its place, in another batch:
it comes to stand behind the removed items, and the next insertion at the place comes before it.

## Main definitions

- `Patch.edit`, `Patch.read`
- `Draft.Telling`: the patches in the batches of a draft

## Main statements

- `Draft.Telling.close`, `Draft.Telling.add`: what one patch does to a draft
- `Revision.exists_told`: the revision of patches tells them place by place
- `Patch.ofEdit_splices`
-/

namespace TextRevision

namespace Patch

/-- A patch as an edit. -/
def edit (p : Patch Inserted) : Edit :=
  .replace p.start p.stop p.text

/-- A patch with the items that it inserts, strings being split at `sep`. -/
def read (sep : Option String) (p : Patch Inserted) : Patch (List Item) :=
  ⟨p.start, p.stop, (p.text.toRope sep).items⟩

end Patch

open Patch (laid reach Forward)

namespace Draft

/-- A draft of patches: its open batch tells `opened`, from left to right, and the batches before it
tell `done`, place by place. -/
structure Telling (spent : Nat) (done opened : List (Patch (List Item))) (d : Draft) : Prop
    extends d.Held spent where
  normal : Span.Normal d.spans
  forward : Forward 0 opened
  reached : reach 0 opened = d.pos
  batch : Rope.reading.written d.spans = laid 0 opened
  told : ∀ total, d.total = some total →
    Rope.reading.tokens (total.spans.map Rest.ofSpan) = Patch.told done 0 d.length
  nothing : d.total = none → done = []
  proper : ∀ p ∈ opened, p.isTrivial = false

variable {d d' : Draft} {spent : Nat} {done opened : List (Patch (List Item))}

theorem Telling.more {more : Nat} (h : d.Telling spent done opened) (hle : spent ≤ more) :
    d.Telling more done opened :=
  { h with toHeld := h.toHeld.mono hle }

/-- The open batch, as a revision of the whole document, tells its patches place by place. -/
theorem Telling.tokens_batch (h : d.Telling spent done opened) :
    Rope.reading.tokens (d.batch.spans.map Rest.ofSpan) = Patch.told opened 0 d.length := by
  have hpos := h.pos_le
  rw [← h.reached] at hpos
  have htold := Patch.laid_eq_told h.forward
    (Nat.le_trans hpos (Nat.le_of_eq (Nat.zero_add _).symm))
  rw [Nat.zero_add] at htold
  rw [← htold, ← h.batch, h.reached, ← Reading.tokensOf_keep (I := Rope.reading)]
  exact Reading.written_push h.spans (Reading.fit_keep _)

theorem Telling.normal_batch (h : d.Telling spent done opened) : Span.Normal d.batch.spans :=
  (Span.stable_normal.keep h.normal _).reverse

/-- A closed batch is told with the batches before it. -/
theorem Telling.close (h : d.Telling spent done opened)
    (hprecedes : ∀ p ∈ done, ∀ q ∈ opened, p.Precedes q) (hlimit : d.length ≤ lengthLimit)
    (hspent : spent ≤ lengthLimit) (hclose : d.close = .ok d') :
    d'.Telling spent (done ++ opened) [] ∧ d'.length = d.length ∧ d'.sep = d.sep
      ∧ d'.total.isSome := by
  obtain ⟨hheld, hpos, hlength, hsep, hsome⟩ := h.toHeld.close hlimit hspent hclose
  have htokens := h.tokens_batch
  obtain ⟨hsound, -⟩ := h.toHeld.batch
  obtain ⟨hnone, rfl⟩ | ⟨total, rebased, next, htotal, hrebased, hnext, rfl⟩ := merge_eq_ok hclose
  · obtain rfl := h.nothing hnone
    refine ⟨⟨hheld, Span.normal_nil, trivial, rfl, rfl, ?_, ?_, by simp⟩, rfl, rfl, rfl⟩
    · intro total htotal
      exact Option.some.inj htotal ▸ htokens
    · rintro ⟨⟩
  · have htotal' : d.total = some total := htotal
    rw [Change.rebase_outline] at hrebased
    have hscript := Patch.orderly_script (i := 0) (n := d.length) hprecedes
    have hsmall := total.newLength_lt ((h.length total htotal').symm ▸ hlimit) (by
      have hvolume := h.volume
      rw [htotal', Option.elim_some] at hvolume
      omega)
    have hrebasedSound : ∀ s ∈ rebased.spans, Rope.reading.Sound s :=
      Reading.sound_rebase hsound (h.sound total htotal') hrebased
    have hnormal : Span.Normal rebased.spans := by
      have hstable := Change.rebase_stable Span.stable_normal Span.normal_nil
        h.normal_batch.reverse hrebased
      rw [← List.reverse_reverse rebased.spans]
      exact hstable.reverse
    have hearlier := (Patch.earlier_script done opened).trans (h.told total htotal').symm
    have hlater := (Patch.later_script (i := 0) (n := d.length) fun p hp q hq =>
      (hprecedes p hp q hq).clear).trans htokens.symm
    have hrebasedTokens :=
      Reading.rebase_script (h.sound total htotal') hsound hscript hearlier hlater hrebased
    have hnextTokens := Reading.andThen_script (h.sound total htotal') hsmall hrebasedSound hnormal
      hscript hearlier hrebasedTokens.symm hnext
    refine ⟨⟨hheld, Span.normal_nil, trivial, rfl, rfl, ?_, ?_, by simp⟩, rfl, rfl, rfl⟩
    · intro total' htotal'
      obtain rfl := Option.some.inj htotal'
      rw [hnextTokens, Patch.both_script]
    · rintro ⟨⟩

/-- An open batch without spans tells no patches. -/
theorem Telling.opened_eq_nil (h : d.Telling spent done opened) (hspans : d.spans = []) :
    opened = [] := by
  have hbatch := h.batch
  have hforward := h.forward
  have hproper := h.proper
  cases opened with
  | nil => rfl
  | cons p ps =>
    rw [hspans, laid] at hbatch
    have htokens : p.tokens = [] :=
      (List.append_eq_nil_iff.mp (List.append_eq_nil_iff.mp hbatch.symm).2).1
    obtain ⟨htext, hremoved⟩ := List.append_eq_nil_iff.mp htokens
    have htrivial : p.isTrivial = true := by
      have hstop := hforward.2.1
      have hle : p.stop - p.start = 0 := by simpa using hremoved
      have hempty : p.text = [] := by simpa using htext
      simp only [Patch.isTrivial, hempty, List.isEmpty_nil, Bool.and_true, decide_eq_true_eq]
      omega
    exact absurd htrivial (Bool.eq_false_iff.mp (hproper p List.mem_cons_self))

theorem Telling.settle (h : d.Telling spent done opened)
    (hprecedes : ∀ p ∈ done, ∀ q ∈ opened, p.Precedes q) (hlimit : d.length ≤ lengthLimit)
    (hspent : spent ≤ lengthLimit) (hsettle : d.settle = .ok d') :
    d'.Telling spent (done ++ opened) [] ∧ d'.length = d.length ∧ d'.sep = d.sep
      ∧ (d.total.isSome → d'.total.isSome) := by
  obtain ⟨hempty, rfl⟩ | hclose := settle_eq_ok hsettle
  · obtain rfl := h.opened_eq_nil hempty
    rw [List.append_nil]
    exact ⟨h, rfl, rfl, id⟩
  · obtain ⟨htelling, hlength, hsep, hsome⟩ := h.close hprecedes hlimit hspent hclose
    exact ⟨htelling, hlength, hsep, fun _ => hsome⟩

/-- A patch that goes forward is told behind the open batch. -/
theorem Telling.putReplaced {start stop : Nat} {text : Rope} (h : d.Telling spent done opened)
    (hpos : d.pos ≤ start) (hle : start ≤ stop) (hstop : stop ≤ d.length)
    (htext : text.Obeys Rope.shareRule) (hlength : text.length ≤ lengthLimit)
    (hproper : (⟨start, stop, text.items⟩ : Patch (List Item)).isTrivial = false) :
    (d.putReplaced start stop text).Telling (spent + text.length) done
      (opened ++ [⟨start, stop, text.items⟩]) := by
  have hfit := Rope.fit_replace htext hlength (stop - start)
  have htokens : Rope.reading.tokensOf (Rest.ofSpan (Span.replace (stop - start) text))
      = Patch.tokens ⟨start, stop, text.items⟩ := by
    rw [Span.replace, signedWord_of_lt (lt_signBound hlength),
      Reading.tokensOf_span_put (Int.natCast_nonneg _)]
    rfl
  have hkept := Reading.push_keep h.spans (start - d.pos)
  refine ⟨h.toHeld.putReplaced hpos hle hstop htext hlength,
    Span.stable_normal hfit.mark (Span.stable_normal.keep h.normal _),
    h.forward.append_singleton (h.reached ▸ hpos) hle, Patch.reach_append_singleton 0 opened _, ?_,
    h.told, h.nothing, ?_⟩
  · rw [Patch.laid_append_singleton, ← h.batch, h.reached]
    refine (Reading.written_push hkept.sound hfit).trans ?_
    rw [Reading.written_push h.spans (Reading.fit_keep _), Reading.tokensOf_keep, htokens,
      List.append_assoc]
  · intro p hp
    rcases List.mem_append.mp hp with hp | hp
    · exact h.proper p hp
    · obtain rfl := List.mem_singleton.mp hp
      exact hproper

end Draft

/-- A patch is trivial if it does what an edit leaves out. -/
theorem Patch.isTrivial_read {sep : Option String} {p : Patch Inserted}
    (htext : (p.text.toRope sep).Obeys Rope.shareRule) :
    (p.read sep).isTrivial = true ↔ p.start = p.stop ∧ (p.text.toRope sep).isEmpty = true := by
  have hlength := htext.length_items
  rw [isTrivial, Bool.and_eq_true, decide_eq_true_eq, List.isEmpty_iff, ← List.length_eq_zero_iff,
    Rope.isEmpty, decide_eq_true_eq]
  exact and_congr_right fun _ => by rw [← hlength]; rfl

namespace Draft

variable {d d' : Draft} {spent : Nat} {done opened : List (Patch (List Item))}

/-- One more patch is told in the open batch, or in a new one behind it. -/
theorem Telling.add {p : Patch Inserted} (h : d.Telling spent done opened)
    (hprecedes : ∀ x ∈ done, ∀ y ∈ opened, x.Precedes y)
    (htext : (p.text.toRope d.sep).Obeys Rope.shareRule) (hlimit : d.length ≤ lengthLimit)
    (hspent : spent + (p.text.toRope d.sep).length ≤ lengthLimit) (hadd : d.add p.edit = .ok d') :
    ∃ done' opened', done' ++ opened'
        = done ++ opened ++ [p.read d.sep].filter (!·.isTrivial)
      ∧ d'.Telling (spent + (p.text.toRope d.sep).length) done' opened' ∧ d'.length = d.length
      ∧ d'.sep = d.sep := by
  rw [Patch.edit, Draft.add] at hadd
  split at hadd
  · cases hadd
  next hrange =>
  have hle : p.start ≤ p.stop := by omega
  have hstop : p.stop ≤ d.length := by omega
  have htrivial := Patch.isTrivial_read htext
  rw [Draft.replace] at hadd
  split at hadd
  · next hnothing =>
    obtain rfl := Except.ok.inj hadd
    refine ⟨done, opened, ?_, h.more (Nat.le_add_right _ _), rfl, rfl⟩
    rw [List.filter_singleton, htrivial.mpr hnothing]
    exact (List.append_nil _).symm
  next hsome =>
  have hproper : (p.read d.sep).isTrivial = false :=
    Bool.eq_false_iff.mpr fun hnothing => hsome (htrivial.mp hnothing)
  have htold : [p.read d.sep].filter (!·.isTrivial) = [p.read d.sep] := by
    rw [List.filter_singleton, hproper]
    rfl
  rw [htold]
  dsimp only at hadd
  split at hadd
  -- The patch goes back: the open batch is closed, and a new one starts.
  · next hback =>
    obtain ⟨settled, hsettled, hadd⟩ := ok_of_bind hadd
    obtain rfl := Except.ok.inj hadd
    obtain ⟨hheld, hpos, -, -⟩ := h.toHeld.settle hlimit (by omega) hsettled
    obtain ⟨htelling, hlength, hsep, -⟩ := h.settle hprecedes hlimit (by omega) hsettled
    exact ⟨done ++ opened, [p.read d.sep], rfl,
      htelling.putReplaced (hpos ▸ Nat.zero_le _) hle (hlength ▸ hstop) htext (by omega) hproper,
      hlength, hsep⟩
  · next hforward =>
    obtain rfl := Except.ok.inj hadd
    exact ⟨done, opened ++ [p.read d.sep], (List.append_assoc _ _ _).symm,
      h.putReplaced (Nat.not_lt.mp hforward) hle hstop htext (by omega) hproper, rfl, rfl⟩

/-- Any number of patches are told in the batches of a draft. -/
theorem Telling.foldl_add {ps : List (Patch Inserted)} (h : d.Telling spent done opened)
    (hprecedes : (done ++ opened ++ (ps.map (Patch.read d.sep)).filter (!·.isTrivial)).Pairwise
      Patch.Precedes)
    (htexts : ∀ p ∈ ps, (p.text.toRope d.sep).Obeys Rope.shareRule)
    (hlimit : d.length ≤ lengthLimit)
    (hspent : spent + sumBy (fun p => (p.text.toRope d.sep).length) ps ≤ lengthLimit)
    (hfold : (ps.map Patch.edit).foldlM Draft.add d = .ok d') :
    ∃ done' opened', done' ++ opened'
        = done ++ opened ++ (ps.map (Patch.read d.sep)).filter (!·.isTrivial)
      ∧ d'.Telling (spent + sumBy (fun p => (p.text.toRope d.sep).length) ps) done' opened'
      ∧ d'.length = d.length := by
  induction ps generalizing d spent done opened with
  | nil =>
    obtain rfl := Except.ok.inj hfold
    exact ⟨done, opened, (List.append_nil _).symm, h, rfl⟩
  | cons p ps ih =>
    obtain ⟨htext, htexts⟩ := List.forall_mem_cons.mp htexts
    rw [List.map_cons, List.foldlM_cons] at hfold
    obtain ⟨next, hnext, hfold⟩ := ok_of_bind hfold
    have hsplit : (List.map (Patch.read d.sep) (p :: ps)).filter (!·.isTrivial)
        = [p.read d.sep].filter (!·.isTrivial)
          ++ (ps.map (Patch.read d.sep)).filter (!·.isTrivial) := by
      rw [← List.filter_append]
      rfl
    rw [sumBy_cons, ← Nat.add_assoc] at hspent ⊢
    rw [hsplit, ← List.append_assoc] at hprecedes ⊢
    have hbatches : ∀ x ∈ done, ∀ y ∈ opened, x.Precedes y := by
      have hfirst := (List.pairwise_append.mp (List.pairwise_append.mp hprecedes).1).1
      exact (List.pairwise_append.mp hfirst).2.2
    obtain ⟨done', opened', hdone, htelling, hlength, hsep⟩ :=
      h.add hbatches htext hlimit (by omega) hnext
    rw [← hdone, ← hsep] at hprecedes ⊢
    rw [← hsep] at htelling htexts hspent
    obtain ⟨done'', opened'', hdone', htelling', hlength'⟩ :=
      ih htelling hprecedes htexts (hlength ▸ hlimit) hspent hfold
    exact ⟨done'', opened'', hdone', htelling', hlength'.trans hlength⟩

/-- A finished draft makes a revision that tells all its patches. -/
theorem Telling.finish {c : Revision} (h : d.Telling spent done opened)
    (hprecedes : ∀ x ∈ done, ∀ y ∈ opened, x.Precedes y) (hlimit : d.length ≤ lengthLimit)
    (hspent : spent ≤ lengthLimit) (hfinish : d.finish = .ok c) :
    (∀ s ∈ c.spans, Rope.reading.Sound s)
      ∧ Rope.reading.tokens (c.spans.map Rest.ofSpan)
        = Patch.told (done ++ opened) 0 d.length := by
  obtain ⟨finished, hfinished, rfl⟩ := finish_eq_ok hfinish
  obtain ⟨htelling, hlength, hsome⟩ : finished.Telling spent (done ++ opened) []
      ∧ finished.length = d.length ∧ finished.total.isSome := by
    split at hfinished
    · obtain ⟨htelling, hlength, -, hsome⟩ := h.close hprecedes hlimit hspent hfinished
      exact ⟨htelling, hlength, hsome⟩
    · next htotal =>
      obtain ⟨htelling, hlength, -, hsome⟩ := h.settle hprecedes hlimit hspent hfinished
      exact ⟨htelling, hlength, hsome (by simpa [Option.isSome_iff_ne_none] using htotal)⟩
  obtain ⟨total, htotal⟩ := Option.isSome_iff_exists.mp hsome
  rw [htotal, Option.getD_some, ← hlength]
  exact ⟨htelling.sound total htotal, htelling.told total htotal⟩

end Draft

namespace Revision

variable {ps : List (Patch Inserted)} {length : Nat} {sep : Option String}

theorem atoms_patches (ps : List (Patch Inserted)) :
    (Edit.many (ps.map Patch.edit)).atoms = ps.map Patch.edit := by
  rw [Edit.atoms]
  induction ps with
  | nil => rfl
  | cons p ps ih =>
    rw [List.map_cons, Edit.atomsOf, ih]
    rfl

theorem volume_patches (ps : List (Patch Inserted)) (sep : Option String) :
    (Edit.many (ps.map Patch.edit)).volume sep
      = sumBy (fun p => (p.text.toRope sep).length) ps := by
  rw [Edit.volume, atoms_patches, sumBy_map]
  rfl

/-- Patches insert as much in any order. -/
theorem volume_patches_perm {qs : List (Patch Inserted)} (h : qs.Perm ps) (sep : Option String) :
    (Edit.many (qs.map Patch.edit)).volume sep = (Edit.many (ps.map Patch.edit)).volume sep := by
  rw [volume_patches, volume_patches, sumBy, sumBy]
  refine h.foldr_eq' (fun p _ q _ n => ?_) 0
  exact Nat.add_left_comm _ _ _

/-- Patches that lie in a document make a revision of it. -/
theorem exists_ofEdit_patches (hrange : ∀ p ∈ ps, p.start ≤ p.stop ∧ p.stop ≤ length)
    (hvolume : (Edit.many (ps.map Patch.edit)).volume sep ≤ lengthLimit) :
    ∃ c, ofEdit (.many (ps.map Patch.edit)) length sep = .ok c ∧ c.length = length := by
  have hvalid : (Edit.many (ps.map Patch.edit)).Valid Change.length length := by
    refine .many fun e he => ?_
    obtain ⟨p, hp, rfl⟩ := List.mem_map.mp he
    exact .replace _ (hrange p hp).1 (hrange p hp).2
  have hmarked : ∀ c, .revision c ∈ (Edit.many (ps.map Patch.edit)).atoms →
      ∀ s ∈ c.spans, s.Marked := by
    intro c hc
    rw [atoms_patches] at hc
    obtain ⟨p, -, hp⟩ := List.mem_map.mp hc
    cases hp
  obtain ⟨c, hc, hlength, -⟩ :=
    exists_ofEdit hmarked hvolume ((Edit.fault?_eq_none_iff Change.length length _).mpr hvalid)
  exact ⟨c, hc, hlength⟩

/-- The revision that patches make tells them place by place. -/
theorem exists_told (hrange : ∀ p ∈ ps, p.start ≤ p.stop ∧ p.stop ≤ length)
    (hvolume : (Edit.many (ps.map Patch.edit)).volume sep ≤ lengthLimit)
    (htexts : ∀ p ∈ ps, (p.text.toRope sep).Obeys Rope.shareRule) (hlimit : length ≤ lengthLimit)
    (hprecedes : ((ps.map (Patch.read sep)).filter (!·.isTrivial)).Pairwise Patch.Precedes) :
    ∃ c, ofEdit (.many (ps.map Patch.edit)) length sep = .ok c ∧ c.length = length
      ∧ (∀ s ∈ c.spans, Rope.reading.Sound s)
      ∧ Rope.reading.tokens (c.spans.map Rest.ofSpan)
        = Patch.told ((ps.map (Patch.read sep)).filter (!·.isTrivial)) 0 length := by
  obtain ⟨c, hc, hlength⟩ := exists_ofEdit_patches hrange hvolume
  refine ⟨c, hc, hlength, ?_⟩
  obtain ⟨d, hd, hfinish⟩ := ok_of_bind hc
  rw [atoms_patches] at hd
  rw [volume_patches] at hvolume
  have hstart : Draft.Telling 0 [] [] ⟨length, sep, [], 0, none⟩ :=
    ⟨⟨by simp, rfl, Nat.zero_le _, by simp, by simp, Nat.le_refl _⟩, Span.normal_nil, trivial, rfl,
      rfl, by simp, fun _ => rfl, by simp⟩
  obtain ⟨done, opened, hall, htelling, hsame⟩ := hstart.foldl_add hprecedes htexts hlimit
    ((Nat.zero_add _).symm ▸ hvolume) hd
  rw [Nat.zero_add] at htelling
  rw [List.nil_append, List.nil_append] at hall
  rw [← hall] at hprecedes ⊢
  have hfinished := htelling.finish (List.pairwise_append.mp hprecedes).2.2 (hsame ▸ hlimit) hvolume
    hfinish
  rwa [hsame] at hfinished

end Revision

namespace Patch

variable {ps qs : List (Patch Inserted)} {length : Nat} {sep : Option String}

/-- Patches of which each ends before the next begins, in their order from left to right, lie in
this order in the document. -/
theorem forward_sorted (hrange : ∀ p ∈ ps, p.start ≤ p.stop ∧ p.stop ≤ length)
    (hchain : (sorted (ps.map (read sep))).IsChain fun p q => p.stop ≤ q.start) :
    Forward 0 (sorted (ps.map (read sep))) ∧ reach 0 (sorted (ps.map (read sep))) ≤ length := by
  have hmem : ∀ p ∈ sorted (ps.map (read sep)), p.start ≤ p.stop ∧ p.stop ≤ length := by
    intro p hp
    have hp := (List.mem_filter.mp ((sorted_perm _).mem_iff.mp hp)).1
    obtain ⟨q, hq, rfl⟩ := List.mem_map.mp hp
    exact hrange q hq
  have hforward := forward_of_isChain (fun p hp => (hmem p hp).1) hchain fun _ _ => Nat.zero_le _
  exact ⟨hforward, hforward.reach_le (Nat.zero_le length) fun p hp => (hmem p hp).2⟩

/-- Patches that do not overlap may be listed in their order, if none hides another. -/
theorem pairwise_precedes {rs : List (Patch (List Item))} (hclear : rs.Pairwise Clear)
    (hshown : rs.Pairwise fun p q => ¬ p.Hides q) : rs.Pairwise Precedes :=
  (hclear.and hshown).imp fun h => ⟨h.1, h.2⟩

/-- What patches insert at one place is read in their order. -/
theorem filter_read (h : ∀ i, qs.filter (insertsAt i) = ps.filter (insertsAt i)) (i : Nat) :
    ((qs.map (read sep)).filter (!·.isTrivial)).filter (insertsAt i)
      = ((ps.map (read sep)).filter (!·.isTrivial)).filter (insertsAt i) := by
  have hread : ∀ rs : List (Patch Inserted),
      (rs.map (read sep)).filter (insertsAt i) = (rs.filter (insertsAt i)).map (read sep) :=
    fun rs => List.filter_map
  rw [List.filter_comm, List.filter_comm (p := insertsAt i), hread, hread, h i]

end Patch

/-- Patches of a document, listed in any order, make a revision that makes them all at once, from
left to right; insertions at one place are made in the order in which they are listed. So another
list of the same patches, with these insertions in the same order, comes to the same lines. In both
lists no insertion may stand behind a patch that only removes items from its place on. All this is
for lengths up to the limit of written changes. -/
theorem Patch.ofEdit_splices {fits : Nat → Prop} {ps : List (Patch Inserted)} {length : Nat}
    {sep : Option String} (hobtainable : ∀ p ∈ ps, p.edit.Obtainable fits)
    (hrange : ∀ p ∈ ps, p.start ≤ p.stop ∧ p.stop ≤ length)
    (hchain : (sorted (ps.map (read sep))).IsChain fun p q => p.stop ≤ q.start)
    (hshown : (ps.map (read sep)).Pairwise fun p q => ¬ p.Hides q)
    (hlimit : length ≤ lengthLimit)
    (hvolume : (Edit.many (ps.map edit)).volume sep ≤ lengthLimit) :
    ∃ c, Revision.ofEdit (.many (ps.map edit)) length sep = .ok c
      ∧ (∀ doc, Rope.Reachable fits doc → doc.length = length →
        ∃ r, c.apply doc = .ok r
          ∧ r.lines = Block.ofItems (splice 0 (sorted (ps.map (read sep))) doc.items))
      ∧ ∀ qs : List (Patch Inserted), qs.Perm ps →
        (∀ i, qs.filter (insertsAt i) = ps.filter (insertsAt i)) →
        ((qs.map (read sep)).Pairwise fun p q => ¬ p.Hides q) →
        ∃ d, Revision.ofEdit (.many (qs.map edit)) length sep = .ok d
          ∧ ∀ doc, Rope.Reachable fits doc → doc.length = length →
            ∃ r s, c.apply doc = .ok r ∧ d.apply doc = .ok s ∧ r.lines = s.lines := by
  have hobeys : ∀ p ∈ ps, (p.text.toRope sep).Obeys Rope.shareRule := by
    intro p hp
    have htexts :=
      (hobtainable p hp sep).texts Rope.preserved_share p.edit (by simp [edit, Edit.atoms])
    exact Rope.preserved_share.toRope htexts sep
  obtain ⟨hforward, hreach⟩ := forward_sorted hrange hchain
  have hclear : ((ps.map (read sep)).filter (!·.isTrivial)).Pairwise Clear :=
    ((sorted_perm _).pairwise_iff fun h => Clear.symm h).mp hforward.pairwise
  obtain ⟨c, hc, hlength, hsound, htold⟩ := Revision.exists_told hrange hvolume hobeys hlimit
    (pairwise_precedes hclear (hshown.filter _))
  refine ⟨c, hc, fun doc hdoc hdocLength => ?_, fun qs hperm hsame hqshown => ?_⟩
  · obtain ⟨r, hr, hrObeys, hrItems⟩ :=
      Revision.apply_spec hsound hdoc.obeys (hlength.trans hdocLength.symm)
    have hitems : doc.items.length = length := hdoc.obeys.length_items.trans hdocLength
    refine ⟨r, hr, ?_⟩
    rw [← hrObeys.ofItems_items, hrItems, ← Reading.perform_tokens, htold, ← told_sorted hforward,
      ← hitems, perform_told hforward (hitems ▸ hreach)]
  · -- The other list tells the same patches at each place, so that it makes the same of a document.
    have hqclear : ((qs.map (read sep)).filter (!·.isTrivial)).Pairwise Clear :=
      (((hperm.map (read sep)).filter _).pairwise_iff fun h => Clear.symm h).mpr hclear
    obtain ⟨d, hd, hdLength, hdSound, hdTold⟩ := Revision.exists_told
      (fun q hq => hrange q (hperm.mem_iff.mp hq))
      ((Revision.volume_patches_perm hperm sep).symm ▸ hvolume)
      (fun q hq => hobeys q (hperm.mem_iff.mp hq)) hlimit
      (pairwise_precedes hqclear (hqshown.filter _))
    refine ⟨d, hd, fun doc hdoc hdocLength => ?_⟩
    obtain ⟨r, hr, hrObeys, hrItems⟩ :=
      Revision.apply_spec hsound hdoc.obeys (hlength.trans hdocLength.symm)
    obtain ⟨s, hs, hsObeys, hsItems⟩ :=
      Revision.apply_spec hdSound hdoc.obeys (hdLength.trans hdocLength.symm)
    refine ⟨r, s, hr, hs, Rope.lines_eq_of_items hrObeys hsObeys ?_⟩
    rw [hrItems, hsItems, ← Reading.perform_tokens, ← Reading.perform_tokens, htold, hdTold,
      told_perm ((hperm.map (read sep)).filter _) hqclear (filter_read hsame)]

/-- Three patches of three characters that go back once: the last character is replaced, and then
one is put in front of the first, which is removed. -/
def Patch.goingBack : List (Patch Inserted) :=
  [⟨2, 3, .string "x"⟩, ⟨0, 0, .string "k"⟩, ⟨0, 1, .nothing⟩]

theorem Patch.sorted_goingBack : sorted (goingBack.map (read none))
    = [⟨0, 0, [some 'k']⟩, ⟨0, 1, []⟩, ⟨2, 3, [some 'x']⟩] := by
  cbv

/-- Listed so, they make "kbx" of "abc". -/
theorem Patch.ofEdit_splices_going_back :
    Rope.ofLines? ["abc"] = .ok (Rope.ofBlock ["abc"])
      ∧ ∃ c r, Revision.ofEdit (.many (goingBack.map edit)) 3 none = .ok c
        ∧ c.apply (Rope.ofBlock ["abc"]) = .ok r ∧ r.lines = ["kbx"] := by
  have hlines : Rope.ofLines? ["abc"] = .ok (Rope.ofBlock ["abc"]) := rfl
  have hread :
      goingBack.map (read none) = [⟨2, 3, [some 'x']⟩, ⟨0, 0, [some 'k']⟩, ⟨0, 1, []⟩] := rfl
  have hobtainable : ∀ p ∈ goingBack, p.edit.Obtainable fun _ => True := by
    rintro _ (_ | ⟨_, _ | ⟨_, _ | ⟨_, ⟨⟩⟩⟩⟩)
    · exact fun _ => .string 2 3 trivial
    · exact fun _ => .string 0 0 trivial
    · exact fun _ => .nothing 0 1
  have hrange : ∀ p ∈ goingBack, p.start ≤ p.stop ∧ p.stop ≤ 3 := by simp [goingBack]
  have hchain : (sorted (goingBack.map (read none))).IsChain fun p q => p.stop ≤ q.start := by
    rw [sorted_goingBack]
    simp
  have hshown : (goingBack.map (read none)).Pairwise fun p q => ¬ p.Hides q := by
    rw [hread]
    decide
  have hvolume : (Edit.many (goingBack.map edit)).volume none ≤ lengthLimit := by
    rw [show (Edit.many (goingBack.map edit)).volume none = 2 from rfl]
    decide
  obtain ⟨c, hc, happly, -⟩ :=
    ofEdit_splices hobtainable hrange hchain hshown (by decide) hvolume
  obtain ⟨r, hr, hrLines⟩ := happly (Rope.ofBlock ["abc"]) (.ofLines hlines) rfl
  rw [sorted_goingBack] at hrLines
  exact ⟨hlines, c, r, hc, hr, hrLines.trans (by cbv)⟩

/-- Patches that remove two characters behind the first, and put one in front of each of them and of
the first. -/
def Patch.removedFirst : List (Patch Inserted) :=
  [⟨1, 2, .nothing⟩, ⟨2, 3, .nothing⟩, ⟨1, 1, .string "I"⟩, ⟨0, 0, .string "K"⟩,
    ⟨2, 2, .string "J"⟩]

/-- What is put behind both removed characters first comes to stand behind what is put between them:
"KaJI" is made of "abc", while the patches all at once make "KaIJ". -/
theorem Patch.not_ofEdit_splices :
    (∀ p ∈ removedFirst, p.edit.Obtainable fun _ => True)
      ∧ (∀ p ∈ removedFirst, p.start ≤ p.stop ∧ p.stop ≤ 3)
      ∧ ((sorted (removedFirst.map (read none))).IsChain fun p q => p.stop ≤ q.start)
      ∧ Rope.ofLines? ["abc"] = .ok (Rope.ofBlock ["abc"])
      ∧ ∃ c r, Revision.ofEdit (.many (removedFirst.map edit)) 3 none = .ok c
        ∧ c.apply (Rope.ofBlock ["abc"]) = .ok r ∧ r.lines = ["KaJI"]
        ∧ Block.ofItems
            (splice 0 (sorted (removedFirst.map (read none))) (Rope.ofBlock ["abc"]).items)
          = ["KaIJ"] := by
  have hsorted : sorted (removedFirst.map (read none))
      = [⟨0, 0, [some 'K']⟩, ⟨1, 1, [some 'I']⟩, ⟨1, 2, []⟩, ⟨2, 2, [some 'J']⟩, ⟨2, 3, []⟩] := by
    cbv
  have hmake : Revision.ofEdit (.many (removedFirst.map edit)) 3 none
      = .ok ⟨[⟨0, 1, Rope.ofBlock ["K"]⟩, ⟨1, Span.keptMark, Rope.empty⟩, ⟨2, 0, Rope.empty⟩,
          ⟨0, 2, Rope.ofBlock ["JI"]⟩]⟩ := by
    cbv
  refine ⟨?_, by simp [removedFirst], ?_, rfl, _, _, hmake, rfl, ?_, ?_⟩
  · rintro _ (_ | ⟨_, _ | ⟨_, _ | ⟨_, _ | ⟨_, _ | ⟨_, ⟨⟩⟩⟩⟩⟩⟩)
    · exact fun _ => .nothing 1 2
    · exact fun _ => .nothing 2 3
    · exact fun _ => .string 1 1 trivial
    · exact fun _ => .string 0 0 trivial
    · exact fun _ => .string 2 2 trivial
  · rw [hsorted]
    simp
  · cbv
  · rw [hsorted]
    cbv

end TextRevision
