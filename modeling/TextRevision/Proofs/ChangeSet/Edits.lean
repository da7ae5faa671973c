import TextRevision.ChangeSet.Edit
import TextRevision.Proofs.Change.Accepting
import TextRevision.Proofs.ChangeSet.Operations

/-!
# Change sets and revisions from edits

Edits make a change set as they make a revision, edit by edit and batch by batch, as long as the
length of the document and the number of characters that are inserted stay within the limit of
written changes together. What a draft tells in two lists is then what the draft of the revision
tells in spans.

## Main definitions

- `Checked.Agree`: what comes of an operation that is held to words and of one that is not
- `ChangeSet.Draft.Follows`: a draft in two lists beside a draft in spans

## Main statements

- `ChangeSet.Draft.Follows.add`: one more edit
- `ChangeSet.ofEdit_map`
-/

namespace TextRevision

/-- Two operations that are refused with the same fault, or whose results are related. -/
inductive Checked.Agree {α β : Type} (R : α → β → Prop) : Checked α → Except Fault β → Prop
  | done {x : α} {y : β} : R x y → Agree R (.done x) (.ok y)
  | refused {fault : Fault} : Agree R (.refused fault) (.error fault)

namespace Checked.Agree

variable {α β γ δ : Type} {R : α → β → Prop} {S : γ → δ → Prop} {x : Checked α}
  {y : Except Fault β}

theorem bind {f : α → Checked γ} {g : β → Except Fault δ} (h : Agree R x y)
    (hnext : ∀ a b, y = .ok b → R a b → Agree S (f a) (g b)) : Agree S (x >>= f) (y >>= g) := by
  cases h with
  | done hR => exact hnext _ _ rfl hR
  | refused => exact .refused

theorem mono {T : α → β → Prop} (h : Agree R x y) (hle : ∀ a b, y = .ok b → R a b → T a b) :
    Agree T x y := by
  cases h with
  | done hR => exact .done (hle _ _ rfl hR)
  | refused => exact .refused

theorem eq_ofExcept {f : β → α} (h : Agree (fun a b => a = f b) x y) :
    x = .ofExcept (y.map f) := by
  cases h with
  | done hR => exact congrArg Checked.done hR
  | refused => rfl

end Checked.Agree

theorem Change.newLength_le {α : Type} (c : Change α) : c.newLength ≤ c.length + c.volume := by
  rw [newLength, length, volume]
  induction c.spans with
  | nil => exact Nat.le_refl _
  | cons s spans ih =>
    have hspan : s.newLength ≤ s.length + s.volume := by
      by_cases hkept : s.count < 0
      · exact (Span.newLength_of_kept hkept).le.trans (Nat.le_add_right _ _)
      · exact (Span.newLength_of_put (Int.not_lt.mp hkept)).le.trans (Nat.le_add_left _ _)
    rw [sumBy_cons, sumBy_cons, sumBy_cons]
    omega

namespace Edit

variable {κ ι : Type}

mutual

/-- An edit with the changes in it kept in another way. -/
def map (f : κ → ι) : Edit κ → Edit ι
  | replace start stop text => replace start stop text
  | revision c => revision (f c)
  | many edits => many (mapAll f edits)

def mapAll (f : κ → ι) : List (Edit κ) → List (Edit ι)
  | [] => []
  | e :: es => e.map f :: mapAll f es

end

mutual

theorem atoms_map (f : κ → ι) : (e : Edit κ) → (e.map f).atoms = e.atoms.map (map f)
  | replace start stop text => by simp [map, atoms]
  | revision c => by simp [map, atoms]
  | many edits => by
    rw [map, atoms, atoms, atomsOf_mapAll f edits]

theorem atomsOf_mapAll (f : κ → ι) :
    (es : List (Edit κ)) → atomsOf (mapAll f es) = (atomsOf es).map (map f)
  | [] => rfl
  | e :: es => by
    rw [mapAll, atomsOf, atomsOf, List.map_append, atoms_map f e, atomsOf_mapAll f es]

end

end Edit

namespace ChangeSet.Draft

open TextRevision.Ledger (Tells Stocked)

/-- A draft in two lists beside a draft in spans that inserts at most `spent` characters. -/
structure Follows (spent : Nat) (d : Draft) (e : TextRevision.Draft) : Prop where
  length : d.length = e.length
  sep : d.sep = e.sep
  ledger : d.ledger.Tells e.spans
  pos : d.pos = e.pos
  total : d.total = e.total.map ofRevision
  held : e.Held spent

variable {spent : Nat} {d : Draft} {e : TextRevision.Draft} {c : Revision}

theorem Follows.mono {more : Nat} (h : d.Follows spent e) (hle : spent ≤ more) :
    d.Follows more e :=
  ⟨h.length, h.sep, h.ledger, h.pos, h.total, h.held.mono hle⟩

theorem Follows.stocked (h : d.Follows spent e) : d.ledger.Stocked Tells e.pos spent e.spans :=
  ⟨h.ledger, fun s hs => (h.held.spans s hs).marked, h.held.pos,
    (Nat.le_add_right _ _).trans h.held.volume⟩

/-- What the batches do is within the limit. -/
theorem Follows.total_within (h : d.Follows spent e) (hlimit : e.length + spent ≤ lengthLimit)
    {total : Revision} (htotal : e.total = some total) : total.Within (· ≤ lengthLimit) := by
  have hlength := h.held.length total htotal
  have hvolume := h.held.volume
  have hnew := total.newLength_le
  rw [htotal, Option.elim_some] at hvolume
  constructor <;> dsimp only <;> omega

/-- A revision that is rebased over the batches keeps to the limit. -/
theorem Follows.rebased {total : Revision} (h : d.Follows spent e)
    (hc : ∀ s ∈ c.spans, Rope.reading.Sound s) (hlength : c.length = e.length)
    (hlimit : e.length + (spent + c.volume) ≤ lengthLimit) (htotal : e.total = some total) :
    ∃ rebased, c.rebase total.outline false = .ok rebased
      ∧ (∀ s ∈ rebased.spans, Rope.reading.Sound s) ∧ rebased.Within (· ≤ lengthLimit) := by
  have hsame := h.held.length total htotal
  obtain ⟨rebased, hrebased, hsound, hrebasedLength, hrebasedVolume, -⟩ :=
    Reading.rebase_spec hc (Reading.sound_outline (h.held.sound total htotal))
      ((total.length_outline.trans hsame).trans hlength.symm) false
  have hnew := rebased.newLength_le
  have htotalNew := total.newLength_le
  have hvolume := h.held.volume
  rw [htotal, Option.elim_some] at hvolume
  rw [Change.newLength_outline] at hrebasedLength
  refine ⟨rebased, hrebased, hsound, ?_⟩
  constructor <;> dsimp only <;> omega

/-- A change set of the document is put behind the batches. -/
theorem Follows.merge (h : d.Follows spent e) (hc : ∀ s ∈ c.spans, Rope.reading.Sound s)
    (hlength : c.length = e.length) (hlimit : e.length + (spent + c.volume) ≤ lengthLimit) :
    Checked.Agree (Follows (spent + c.volume)) (d.merge (ofRevision c)) (e.merge c) := by
  have hspent : e.length + spent ≤ lengthLimit := by omega
  have hmerged : ∀ e', e.merge c = .ok e' → e'.Held (spent + c.volume) := fun e' he' =>
    (h.held.merge hc hlength (by omega) (by omega) he').1
  have htotalEq := h.total
  cases htotal : e.total with
  | none =>
    rw [htotal] at htotalEq
    have hmerge : e.merge c = .ok { e with total := some c } := by
      rw [TextRevision.Draft.merge, htotal]
      rfl
    rw [hmerge, Draft.merge, htotalEq]
    exact .done ⟨h.length, h.sep, h.ledger, h.pos, rfl, hmerged _ hmerge⟩
  | some total =>
    rw [htotal] at htotalEq
    have htotalSound := h.held.sound total htotal
    have htotalWithin := h.total_within hspent htotal
    have hcWithin : c.Within (· ≤ lengthLimit) := by
      have hnew := c.newLength_le
      constructor <;> dsimp only <;> omega
    have houtline : ∀ s ∈ total.outline.spans, s.Marked :=
      Change.marked_outline fun s hs => (htotalSound s hs).marked
    have hrebase := rebase_ofRevision hc houtline hcWithin (Change.within_outline htotalWithin)
      false
    obtain ⟨rebased, hrebased, hsound, hrebasedWithin⟩ := h.rebased hc hlength hlimit htotal
    have handThen := andThen_ofRevision htotalSound hsound htotalWithin hrebasedWithin
    have hmerge : e.merge c = (total.andThen rebased).map fun next =>
        { e with total := some next } := by
      rw [TextRevision.Draft.merge, htotal]
      dsimp only
      rw [hrebased, ok_bind]
      cases total.andThen rebased <;> rfl
    rw [Draft.merge, htotalEq]
    dsimp only [Option.map_some]
    rw [show (ofRevision total).outline = total.outline from rfl, hrebase, hrebased]
    rw [show (Checked.ofExcept (Except.map ofRevision (.ok rebased)) : Checked ChangeSet)
      = .done (ofRevision rebased) from rfl, Checked.done_bind, handThen, hmerge]
    cases hnext : total.andThen rebased with
    | error fault => exact .refused
    | ok next =>
      rw [hnext] at hmerge
      exact .done ⟨h.length, h.sep, h.ledger, h.pos, rfl, hmerged _ hmerge⟩

/-- The open batch is told as a change set of the whole document. -/
theorem Follows.batch? (h : d.Follows spent e) (hlimit : e.length + spent ≤ lengthLimit) :
    d.batch? = some (ofRevision e.batch) := by
  have hle := h.held.pos_le
  obtain ⟨l, hl, hstocked⟩ := h.stocked.push? Ledger.stands_ofSpans false
    (.keep (e.length - e.pos)) (Ledger.fine_empty _) (Int.le_refl _)
    (by dsimp only [Span.keep]; omega) (by show _ + 0 ≤ _; omega)
  have htells := hstocked.stands
  rw [← List.reverse_reverse (Span.push false e.spans _)] at htells
  rw [Draft.batch?, h.length, h.pos, hl, Option.map_some, ofLedger_eq htells]
  rfl

/-- The open batch is closed. -/
theorem Follows.close (h : d.Follows spent e) (hlimit : e.length + spent ≤ lengthLimit) :
    Checked.Agree (Follows spent) d.close e.close := by
  obtain ⟨hsound, hlength, hvolume⟩ := h.held.batch
  have hsum := h.held.volume
  have hemptied : Follows (e.total.elim 0 Change.volume) { d with ledger := .blank, pos := 0 }
      { e with spans := [], pos := 0 } :=
    ⟨h.length, h.sep, tells_blank, rfl, h.total,
      ⟨by simp, rfl, Nat.zero_le _, h.held.sound, h.held.length, Nat.le_of_eq (Nat.zero_add _)⟩⟩
  rw [Draft.close, h.batch? hlimit, TextRevision.Draft.close]
  refine (hemptied.merge hsound hlength (by dsimp only; omega)).mono fun d' e' _ hfollows => ?_
  exact hfollows.mono (by omega)

theorem Follows.settle (h : d.Follows spent e) (hlimit : e.length + spent ≤ lengthLimit) :
    Checked.Agree (Follows spent) d.settle e.settle := by
  have hruns : d.ledger.runs.isEmpty = e.spans.isEmpty := by
    rw [h.ledger.1, Ledger.ofSpans, List.isEmpty_map]
  rw [Draft.settle, TextRevision.Draft.settle, hruns]
  split
  · exact .done h
  · exact h.close hlimit

/-- A replaced range is put behind the open batch. -/
theorem Follows.putReplaced {start stop : Nat} (text : Rope) (h : d.Follows spent e)
    (hpos : e.pos ≤ start) (hle : start ≤ stop) (hstop : stop ≤ e.length)
    (htext : text.Obeys Rope.shareRule) (hlimit : e.length + (spent + text.length) ≤ lengthLimit) :
    ∃ kept replaced, d.ledger.push? false (.keep (start - d.pos)) = some kept
      ∧ kept.push? false (Span.replace (stop - start) text) = some replaced
      ∧ Follows (spent + text.length) { d with ledger := replaced, pos := stop }
        (e.putReplaced start stop text) := by
  have hfit := Rope.fit_replace htext (by omega) (stop - start)
  have hcount : (Span.replace (stop - start) text).volume = text.length := by
    rw [Span.volume, Span.replace, signedWord_of_lt (lt_signBound (by omega)), Int.toNat_natCast]
  have hspanLength : (Span.replace (stop - start) text).length = stop - start := rfl
  obtain ⟨kept, hkept, hkeptStocked⟩ := h.stocked.push? Ledger.stands_ofSpans false
    (.keep (start - e.pos)) (Ledger.fine_empty _) (Int.le_refl _)
    (by dsimp only [Span.keep]; omega) (by show _ + 0 ≤ _; omega)
  have hkeepVolume : (Span.keep (start - e.pos) : Span Rope).volume = 0 := rfl
  obtain ⟨replaced, hreplaced, hreplacedStocked⟩ := hkeptStocked.push? Ledger.stands_ofSpans false
    (Span.replace (stop - start) text) (Ledger.fine_of_fit hfit) hfit.mark
    (by dsimp only [Span.keep]; omega) (by omega)
  exact ⟨kept, replaced, h.pos ▸ hkept, hreplaced, h.length, h.sep, hreplacedStocked.stands, rfl,
    h.total, h.held.putReplaced hpos hle hstop htext (by omega)⟩

/-- The characters of a range of the document are replaced. -/
theorem Follows.replace {start stop : Nat} {text : Rope} (h : d.Follows spent e)
    (hle : start ≤ stop) (hstop : stop ≤ e.length) (htext : text.Obeys Rope.shareRule)
    (hlimit : e.length + (spent + text.length) ≤ lengthLimit) :
    Checked.Agree (Follows (spent + text.length)) (d.replace start stop text)
      (e.replace start stop text) := by
  rw [Draft.replace, TextRevision.Draft.replace]
  by_cases hnothing : start = stop ∧ text.isEmpty = true
  · rw [if_pos hnothing, if_pos hnothing]
    exact .done (h.mono (Nat.le_add_right _ _))
  · rw [if_neg hnothing, if_neg hnothing]
    dsimp only
    rw [h.pos]
    by_cases hback : start < e.pos
    -- The range goes back: the open batch is closed, and a new one starts.
    · rw [if_pos hback, if_pos hback]
      refine (h.settle (by omega)).bind fun d' e' he' hfollows => ?_
      obtain ⟨hheld, hpos, hlength, -⟩ := h.held.settle (by omega) (by omega) he'
      obtain ⟨kept, replaced, hkept, hreplaced, hput⟩ := hfollows.putReplaced text
        (hpos ▸ Nat.zero_le _) hle (hlength ▸ hstop) htext (hlength ▸ hlimit)
      rw [hkept, Checked.lift_some, Checked.done_bind, hreplaced]
      exact .done hput
    · obtain ⟨kept, replaced, hkept, hreplaced, hput⟩ := h.putReplaced text
        (Nat.not_lt.mp hback) hle hstop htext hlimit
      rw [if_neg hback, if_neg hback, Checked.done_bind, hkept, Checked.lift_some,
        Checked.done_bind, hreplaced]
      exact .done hput

/-- One more edit is made to both drafts, or refused for the same fault. -/
theorem Follows.add {atom : Edit} (h : d.Follows spent e)
    (htexts : Rope.Preserved.AtomTexts (Rope.Obeys Rope.shareRule) atom)
    (hsound : ∀ c, atom = .revision c → ∀ s ∈ c.spans, Rope.reading.Sound s)
    (hwithin : ∀ c, atom = .revision c → c.Within (· ≤ lengthLimit))
    (hlimit : e.length + (spent + atom.atomVolume e.sep) ≤ lengthLimit) :
    Checked.Agree (Follows (spent + atom.atomVolume e.sep)) (d.add (atom.map ofRevision))
      (e.add atom) := by
  cases atom with
  | replace start stop text =>
    rw [Edit.map, Draft.add, TextRevision.Draft.add, h.length, h.sep]
    split
    · exact .refused
    · exact h.replace (by omega) (by omega) (Rope.preserved_share.toRope htexts e.sep) hlimit
  | revision c =>
    rw [Edit.atomVolume] at hlimit ⊢
    rw [Edit.map, Draft.add, TextRevision.Draft.add,
      show (ofRevision c).outline = c.outline from rfl,
      (Change.within_outline (hwithin c rfl)).length?_eq, Change.length_outline, h.length]
    simp only [Checked.lift_some, Checked.done_bind, Checked.fits_eq]
    rw [Change.fits]
    split
    · next hsame =>
      refine (h.settle (by omega)).bind fun d' e' he' hfollows => ?_
      obtain ⟨-, -, hlength, -⟩ := h.held.settle (by omega) (by omega) he'
      exact hfollows.merge (hsound c rfl) (hsame.symm.trans hlength.symm) (hlength ▸ hlimit)
    · exact .refused
  | many edits => exact .done (h.mono (Nat.le_add_right _ _))

/-- So are any number of edits. -/
theorem Follows.foldl_add {atoms : List Edit} (h : d.Follows spent e)
    (htexts : ∀ atom ∈ atoms, Rope.Preserved.AtomTexts (Rope.Obeys Rope.shareRule) atom)
    (hsound : ∀ c, .revision c ∈ atoms → ∀ s ∈ c.spans, Rope.reading.Sound s)
    (hwithin : ∀ c, .revision c ∈ atoms → c.Within (· ≤ lengthLimit))
    (hlimit : e.length + (spent + sumBy (Edit.atomVolume e.sep) atoms) ≤ lengthLimit) :
    Checked.Agree (Follows (spent + sumBy (Edit.atomVolume e.sep) atoms))
      ((atoms.map (Edit.map ofRevision)).foldlM Draft.add d)
      (atoms.foldlM TextRevision.Draft.add e) := by
  induction atoms generalizing d e spent with
  | nil => exact .done h
  | cons atom atoms ih =>
    obtain ⟨hatom, htexts⟩ := List.forall_mem_cons.mp htexts
    rw [sumBy_cons] at hlimit ⊢
    rw [← Nat.add_assoc]
    have hfirst := fun c (hc : atom = .revision c) => hsound c (hc ▸ List.mem_cons_self)
    rw [List.map_cons, List.foldlM_cons, List.foldlM_cons]
    refine (h.add hatom hfirst (fun c hc => hwithin c (hc ▸ List.mem_cons_self))
      (by omega)).bind fun d' e' he' hfollows => ?_
    obtain ⟨-, hlength, hsep⟩ := h.held.add hatom hfirst (by omega) (by omega) he'
    rw [← hsep] at hlimit hfollows ⊢
    exact ih hfollows htexts (fun c hc => hsound c (List.mem_cons_of_mem _ hc))
      (fun c hc => hwithin c (List.mem_cons_of_mem _ hc)) (by rw [hlength]; omega)

/-- Both drafts are finished, or neither is. -/
theorem Follows.finish (h : d.Follows spent e) (hlimit : e.length + spent ≤ lengthLimit) :
    Checked.Agree (fun s c => s = ofRevision c) d.finish e.finish := by
  have hnone : d.total.isNone = e.total.isNone := by
    rw [h.total, Option.isNone_map]
  have hdone : ∀ {d' : Draft} {e' : TextRevision.Draft}, d'.Follows spent e' →
      d'.total.getD (unchanged d'.length)
        = ofRevision (e'.total.getD (Change.unchanged e'.length)) := by
    intro d' e' hfollows
    rw [hfollows.total, hfollows.length, unchanged_eq]
    cases e'.total <;> rfl
  rw [Draft.finish, TextRevision.Draft.finish]
  dsimp only
  rw [hnone]
  split
  · exact (h.close hlimit).bind fun d' e' _ hfollows => .done (hdone hfollows)
  · exact (h.settle hlimit).bind fun d' e' _ hfollows => .done (hdone hfollows)

end ChangeSet.Draft

/-- As long as what an edit inserts stays within the limit of written changes together with the
length of the document, it makes the change set that tells the revision it makes. -/
theorem ChangeSet.ofEdit_map {edit : Edit} {length : Nat} {sep : Option String}
    (htexts : ∀ atom ∈ edit.atoms, Rope.Preserved.AtomTexts (Rope.Obeys Rope.shareRule) atom)
    (hsound : ∀ c, .revision c ∈ edit.atoms → ∀ s ∈ c.spans, Rope.reading.Sound s)
    (hwithin : ∀ c, .revision c ∈ edit.atoms → c.Within (· ≤ lengthLimit))
    (hlimit : length + edit.volume sep ≤ lengthLimit) :
    ofEdit (edit.map ofRevision) length sep
      = .ofExcept ((Revision.ofEdit edit length sep).map ofRevision) := by
  have hstart : Draft.Follows 0 ⟨length, sep, .blank, 0, none⟩ ⟨length, sep, [], 0, none⟩ :=
    ⟨rfl, rfl, tells_blank, rfl, rfl,
      ⟨by simp, rfl, Nat.zero_le _, by simp, by simp, Nat.le_refl _⟩⟩
  have hspent : length + (0 + sumBy (Edit.atomVolume sep) edit.atoms) ≤ lengthLimit := by
    rwa [Nat.zero_add]
  refine Checked.Agree.eq_ofExcept ?_
  rw [ofEdit, Edit.atoms_map]
  refine (hstart.foldl_add htexts hsound hwithin hspent).bind fun d e he hfollows => ?_
  have hheld : TextRevision.Draft.Held 0 ⟨length, sep, [], 0, none⟩ := hstart.held
  obtain ⟨-, hlength⟩ :=
    hheld.foldl_add htexts hsound (by dsimp only; omega) (by dsimp only; omega) he
  exact hfollows.finish (by rw [hlength]; exact hspent)

namespace ChangeSet.Draft

variable {d settled : Draft} {start stop : Nat} {text : Inserted} {kept replaced : Ledger Rope}

/-- A replaced range that goes forward is put behind the open batch. -/
theorem add_forward (hle : start ≤ stop) (hstop : stop ≤ d.length)
    (hsome : ¬ (start = stop ∧ (text.toRope d.sep).isEmpty = true)) (hpos : d.pos ≤ start)
    (hkept : d.ledger.push? false (.keep (start - d.pos)) = some kept)
    (hreplaced : kept.push? false (Span.replace (stop - start) (text.toRope d.sep))
      = some replaced) :
    d.add (.replace start stop text) = .done { d with ledger := replaced, pos := stop } := by
  have hrange : ¬ (stop < start ∨ d.length < stop) := by omega
  rw [add]
  rw [if_neg hrange, replace, if_neg hsome, if_neg (Nat.not_lt.mpr hpos)]
  dsimp only
  rw [Checked.done_bind, hkept, Checked.lift_some, Checked.done_bind, hreplaced]
  rfl

/-- A replaced range that goes back is the first of a new batch. -/
theorem add_back (hle : start ≤ stop) (hstop : stop ≤ d.length)
    (hsome : ¬ (start = stop ∧ (text.toRope d.sep).isEmpty = true)) (hback : start < d.pos)
    (hsettled : d.settle = .done settled)
    (hkept : settled.ledger.push? false (.keep (start - settled.pos)) = some kept)
    (hreplaced : kept.push? false (Span.replace (stop - start) (text.toRope d.sep))
      = some replaced) :
    d.add (.replace start stop text) = .done { settled with ledger := replaced, pos := stop } := by
  have hrange : ¬ (stop < start ∨ d.length < stop) := by omega
  rw [add]
  rw [if_neg hrange, replace, if_neg hsome, if_pos hback]
  dsimp only
  rw [hsettled, Checked.done_bind, hkept, Checked.lift_some, Checked.done_bind, hreplaced]
  rfl

end ChangeSet.Draft

/-- One replaced range makes one batch. -/
theorem ChangeSet.ofEdit_replace {start stop length : Nat} {text : Inserted} {sep : Option String}
    {kept replaced batch : Ledger Rope} (hle : start ≤ stop) (hstop : stop ≤ length)
    (hsome : ¬ (start = stop ∧ (text.toRope sep).isEmpty = true))
    (hkept : Ledger.push? false .blank (.keep start) = some kept)
    (hreplaced : kept.push? false (Span.replace (stop - start) (text.toRope sep)) = some replaced)
    (hbatch : replaced.push? false (.keep (length - stop)) = some batch) :
    ofEdit (.replace start stop text) length sep = .done (ofLedger batch) := by
  have hadd : Draft.add ⟨length, sep, .blank, 0, none⟩ (.replace start stop text)
      = .done ⟨length, sep, replaced, stop, none⟩ :=
    Draft.add_forward hle hstop hsome (Nat.zero_le start) hkept hreplaced
  have hwhole : Draft.batch? ⟨length, sep, replaced, stop, none⟩ = some (ofLedger batch) := by
    rw [Draft.batch?, hbatch, Option.map_some]
  rw [ofEdit, Edit.atoms, List.foldlM_cons, hadd, Checked.done_bind, List.foldlM_nil]
  show Draft.finish ⟨length, sep, replaced, stop, none⟩ = _
  rw [Draft.finish]
  simp only [Option.isNone_none, if_true]
  rw [Draft.close, hwhole]
  rfl

end TextRevision
