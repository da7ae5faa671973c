import TextRevision.Proofs.Change.Undoing
import TextRevision.Proofs.Change.Written
import TextRevision.Proofs.Rope.Sameness
import TextRevision.Replay

/-!
# Revisions replayed and undone again

Revisions are made to a document until one of them does not fit. Where they are to be undone, an
inverse is taken before each of them, from the document that it will have to give back. The inverses
that were taken lead back from the document of the moment to the first one, whatever the trees of
the documents look like: this holds before the first revision and is kept by each one that fits.

## Main definitions

- `Revision.applyAll`: revisions made to a document one after the other
- `Replay.Stuck`: the first revision that does not fit the document it is made to
- `Replay.LeadsBack`: inverses that lead back to a document

## Main statements

- `Replay.inverse_of_apply`: one more revision
- `Replay.forward_ok`, `Replay.forward_stuck`: a whole run
- `replay_undoes`
- `Replay.trouble_of_replayFiles`: the same of the tool that reads its files
-/

namespace TextRevision

/-- The document that revisions lead to, made to `doc` one after the other. -/
def Revision.applyAll (doc : Rope) (cs : List Revision) : Except Fault Rope :=
  cs.foldlM (fun doc c => c.apply doc) doc

namespace Replay

/-- The revision with index `i` does not fit the document that those before it lead to, while each
of them does fit. -/
structure Stuck (doc : Rope) (cs : List Revision) (i : Nat) (mid : Rope) (c : Revision) : Prop where
  before : Revision.applyAll doc (cs.take i) = .ok mid
  next : cs[i]? = some c
  differ : c.length ≠ mid.length

/-- Inverses, newest first, lead back from every document like `doc` to one like `origin`. -/
def LeadsBack (undo : List Revision) (doc origin : Rope) : Prop :=
  ∀ r : Rope, r.Alike doc → ∃ s, back undo r = .ok s ∧ s.Alike origin

/-- The trouble with a revision that does not fit: it is the inverse that fails, if one is asked
for. -/
def refused (invert : Bool) (index : Nat) (fault : Fault) : Trouble :=
  if invert then .inverting index fault else .applying index fault

section Steps

variable {c : Revision} {cs undo : List Revision} {doc r origin : Rope}

theorem applyAll_cons (c : Revision) (cs : List Revision) (doc : Rope) :
    Revision.applyAll doc (c :: cs) = (c.apply doc >>= fun r => Revision.applyAll r cs) :=
  rfl

theorem stuck_zero_iff {mid : Rope} {d : Revision} :
    Stuck doc (c :: cs) 0 mid d ↔ doc = mid ∧ c = d ∧ d.length ≠ mid.length := by
  constructor
  · rintro ⟨hbefore, hnext, hdiffer⟩
    exact ⟨Except.ok.inj hbefore, Option.some.inj hnext, hdiffer⟩
  · rintro ⟨rfl, rfl, hdiffer⟩
    exact ⟨rfl, rfl, hdiffer⟩

theorem stuck_succ_iff {i : Nat} {mid : Rope} {d : Revision} :
    Stuck doc (c :: cs) (i + 1) mid d ↔ ∃ r, c.apply doc = .ok r ∧ Stuck r cs i mid d := by
  constructor
  · rintro ⟨hbefore, hnext, hdiffer⟩
    rw [List.take_succ_cons, applyAll_cons] at hbefore
    obtain ⟨r, hr, hbefore⟩ := ok_of_bind hbefore
    exact ⟨r, hr, hbefore, hnext, hdiffer⟩
  · rintro ⟨r, hr, hbefore, hnext, hdiffer⟩
    refine ⟨?_, hnext, hdiffer⟩
    rw [List.take_succ_cons, applyAll_cons, hr]
    exact hbefore

theorem leadsBack_nil (doc : Rope) : LeadsBack [] doc doc :=
  fun r hr => ⟨r, rfl, hr⟩

theorem fits_of_apply (h : c.apply doc = .ok r) : c.length = doc.length := by
  by_contra hne
  rw [Revision.apply_eq, if_neg hne] at h
  cases h

/-- A revision that is made has an inverse, which leads back over it. -/
theorem inverse_of_apply (hc : c.Parsed) (hdoc : doc.Obeys Rope.shareRule)
    (h : c.apply doc = .ok r) :
    r.Obeys Rope.shareRule ∧ ∃ d, c.inverse doc = .ok d
      ∧ ∀ {undo origin}, LeadsBack undo doc origin → LeadsBack (d :: undo) r origin := by
  have hfits : c.length = doc.length := fits_of_apply h
  obtain ⟨made, hmade, hrObeys, hrItems⟩ := Revision.apply_spec hc.sound hdoc hfits
  obtain rfl : made = r := Except.ok.inj (hmade.symm.trans h)
  obtain ⟨d, hd, hdSound, hdLength, hdItems⟩ :=
    Revision.inverse_spec hc.sound hc.length_le hdoc hfits
  refine ⟨hrObeys, d, hd, fun hback r' hr' => ?_⟩
  -- When its turn comes, the inverse is made to another tree of the same items.
  have hdFits : d.length = r'.length := by
    rw [hdLength, ← hrItems, hrObeys.length_items, hr'.length_eq]
  obtain ⟨s, hs, hsObeys, hsItems⟩ := Revision.apply_spec hdSound hr'.left hdFits
  rw [hr'.items, hrItems, hdItems] at hsItems
  obtain ⟨t, ht, hlike⟩ := hback s ⟨hsObeys, hdoc, hsItems⟩
  refine ⟨t, ?_, hlike⟩
  rw [back, hs]
  exact ht

/-- The run goes on behind a revision that fits. -/
theorem forward_cons {d : Revision} (hd : c.inverse doc = .ok d) (hr : c.apply doc = .ok r)
    (invert : Bool) (index : Nat) :
    forward invert (c :: cs) index doc undo
      = forward invert cs (index + 1) r (if invert then d :: undo else undo) := by
  cases invert <;> rw [forward, hr]
  · rfl
  · rw [if_pos rfl, hd]
    rfl

/-- The run ends at a revision that does not fit. -/
theorem forward_refused (h : c.length ≠ doc.length) (invert : Bool) (index : Nat) :
    forward invert (c :: cs) index doc undo
      = .error (refused invert index (.lengthMismatch c.length doc.length)) := by
  cases invert
  · rw [forward, Revision.apply_eq, if_neg h]
    rfl
  · rw [forward, Revision.inverse_eq, if_neg h]
    rfl

end Steps

section Runs

variable {cs undo : List Revision} {doc origin : Rope} {invert : Bool}
  (hcs : ∀ c ∈ cs, c.Parsed) (hdoc : doc.Obeys Rope.shareRule)

include hcs hdoc

/-- Either all revisions can be made, or there is a first one that does not fit. -/
theorem ok_or_stuck :
    (∃ r, Revision.applyAll doc cs = .ok r) ∨ ∃ i mid c, Stuck doc cs i mid c := by
  induction cs generalizing doc with
  | nil => exact Or.inl ⟨doc, rfl⟩
  | cons c cs ih =>
    obtain ⟨hc, hcs⟩ := List.forall_mem_cons.mp hcs
    by_cases hfits : c.length = doc.length
    · obtain ⟨r, hr, hrObeys, -⟩ := Revision.apply_spec hc.sound hdoc hfits
      rcases ih hcs hrObeys with ⟨s, hs⟩ | ⟨i, mid, d, hstuck⟩
      · refine Or.inl ⟨s, ?_⟩
        rw [applyAll_cons, hr]
        exact hs
      · exact Or.inr ⟨i + 1, mid, d, stuck_succ_iff.mpr ⟨r, hr, hstuck⟩⟩
    · exact Or.inr ⟨0, doc, c, stuck_zero_iff.mpr ⟨rfl, rfl, hfits⟩⟩

/-- A run over revisions that can all be made leads where these lead, with inverses that lead back
if they are asked for. -/
theorem forward_ok {r : Rope} (hback : invert = true → LeadsBack undo doc origin)
    (h : Revision.applyAll doc cs = .ok r) (index : Nat) :
    ∃ undo', forward invert cs index doc undo = .ok (r, undo') ∧ r.Obeys Rope.shareRule
      ∧ (invert = true → LeadsBack undo' r origin) := by
  induction cs generalizing doc undo index with
  | nil =>
    obtain rfl : doc = r := Except.ok.inj h
    exact ⟨undo, rfl, hdoc, hback⟩
  | cons c cs ih =>
    obtain ⟨hc, hcs⟩ := List.forall_mem_cons.mp hcs
    rw [applyAll_cons] at h
    obtain ⟨mid, hmid, h⟩ := ok_of_bind h
    obtain ⟨hmidObeys, d, hd, hstep⟩ := inverse_of_apply hc hdoc hmid
    rw [forward_cons hd hmid]
    refine ih hcs hmidObeys (fun hinvert => ?_) h (index + 1)
    rw [if_pos hinvert]
    exact hstep (hback hinvert)

/-- A run gets no further than the first revision that does not fit. -/
theorem forward_stuck {i : Nat} {mid : Rope} {c : Revision} (h : Stuck doc cs i mid c)
    (index : Nat) :
    forward invert cs index doc undo
      = .error (refused invert (index + i) (.lengthMismatch c.length mid.length)) := by
  induction cs generalizing doc undo index i with
  | nil => cases h.next
  | cons d cs ih =>
    obtain ⟨hd, hcs⟩ := List.forall_mem_cons.mp hcs
    cases i with
    | zero =>
      obtain ⟨rfl, rfl, hdiffer⟩ := stuck_zero_iff.mp h
      exact forward_refused hdiffer invert index
    | succ i =>
      obtain ⟨r, hr, hstuck⟩ := stuck_succ_iff.mp h
      obtain ⟨hrObeys, e, he, -⟩ := inverse_of_apply hd hdoc hr
      rw [forward_cons he hr, ih hcs hrObeys hstuck, Nat.add_right_comm, Nat.add_assoc]

/-- Revisions that can all be made lead where they do in any case, and undoing them leads back. -/
theorem replay_of_applyAll {r : Rope} (h : Revision.applyAll doc cs = .ok r) :
    replay doc cs false = .ok r
      ∧ ∃ s, replay doc cs true = .ok s ∧ s.Alike doc := by
  have hstart : ∀ invert : Bool, invert = true → LeadsBack [] doc doc :=
    fun _ _ => leadsBack_nil doc
  constructor
  · obtain ⟨undo, hforward, -⟩ := forward_ok hcs hdoc (hstart false) h 0
    rw [replay, hforward]
    rfl
  · obtain ⟨undo, hforward, hrObeys, hback⟩ := forward_ok hcs hdoc (hstart true) h 0
    obtain ⟨s, hs, hlike⟩ := hback rfl r (.refl hrObeys)
    refine ⟨s, ?_, hlike⟩
    rw [replay, hforward]
    show (back undo r >>= fun restored =>
      if restored == doc then .ok restored else .error .diverged) = _
    rw [hs]
    exact if_pos hlike.beq

theorem replay_of_stuck {i : Nat} {mid : Rope} {c : Revision} (h : Stuck doc cs i mid c)
    (invert : Bool) :
    replay doc cs invert = .error (refused invert i (.lengthMismatch c.length mid.length)) := by
  rw [replay, forward_stuck hcs hdoc h 0, Nat.zero_add]
  rfl

theorem exists_replay_iff (invert : Bool) :
    (∃ s, replay doc cs invert = .ok s) ↔ ∃ r, Revision.applyAll doc cs = .ok r := by
  constructor
  · rintro ⟨s, hs⟩
    rcases ok_or_stuck hcs hdoc with hr | ⟨i, mid, c, hstuck⟩
    · exact hr
    · cases hs.symm.trans (replay_of_stuck hcs hdoc hstuck invert)
  · rintro ⟨r, hr⟩
    obtain ⟨hplain, s, hs, -⟩ := replay_of_applyAll hcs hdoc hr
    cases invert
    · exact ⟨r, hplain⟩
    · exact ⟨s, hs⟩

theorem replay_eq_error_iff (invert : Bool) (t : Trouble) :
    replay doc cs invert = .error t ↔ ∃ i mid c, Stuck doc cs i mid c
      ∧ t = refused invert i (.lengthMismatch c.length mid.length) := by
  constructor
  · intro h
    rcases ok_or_stuck hcs hdoc with hr | ⟨i, mid, c, hstuck⟩
    · obtain ⟨s, hs⟩ := (exists_replay_iff hcs hdoc invert).mpr hr
      cases hs.symm.trans h
    · exact ⟨i, mid, c, hstuck,
        Except.error.inj (h.symm.trans (replay_of_stuck hcs hdoc hstuck invert))⟩
  · rintro ⟨i, mid, c, hstuck, rfl⟩
    exact replay_of_stuck hcs hdoc hstuck invert

end Runs

end Replay

/-- Replaying is making the revisions one after the other, and it fails at the first one that does
not fit the document of the moment. Where they are to be undone again, it fails at the same one,
which cannot be inverted; otherwise it gives the document back. No inverse that was taken is refused
later, and undoing reaches no other document. -/
theorem replay_undoes {fits : Nat → Prop} {doc : Rope} {cs : List Revision}
    (hcs : ∀ c ∈ cs, c.Parsed) (hdoc : Rope.Reachable fits doc) :
    (∀ r, replay doc cs false = .ok r ↔ Revision.applyAll doc cs = .ok r)
      ∧ (∀ t, replay doc cs false = .error t ↔ ∃ i mid c, Replay.Stuck doc cs i mid c
        ∧ t = .applying i (.lengthMismatch c.length mid.length))
      ∧ ((∃ s, replay doc cs true = .ok s) ↔ ∃ r, replay doc cs false = .ok r)
      ∧ (∀ s, replay doc cs true = .ok s → (s == doc) = true ∧ s.lines = doc.lines)
      ∧ ∀ t, replay doc cs true = .error t ↔ ∃ i mid c, Replay.Stuck doc cs i mid c
        ∧ t = .inverting i (.lengthMismatch c.length mid.length) := by
  have hobeys := hdoc.obeys
  refine ⟨fun r => ⟨fun h => ?_, fun h => (Replay.replay_of_applyAll hcs hobeys h).1⟩,
    Replay.replay_eq_error_iff hcs hobeys false, ?_, fun s h => ?_,
    Replay.replay_eq_error_iff hcs hobeys true⟩
  · obtain ⟨r', hr'⟩ := (Replay.exists_replay_iff hcs hobeys false).mp ⟨r, h⟩
    obtain rfl : r' = r :=
      Except.ok.inj ((Replay.replay_of_applyAll hcs hobeys hr').1.symm.trans h)
    exact hr'
  · rw [Replay.exists_replay_iff hcs hobeys, Replay.exists_replay_iff hcs hobeys]
  · obtain ⟨r, hr⟩ := (Replay.exists_replay_iff hcs hobeys true).mp ⟨s, h⟩
    obtain ⟨-, s', hs', hlike⟩ := Replay.replay_of_applyAll hcs hobeys hr
    obtain rfl : s' = s := Except.ok.inj (hs'.symm.trans h)
    exact ⟨hlike.beq, hlike.lines_eq⟩

/-- A character removed and another one put in its place, and the first revision made twice. -/
theorem replay_undoes_three_characters :
    (∀ c ∈ [removeBehind 2, insertBehind 2], c.Parsed)
      ∧ Rope.ofLines? ["abc"] = .ok (Rope.ofBlock ["abc"])
      ∧ (∃ s, replay (Rope.ofBlock ["abc"]) [removeBehind 2, insertBehind 2] true = .ok s
        ∧ s.lines = ["abc"])
      ∧ replay (Rope.ofBlock ["abc"]) [removeBehind 2, removeBehind 2] true
        = .error (.inverting 1 (.lengthMismatch 3 2)) := by
  have hremove : (removeBehind 2).Parsed := ⟨.arr [.int 2, .arr [.int 1]], by decide, rfl⟩
  have hinsert : (insertBehind 2).Parsed :=
    ⟨.arr [.int 2, .arr [.int 0, .str "x"]], by decide, by cbv⟩
  have hlines : Rope.ofLines? ["abc"] = .ok (Rope.ofBlock ["abc"]) := rfl
  have hdoc : Rope.Reachable (fun _ => True) (Rope.ofBlock ["abc"]) := .ofLines hlines
  have hcs : ∀ c ∈ [removeBehind 2, insertBehind 2], c.Parsed := by
    simp [hremove, hinsert]
  have htwice : ∀ c ∈ [removeBehind 2, removeBehind 2], c.Parsed := by
    simp [hremove]
  obtain ⟨hplain, -, hinvert, hback, -⟩ := replay_undoes hcs hdoc
  obtain ⟨-, -, -, -, herror⟩ := replay_undoes htwice hdoc
  obtain ⟨s, hs⟩ := hinvert.mpr ⟨_, (hplain _).mpr rfl⟩
  refine ⟨hcs, hlines, ⟨s, hs, (hback s hs).2⟩, (herror _).mpr ?_⟩
  exact ⟨1, _, removeBehind 2, ⟨rfl, rfl, by decide⟩, rfl⟩

/-- The revisions that the tool reads off a file are revisions that were read off values. -/
theorem Replay.parsed_of_revisions? {content : String} {cs : List Revision}
    (h : Replay.revisions? content = some cs) (hcontent : content.length ≤ lengthLimit) :
    ∀ c ∈ cs, c.Parsed := by
  obtain ⟨v, hv, h⟩ := Option.bind_eq_some_iff.mp h
  obtain ⟨items, hitems, h⟩ := Option.bind_eq_some_iff.mp h
  obtain rfl := Json.items?_eq_some_iff.mp hitems
  intro c hc
  obtain ⟨item, hitem, hread⟩ := exists_of_mem_mapM h hc
  have haddressable : item.Addressable :=
    Nat.le_trans (Json.volume_le_of_mem hitem) (Nat.le_trans (Json.volume_le_of_read hv) hcontent)
  refine ⟨item, haddressable, ?_⟩
  rw [Revision.ofJson, hread]

/-- The tool that is asked to undo can only fail to read its files, or to invert a revision. -/
theorem Replay.trouble_of_replayFiles {file? : String → Option String} {document changes : String}
    {t : Trouble}
    (hchanges : ∀ content, file? changes = some content → content.length ≤ lengthLimit)
    (h : replayFiles file? document changes true = .error t) :
    t.isFileTrouble = true ∨ ∃ i fault, t = .inverting i fault := by
  rw [replayFiles] at h
  cases hdocument : file? document with
  | none =>
    rw [hdocument] at h
    cases h
    exact Or.inl rfl
  | some text =>
    cases hcontent : file? changes with
    | none =>
      rw [hdocument, hcontent] at h
      cases h
      exact Or.inl rfl
    | some content =>
      cases hread : revisions? content with
      | none =>
        rw [hdocument, hcontent] at h
        simp only [hread] at h
        cases h
        exact Or.inl rfl
      | some cs =>
        have hdoc : Rope.Reachable (fun _ => True) (Rope.ofString text none) := .ofString trivial
        have hcs := parsed_of_revisions? hread (hchanges content hcontent)
        rw [hdocument, hcontent] at h
        simp only [hread] at h
        cases hreplay : replay (Rope.ofString text none) cs true with
        | ok s =>
          rw [hreplay] at h
          cases h
        | error fault =>
          rw [hreplay] at h
          cases h
          obtain ⟨i, mid, c, -, rfl⟩ := (replay_eq_error_iff hcs hdoc.obeys true _).mp hreplay
          exact Or.inr ⟨i, _, rfl⟩

end TextRevision
