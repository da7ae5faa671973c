import TextRevision.Change.Divide
import TextRevision.Proofs.Change.Outcome
import TextRevision.Proofs.Line.Splitting

/-!
# The texts of changes

Whatever is made of changes, every text in it is one of their texts, or a part of one, or several
of them in a row. So a property of documents that cutting and joining keep passes from the texts of
changes to those of the changes made from them.

## Main definitions

- `Insertion.Closed`: a property of insertions that cutting and joining keep
- `Change.AllTexts`: a property of all the texts of a change
- `Edit.AtomTexts`: a property of the text of an edit
- `Rope.Kept`: a property of documents that all operations but the splitting of strings keep
- `Rope.Preserved`: one that building from any lines keeps as well

## Main statements

- `Change.AllTexts.andThen`, `Change.AllTexts.rebase`, `Change.AllTexts.divide`
- `Rope.Kept.allTexts_ofEdit`, `Rope.Kept.allTexts_ofJson`, `Rope.Kept.allTexts_inverse`
-/

namespace TextRevision

variable {α β : Type}

/-- A property of insertions that cutting and joining keep. -/
structure Insertion.Closed [Insertion α] (P : α → Prop) : Prop where
  empty : P Insertion.empty
  append : ∀ x y, P x → P y → P (Insertion.append x y)
  extract : ∀ x start stop, P x → P (Insertion.extract x start stop)

theorem Insertion.Closed.join [Insertion α] {P : α → Prop} (h : Closed P) {x y : α} (hx : P x)
    (hy : P y) : P (join x y) := by
  rw [Insertion.join]
  split
  · exact hx
  · split
    · exact hy
    · exact h.append x y hx hy

/-- A property of all the texts of spans. -/
def Span.AllTexts (P : α → Prop) (spans : List (Span α)) : Prop :=
  ∀ s ∈ spans, P s.text

/-- A property of all the texts of spans in a walk. -/
def Rest.AllTexts (P : α → Prop) (rs : List (Rest α)) : Prop :=
  ∀ r ∈ rs, P r.text

/-- A property of all the texts of a change. -/
def Change.AllTexts (P : α → Prop) (c : Change α) : Prop :=
  Span.AllTexts P c.spans

/-- A property of the result of a walk, if there is one. -/
def Walk.Gives (Q : β → Prop) : Walk β → Prop
  | .finished result => Q result
  | .mismatch => True
  | .stalled => True

variable {P : α → Prop}

namespace Span

@[simp] theorem allTexts_nil : AllTexts P [] := by
  simp [AllTexts]

@[simp] theorem allTexts_cons {s : Span α} {spans : List (Span α)} :
    AllTexts P (s :: spans) ↔ P s.text ∧ AllTexts P spans := by
  simp [AllTexts]

@[simp] theorem allTexts_reverse {spans : List (Span α)} :
    AllTexts P spans.reverse ↔ AllTexts P spans := by
  simp [AllTexts]

theorem AllTexts.pushRun [Insertion α] (hP : Insertion.Closed P) {spans : List (Span α)}
    (h : AllTexts P spans) (join : Bool) (s : Span α) : AllTexts P (pushRun join spans s) := by
  unfold Span.pushRun
  split
  · exact h
  · cases spans with
    | nil => exact allTexts_cons.mpr ⟨hP.empty, h⟩
    | cons last rest =>
      have hlast := allTexts_cons.mp h
      dsimp only
      split
      · exact allTexts_cons.mpr hlast
      · split
        · exact allTexts_cons.mpr hlast
        · exact allTexts_cons.mpr ⟨hP.empty, h⟩

theorem AllTexts.push [Insertion α] (hP : Insertion.Closed P) {spans : List (Span α)}
    (h : AllTexts P spans) (join : Bool) {s : Span α} (hs : P s.text) :
    AllTexts P (push join spans s) := by
  have hrun := h.pushRun hP join s
  rw [Span.push]
  cases hspans : Span.pushRun join spans s with
  | nil => exact allTexts_nil
  | cons last rest =>
    rw [hspans, allTexts_cons] at hrun
    exact allTexts_cons.mpr ⟨hP.join hrun.1 hs, hrun.2⟩

end Span

namespace Rest

@[simp] theorem allTexts_nil : AllTexts P [] := by
  simp [AllTexts]

@[simp] theorem allTexts_cons {r : Rest α} {rs : List (Rest α)} :
    AllTexts P (r :: rs) ↔ P r.text ∧ AllTexts P rs := by
  simp [AllTexts]

theorem allTexts_ofSpans {spans : List (Span α)} :
    AllTexts P (spans.map ofSpan) ↔ Span.AllTexts P spans := by
  simp [AllTexts, Span.AllTexts, ofSpan]

theorem AllTexts.forward {rs : List (Rest α)} (h : AllTexts P rs) (len : Nat) :
    AllTexts P (forward len rs) := by
  cases rs with
  | nil => exact h
  | cons r rs =>
    have hr := allTexts_cons.mp h
    rw [Rest.forward]
    split
    · exact hr.2
    · exact allTexts_cons.mpr hr

theorem AllTexts.forwardNew {rs : List (Rest α)} (h : AllTexts P rs) (len : Nat) :
    AllTexts P (forwardNew len rs) := by
  cases rs with
  | nil => exact h
  | cons r rs =>
    have hr := allTexts_cons.mp h
    rw [Rest.forwardNew]
    split
    · exact h.forward len
    · split
      · exact hr.2
      · exact allTexts_cons.mpr hr

end Rest

namespace Change

variable [Insertion α]

theorem text_meet (hP : Insertion.Closed P) {a b : Rest α} (ha : P a.text) (hb : P b.text)
    (len : Nat) : P (meet len a b).text := by
  rw [meet]
  split
  · dsimp only
    split
    · exact hb
    · exact hP.empty
  · dsimp only
    split
    · exact hP.extract _ _ _ ha
    · dsimp only
      split
      · exact hb
      · exact hP.empty

theorem composeSpans_texts (hP : Insertion.Closed P) (as bs : List (Rest α)) (joined : Bool)
    (spans : List (Span α)) (ha : Rest.AllTexts P as) (hb : Rest.AllTexts P bs)
    (hs : Span.AllTexts P spans) :
    (composeSpans as bs joined spans).Gives (Span.AllTexts P) := by
  fun_induction composeSpans as bs joined spans with
  | case1 => simpa [Walk.Gives] using hs
  | case2 => simpa [Walk.Gives] using hs
  | case3 b bs joined spans _ _ ih =>
    rw [Rest.allTexts_cons] at hb
    exact ih ha hb.2 (hs.push hP _ hb.1)
  | case4 => trivial
  | case5 a as joined spans _ ih =>
    rw [Rest.allTexts_cons] at ha
    exact ih ha.2 hb (hs.push hP _ hP.empty)
  | case6 => simpa [Walk.Gives] using hs
  | case7 => trivial
  | case8 a as b bs joined spans _ ih =>
    rw [Rest.allTexts_cons] at ha
    exact ih ha.2 hb (hs.push hP _ hP.empty)
  | case9 a as b bs joined spans _ _ ih =>
    rw [Rest.allTexts_cons] at hb
    exact ih ha hb.2 (hs.push hP _ hb.1)
  | case10 => simpa [Walk.Gives] using hs
  | case11 => trivial
  | case12 => trivial
  | case13 a as b bs joined spans _ _ _ _ len _ spans' ih =>
    have hmeet := text_meet hP (Rest.allTexts_cons.mp ha).1 (Rest.allTexts_cons.mp hb).1 len
    exact ih (ha.forwardNew len) (hb.forward len) (hs.push hP joined hmeet)

theorem AllTexts.andThen (hP : Insertion.Closed P) {c d e : Change α} (hc : c.AllTexts P)
    (hd : d.AllTexts P) (h : c.andThen d = .ok e) : e.AllTexts P := by
  have hwalk := composeSpans_texts hP _ _ false [] (Rest.allTexts_ofSpans.mpr hc)
    (Rest.allTexts_ofSpans.mpr hd) Span.allTexts_nil
  rw [andThen_eq] at h
  split at h
  · split at h
    · obtain rfl := Except.ok.inj h
      exact hd
    · split at h
      · obtain rfl := Except.ok.inj h
        exact hc
      · split at h
        · next hfinished =>
          obtain rfl := Except.ok.inj h
          rwa [hfinished] at hwalk
        · cases h
  · cases h

theorem absorb_texts (hP : Insertion.Closed P) (as : List (Rest α)) (told : Bool) (len : Nat)
    (spans : List (Span α)) (ha : Rest.AllTexts P as) (hs : Span.AllTexts P spans)
    {as' : List (Rest α)} {told' : Bool} {spans' : List (Span α)}
    (h : absorb as told len spans = some (as', told', spans')) :
    Rest.AllTexts P as' ∧ Span.AllTexts P spans' := by
  fun_induction absorb as told len spans with
  | case1 as told spans =>
    obtain ⟨rfl, -, rfl⟩ : as = as' ∧ told = told' ∧ spans = spans' := by simpa using h
    exact ⟨ha, hs⟩
  | case2 => cases h
  | case3 a as told len spans _ ih =>
    have ha' := Rest.allTexts_cons.mp ha
    refine ih ha'.2 ?_ h
    split
    · exact hs.push hP false ha'.1
    · exact hs
  | case4 a as told len spans _ =>
    obtain ⟨rfl, -, rfl⟩ : Rest.forward (len + 1) (a :: as) = as' ∧ told = told' ∧ spans = spans' :=
      by simpa using h
    exact ⟨ha.forward _, hs⟩

/-- A replaced run of which the insertion was told inserts nothing more. -/
theorem text_told (hP : Insertion.Closed P) {told : Bool} {kept : Nat} {count : Int} {text : α}
    (h : P text) :
    P (if told then (⟨kept, 0, Insertion.empty⟩ : Span α) else ⟨kept, count, text⟩).text := by
  split
  · exact hP.empty
  · exact h

theorem rebaseSpans_texts (hP : Insertion.Closed P) (before : Bool) (as : List (Rest α))
    (told : Bool) (bs : List (Rest β)) (spans : List (Span α)) (ha : Rest.AllTexts P as)
    (hs : Span.AllTexts P spans) :
    (rebaseSpans before as told bs spans).Gives (Span.AllTexts P) := by
  fun_induction rebaseSpans before as told bs spans with
  | case1 => simpa [Walk.Gives] using hs
  | case2 => trivial
  | case3 told b bs spans _ _ ih => exact ih ha (hs.push hP false hP.empty)
  | case4 => simpa [Walk.Gives] using hs
  | case5 => trivial
  | case6 => trivial
  | case7 a as told spans _ _ ih =>
    have ha' := Rest.allTexts_cons.mp ha
    refine ih ha'.2 ?_
    split
    · exact hs
    · exact hs.push hP false ha'.1
  | case8 => simpa [Walk.Gives] using hs
  | case9 => trivial
  | case10 => trivial
  | case11 a as told b bs spans _ _ spans' _ ih =>
    exact ih (Rest.allTexts_cons.mp ha).2 (hs.push hP false hP.empty)
  | case12 a as told b bs spans _ _ spans' _ ih =>
    exact ih (ha.forward _) (hs.push hP false hP.empty)
  | case13 a as told b bs spans _ _ _ as' told' spans' habsorb ih =>
    obtain ⟨ha', hs'⟩ := absorb_texts hP _ _ _ _ ha (hs.push hP false hP.empty) habsorb
    exact ih ha' hs'
  | case14 => trivial
  | case15 a as told b bs spans _ _ _ _ met spans' _ ih =>
    have ha' := Rest.allTexts_cons.mp ha
    exact ih ha'.2 (hs.push hP false (text_told hP ha'.1))
  | case16 => trivial
  | case17 a as told b bs spans _ _ _ _ met spans' _ _ ih =>
    have ha' := Rest.allTexts_cons.mp ha
    exact ih (ha.forward _) (hs.push hP false (text_told hP ha'.1))
  | case18 => simpa [Walk.Gives] using hs
  | case19 => trivial

theorem AllTexts.rebase [Insertion β] (hP : Insertion.Closed P) {c e : Change α} {d : Change β}
    {before : Bool} (hc : c.AllTexts P) (h : c.rebase d before = .ok e) : e.AllTexts P := by
  have hwalk := rebaseSpans_texts hP before _ false (d.spans.map Rest.ofSpan) []
    (Rest.allTexts_ofSpans.mpr hc) Span.allTexts_nil
  rw [rebase_eq] at h
  split at h
  · split at h
    · obtain rfl := Except.ok.inj h
      exact hc
    · split at h
      · next hfinished =>
        obtain rfl := Except.ok.inj h
        rwa [hfinished] at hwalk
      · cases h
  · cases h

/-- The texts of what is left of a change that is being divided, and of its outer part. -/
def Divider.AllTexts (P : α → Prop) (w : Divider α) : Prop :=
  Rest.AllTexts P w.spans ∧ Span.AllTexts P w.outside

theorem Divider.AllTexts.putOutside (hP : Insertion.Closed P) {w : Divider α} (h : w.AllTexts P)
    (len : Nat) {r : Rest α} (hr : P r.text) : (w.putOutside len r).AllTexts P := by
  refine ⟨h.1, h.2.push hP false ?_⟩
  dsimp only
  split
  · exact hr
  · exact hP.empty

theorem Divider.AllTexts.putInside (hP : Insertion.Closed P) {w : Divider α} (h : w.AllTexts P)
    (len : Nat) (r : Rest α) : (w.putInside len r).AllTexts P :=
  ⟨h.1, h.2.push hP false hP.empty⟩

theorem leaveOutside_texts (hP : Insertion.Closed P) (stop : Nat) (rs : List (Rest α))
    (w : Divider α) (hrs : Rest.AllTexts P rs) (h : w.AllTexts P) :
    (leaveOutside stop rs w).AllTexts P := by
  induction rs generalizing w with
  | nil => exact ⟨Rest.allTexts_nil, h.2⟩
  | cons r rs ih =>
    have hrs' := Rest.allTexts_cons.mp hrs
    rw [leaveOutside]
    split
    · split
      · exact ⟨Rest.allTexts_nil, h.2⟩
      · dsimp only
        split
        · exact ih _ hrs'.2 (h.putOutside hP _ hrs'.1)
        · exact ⟨hrs.forward _, (h.putOutside hP _ hrs'.1).2⟩
    · exact ⟨hrs, h.2⟩

theorem takeInside_texts (hP : Insertion.Closed P) (stop : Nat) (rs : List (Rest α))
    (w : Divider α) (hrs : Rest.AllTexts P rs) (h : w.AllTexts P) :
    (takeInside stop rs w).AllTexts P := by
  induction rs generalizing w with
  | nil => exact ⟨Rest.allTexts_nil, h.2⟩
  | cons r rs ih =>
    have hrs' := Rest.allTexts_cons.mp hrs
    rw [takeInside]
    split
    · split
      · exact ⟨Rest.allTexts_nil, h.2⟩
      · dsimp only
        split
        · exact ih _ hrs'.2 (h.putInside hP _ r)
        · exact ⟨hrs.forward _, (h.putInside hP _ r).2⟩
    · exact ⟨hrs, h.2⟩

theorem Divider.AllTexts.passRanges (hP : Insertion.Closed P) {w : Divider α} (h : w.AllTexts P)
    (ranges : List (Nat × Nat)) : (ranges.foldl Divider.passRange w).AllTexts P := by
  induction ranges generalizing w with
  | nil => exact h
  | cons range ranges ih =>
    have hleft := leaveOutside_texts hP range.1 w.spans w h.1 h
    exact ih (takeInside_texts hP range.2 _ _ hleft.1 hleft)

theorem Divider.AllTexts.putAllOutside (hP : Insertion.Closed P) {w : Divider α} (h : w.AllTexts P)
    {rs : List (Rest α)} (hrs : Rest.AllTexts P rs) :
    (rs.foldl (fun w r => w.putOutside r.length r) w).AllTexts P := by
  induction rs generalizing w with
  | nil => exact h
  | cons r rs ih =>
    rw [Rest.allTexts_cons] at hrs
    exact ih (h.putOutside hP _ hrs.1) hrs.2

theorem Divider.AllTexts.finish (hP : Insertion.Closed P) {w : Divider α} (h : w.AllTexts P) :
    w.finish.AllTexts P := by
  apply h.putAllOutside hP
  intro r hr
  exact h.1 r ((List.takeWhile_sublist _).subset hr)

theorem AllTexts.divide (hP : Insertion.Closed P) {c : Change α} (h : c.AllTexts P)
    (ranges : List (Nat × Nat)) : (c.divide ranges).outside.AllTexts P := by
  have hstart : Divider.AllTexts P ⟨c.spans.map Rest.ofSpan, 0, [], []⟩ :=
    ⟨Rest.allTexts_ofSpans.mpr h, Span.allTexts_nil⟩
  exact Span.allTexts_reverse.mpr ((hstart.passRanges hP ranges).finish hP).2

omit [Insertion α] in
/-- The texts of replaced runs. -/
theorem AllTexts.replacementsFrom {spans : List (Span α)} (h : Span.AllTexts P spans)
    (each : Bool) (pos newPos : Nat) :
    ∀ r ∈ replacementsFrom each pos newPos spans, ∀ text ∈ r.inserted, P text := by
  induction spans generalizing pos newPos with
  | nil => simp [Change.replacementsFrom]
  | cons s spans ih =>
    have h' := Span.allTexts_cons.mp h
    have hlater := ih h'.2 (pos + s.length) (newPos + s.newLength)
    have hown : ∀ text ∈ if 0 < s.count then [s.text] else [], P text := by
      split
      · simpa using h'.1
      · simp
    rw [Change.replacementsFrom]
    split
    · exact hlater
    · dsimp only
      split
      · next hmatch =>
        rw [hmatch, List.forall_mem_cons] at hlater
        split
        · exact List.forall_mem_cons.mpr ⟨hown, List.forall_mem_cons.mpr hlater⟩
        · refine List.forall_mem_cons.mpr ⟨fun text htext => ?_, hlater.2⟩
          rcases List.mem_append.mp htext with htext | htext
          · exact hown text htext
          · exact hlater.1 text htext
      · exact List.forall_mem_cons.mpr ⟨hown, hlater⟩

theorem AllTexts.collect? (hP : Insertion.Closed P) (parts : List (Span α)) (totals : Totals)
    {spans spans' : List (Span α)} (hparts : Span.AllTexts P parts) (hs : Span.AllTexts P spans)
    (h : collect? parts totals spans = some spans') : Span.AllTexts P spans' := by
  induction parts generalizing totals spans with
  | nil =>
    obtain rfl := Option.some.inj h
    exact hs
  | cons s parts ih =>
    have hparts' := Span.allTexts_cons.mp hparts
    rw [Change.collect?] at h
    split at h
    · exact ih _ hparts'.2 (hs.push hP false hparts'.1) h
    · cases h

end Change

/-- A property of the text of an edit that does not consist of others, strings being split at
`sep`. -/
def Edit.AtomTexts (P : Rope → Prop) (sep : Option String) : Edit → Prop
  | .replace _ _ text => P (text.toRope sep)
  | .revision c => c.AllTexts P
  | .many _ => True

section Separators

variable {d d' : Draft}

/-- Strings are split at the same separator after each edit. -/
theorem Draft.sep_merge {c : Revision} (h : d.merge c = .ok d') : d'.sep = d.sep := by
  obtain ⟨-, rfl⟩ | ⟨_, _, _, _, _, _, rfl⟩ := merge_eq_ok h <;> rfl

theorem Draft.sep_settle (h : d.settle = .ok d') : d'.sep = d.sep := by
  obtain ⟨-, rfl⟩ | h := settle_eq_ok h
  · rfl
  · exact (sep_merge h :)

theorem Draft.sep_add {atom : Edit} (h : d.add atom = .ok d') : d'.sep = d.sep := by
  cases atom with
  | replace start stop text =>
    rw [add] at h
    split at h
    · cases h
    · obtain rfl | ⟨-, rfl⟩ | ⟨-, settled, hsettled, rfl⟩ := replace_eq_ok h
      · rfl
      · rfl
      · exact (sep_settle hsettled :)
  | revision c =>
    obtain ⟨-, -, h⟩ := ok_of_bind h
    obtain ⟨settled, hsettled, h⟩ := ok_of_bind h
    exact (sep_merge h).trans (sep_settle hsettled)
  | many edits =>
    obtain rfl := Except.ok.inj h
    rfl

end Separators

/-- A property of the texts of a draft. -/
def Draft.AllTexts (P : Rope → Prop) (d : Draft) : Prop :=
  Span.AllTexts P d.spans ∧ ∀ total, d.total = some total → total.AllTexts P

/-- A property of documents that building from lines without breaks, editing and taking apart
keep. -/
structure Rope.Kept (P : Rope → Prop) : Prop where
  ofLines? : ∀ lines r, Rope.ofLines? lines = .ok r → P r
  splice : ∀ r start stop text, P r → P text → P (r.splice start stop text)
  extract : ∀ r start stop, P r → P (r.extract start stop)
  child : ∀ r children child, P r → r.children? = some children → child ∈ children → P child

namespace Rope.Kept

variable {P : Rope → Prop} (hP : Rope.Kept P)

include hP

theorem empty : P Rope.empty :=
  hP.ofLines? [""] _ rfl

theorem append {r s : Rope} (hr : P r) (hs : P s) : P (r.append s) :=
  hP.splice r _ _ s hr hs

theorem closed : Insertion.Closed P :=
  ⟨hP.empty, fun _ _ => hP.append, hP.extract⟩

theorem ofJson {v : Json} {r : Rope} (h : Rope.ofJson v = .ok r) : P r := by
  rw [Rope.ofJson] at h
  split at h
  · exact hP.ofLines? _ _ h
  · cases h

theorem text? {lines : List Json} {r : Rope} (h : Revision.text? lines = some r) : P r := by
  obtain ⟨strings, -, h⟩ := Option.bind_eq_some_iff.mp h
  split at h
  · obtain rfl := Option.some.inj h
    exact hP.empty
  · cases hlines : Rope.ofLines? strings with
    | ok r' =>
      rw [hlines] at h
      obtain rfl := Option.some.inj h
      exact hP.ofLines? _ _ hlines
    | error fault =>
      rw [hlines] at h
      cases h

theorem text_part? {v : Json} {s : Span Rope} (h : Revision.part? v = some s) : P s.text := by
  unfold Revision.part? at h
  split at h
  · obtain ⟨length, -, h⟩ := Option.bind_eq_some_iff.mp h
    obtain ⟨text, htext, h⟩ := Option.bind_eq_some_iff.mp h
    obtain rfl := Option.some.inj h
    exact hP.text? htext
  · cases h
  · obtain ⟨length, -, rfl⟩ := Option.map_eq_some_iff.mp h
    exact hP.empty

/-- The texts of a revision that is read are lines that are read. -/
theorem allTexts_ofJson {v : Json} {c : Revision} (h : Revision.ofJson v = .ok c) :
    c.AllTexts P := by
  obtain ⟨items, parts, -, hparts, hcollect⟩ := Revision.ofJson_eq_ok h
  refine Span.allTexts_reverse.mp (Change.AllTexts.collect? hP.closed parts _ ?_ ?_ hcollect)
  · intro s hs
    obtain ⟨item, -, hitem⟩ := exists_of_mem_mapM hparts hs
    exact hP.text_part? hitem
  · exact Span.allTexts_nil

/-- A revision that keeps everything inserts nothing. -/
theorem allTexts_unchanged (length : Nat) : (Change.unchanged length : Revision).AllTexts P := by
  rw [Change.unchanged, Change.AllTexts]
  split
  · exact Span.allTexts_cons.mpr ⟨hP.empty, Span.allTexts_nil⟩
  · exact Span.allTexts_nil

/-- Undoing inserts parts of the document. -/
theorem allTexts_inverseFrom {doc : Rope} (hdoc : P doc) (spans : List (Span Rope)) (pos : Nat) :
    Span.AllTexts P (Revision.inverseFrom doc pos spans) := by
  induction spans generalizing pos with
  | nil => exact Span.allTexts_nil
  | cons s spans ih =>
    refine Span.allTexts_cons.mpr ⟨?_, ih _⟩
    split
    · exact hP.empty
    · dsimp only
      split
      · exact hP.empty
      · exact hP.extract _ _ _ hdoc

theorem allTexts_inverse {c d : Revision} {doc : Rope} (hdoc : P doc)
    (h : c.inverse doc = .ok d) : d.AllTexts P := by
  rw [Revision.inverse_eq] at h
  split at h
  · obtain rfl := Except.ok.inj h
    exact hP.allTexts_inverseFrom hdoc _ _
  · cases h

/-- What several texts in a row make. -/
theorem foldl_append {texts : List Rope} (h : ∀ text ∈ texts, P text) {r : Rope} (hr : P r) :
    P (texts.foldl Rope.append r) := by
  induction texts generalizing r with
  | nil => exact hr
  | cons text texts ih =>
    rw [List.forall_mem_cons] at h
    exact ih h.2 (hP.append hr h.1)

/-- The text of replaced runs that are reported as one. -/
theorem text_replacement {c : Revision} (h : c.AllTexts P) (each : Bool) :
    ∀ r ∈ c.replacements each, P r.text :=
  fun r hr => hP.foldl_append (Change.AllTexts.replacementsFrom h each 0 0 r hr) hP.empty

/-- One edit is made after the other. -/
theorem foldl_splice {rs : List (Replacement Rope)} (hrs : ∀ r ∈ rs, P r.text) {doc : Rope}
    (hdoc : P doc) :
    P (rs.foldl (fun doc r => doc.splice r.newStart (r.newStart + (r.stop - r.start)) r.text)
      doc) := by
  induction rs generalizing doc with
  | nil => exact hdoc
  | cons r rs ih =>
    rw [List.forall_mem_cons] at hrs
    exact ih hrs.2 (hP.splice _ _ _ _ hdoc hrs.1)

theorem apply {c : Revision} {doc r : Rope} (hc : c.AllTexts P) (hdoc : P doc)
    (h : c.apply doc = .ok r) : P r := by
  rw [Revision.apply_eq] at h
  split at h
  · obtain rfl := Except.ok.inj h
    exact hP.foldl_splice (hP.text_replacement hc false) hdoc
  · cases h

/-- The insertions that a revision reports. -/
theorem inserted {c : Revision} (hc : c.AllTexts P) : ∀ text ∈ c.inserted, P text := by
  obtain ⟨spans⟩ := c
  show ∀ text ∈ Revision.insertedOf spans, P text
  replace hc : Span.AllTexts P spans := hc
  induction spans with
  | nil => simp [Revision.insertedOf]
  | cons s spans ih =>
    rw [Span.allTexts_cons] at hc
    have hown : P (if s.text.isEmpty then Rope.empty else s.text) := by
      split
      · exact hP.empty
      · exact hc.1
    rw [Revision.insertedOf]
    generalize (if s.text.isEmpty then Rope.empty else s.text) = own at hown ⊢
    split
    · split
      · simp
      · exact List.forall_mem_singleton.mpr hown
    · exact List.forall_mem_cons.mpr ⟨hown, ih hc.2⟩

theorem draft_merge {d d' : Draft} {c : Revision} (hd : Draft.AllTexts P d) (hc : c.AllTexts P)
    (h : d.merge c = .ok d') : Draft.AllTexts P d' := by
  obtain ⟨-, rfl⟩ | ⟨total, rebased, next, htotal, hrebased, hnext, rfl⟩ := Draft.merge_eq_ok h
  · refine ⟨hd.1, ?_⟩
    intro total htotal
    obtain rfl := Option.some.inj htotal
    exact hc
  · refine ⟨hd.1, ?_⟩
    intro total' htotal'
    obtain rfl := Option.some.inj htotal'
    exact (hd.2 total htotal).andThen hP.closed (hc.rebase hP.closed hrebased) hnext

theorem draft_close {d d' : Draft} (hd : Draft.AllTexts P d) (h : d.close = .ok d') :
    Draft.AllTexts P d' := by
  have hbatch : d.batch.AllTexts P :=
    Span.allTexts_reverse.mpr (hd.1.push hP.closed false hP.empty)
  have hclosed : Draft.AllTexts P { d with spans := [], pos := 0 } := ⟨Span.allTexts_nil, hd.2⟩
  rw [Draft.close] at h
  exact hP.draft_merge hclosed hbatch h

theorem draft_settle {d d' : Draft} (hd : Draft.AllTexts P d) (h : d.settle = .ok d') :
    Draft.AllTexts P d' := by
  obtain ⟨-, rfl⟩ | h := Draft.settle_eq_ok h
  · exact hd
  · exact hP.draft_close hd h

theorem draft_putReplaced {d : Draft} (hd : Draft.AllTexts P d) (start stop : Nat) {text : Rope}
    (htext : P text) : Draft.AllTexts P (d.putReplaced start stop text) :=
  ⟨(hd.1.push hP.closed false hP.empty).push hP.closed false htext, hd.2⟩

theorem draft_add {d d' : Draft} {atom : Edit} (hd : Draft.AllTexts P d)
    (hatom : atom.AtomTexts P d.sep) (h : d.add atom = .ok d') : Draft.AllTexts P d' := by
  cases atom with
  | replace start stop text =>
    rw [Draft.add] at h
    split at h
    · cases h
    · obtain rfl | ⟨-, rfl⟩ | ⟨-, settled, hsettled, rfl⟩ := Draft.replace_eq_ok h
      · exact hd
      · exact hP.draft_putReplaced hd _ _ hatom
      · exact hP.draft_putReplaced (hP.draft_settle hd hsettled) _ _ hatom
  | revision c =>
    obtain ⟨-, -, h⟩ := ok_of_bind h
    obtain ⟨settled, hsettled, h⟩ := ok_of_bind h
    exact hP.draft_merge (hP.draft_settle hd hsettled) hatom h
  | many edits =>
    obtain rfl := Except.ok.inj h
    exact hd

theorem draft_addAll {atoms : List Edit} {d d' : Draft} (hd : Draft.AllTexts P d)
    (hatoms : ∀ atom ∈ atoms, atom.AtomTexts P d.sep) (h : atoms.foldlM Draft.add d = .ok d') :
    Draft.AllTexts P d' := by
  induction atoms generalizing d with
  | nil =>
    obtain rfl := Except.ok.inj h
    exact hd
  | cons atom atoms ih =>
    rw [List.forall_mem_cons] at hatoms
    rw [List.foldlM_cons] at h
    obtain ⟨next, hnext, h⟩ := ok_of_bind h
    refine ih (hP.draft_add hd hatoms.1 hnext) ?_ h
    rw [Draft.sep_add hnext]
    exact hatoms.2

/-- The texts of a revision that is made from edits are made from theirs. -/
theorem allTexts_ofEdit {edit : Edit} {length : Nat} {sep : Option String} {c : Revision}
    (hatoms : ∀ atom ∈ edit.atoms, atom.AtomTexts P sep)
    (h : Revision.ofEdit edit length sep = .ok c) : c.AllTexts P := by
  obtain ⟨d, hd, h⟩ := ok_of_bind h
  have hstart : Draft.AllTexts P ⟨length, sep, [], 0, none⟩ := ⟨Span.allTexts_nil, by simp⟩
  have hdraft : Draft.AllTexts P d := hP.draft_addAll hstart hatoms hd
  obtain ⟨finished, hfinished, rfl⟩ := Draft.finish_eq_ok h
  have hfinishedTexts : Draft.AllTexts P finished := by
    split at hfinished
    · exact hP.draft_close hdraft hfinished
    · exact hP.draft_settle hdraft hfinished
  cases htotal : finished.total with
  | none => exact hP.allTexts_unchanged finished.length
  | some total => exact hfinishedTexts.2 total htotal

end Rope.Kept

/-- A property of documents that building, editing and taking apart keep. -/
structure Rope.Preserved (P : Rope → Prop) : Prop where
  ofLines : ∀ block, block ≠ [] → P (Rope.ofLines block)
  splice : ∀ r start stop text, P r → P text → P (r.splice start stop text)
  extract : ∀ r start stop, P r → P (r.extract start stop)
  child : ∀ r children child, P r → r.children? = some children → child ∈ children → P child

namespace Rope.Preserved

variable {P : Rope → Prop} (hP : Rope.Preserved P)

include hP

theorem kept : Rope.Kept P where
  ofLines? lines r h := by
    rw [Rope.ofLines?] at h
    split at h
    · cases h
    · next hne =>
      split at h
      · cases h
      · obtain rfl := Except.ok.inj h
        exact hP.ofLines _ (by simpa using hne)
  splice := hP.splice
  extract := hP.extract
  child := hP.child

theorem ofString (s : String) (sep : Option String) : P (Rope.ofString s sep) :=
  hP.ofLines _ (Line.split_ne_nil s sep)

/-- A property of the text of an edit that does not consist of others. -/
def AtomTexts (P : Rope → Prop) : Edit → Prop
  | .replace _ _ (.rope r) => P r
  | .replace _ _ .nothing => True
  | .replace _ _ (.string _) => True
  | .revision c => c.AllTexts P
  | .many _ => True

theorem toRope {start stop : Nat} {text : Inserted} (h : AtomTexts P (.replace start stop text))
    (sep : Option String) : P (text.toRope sep) := by
  cases text with
  | nothing => exact hP.kept.empty
  | string s => exact hP.ofString s sep
  | rope r => exact h

omit hP in
/-- Nothing is asked of a string: the property holds of the document that it spells. -/
theorem atomTexts_of {atom : Edit} {sep : Option String} (h : atom.AtomTexts P sep) :
    AtomTexts P atom := by
  cases atom with
  | replace start stop text =>
    cases text with
    | nothing => trivial
    | string s => trivial
    | rope r => exact h
  | revision c => exact h
  | many edits => trivial

end Rope.Preserved

end TextRevision
