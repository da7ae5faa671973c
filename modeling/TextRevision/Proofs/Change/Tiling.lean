import TextRevision.Proofs.Change.Following
import TextRevision.Proofs.Change.Normal
import TextRevision.Proofs.Change.Tracked
import TextRevision.Proofs.Rope.Sameness

/-!
# Kept and replaced runs as tiles

The kept runs of a change and its replaced runs, those that touch being one, take turns. Put in
order they cover the document that the change is made to, and the document that it leads to, and no
two of them overlap. What is reported as inserted is what stands in the new document at the places
that are reported. The replaced runs that are reported one by one make the same report where those
that touch are joined.

## Main definitions

- `Tile`: a kept or a replaced run, with its places in both documents
- `Tiling`: tiles that cover both documents from two places to two others
- `Change.tilesFrom`: the tiles of spans
- `Change.StandsIn`: a replaced run whose insertion stands where it is reported
- `Replacement.joinTouching`: replaced runs, those that touch being joined

## Main statements

- `Change.gaps_tilesFrom`, `Change.replacements_tilesFrom`, `Change.tiling_tilesFrom`
- `Change.standsIn_of_mem_replacementsFrom`: what is reported stands in the new document
- `Change.joinTouching_replacementsFrom`
- `Revision.Obtainable.runs_tile`
-/

namespace TextRevision

variable {α : Type}

/-- A run of a change, with its places in both documents. -/
inductive Tile (α : Type) where
  | kept (g : Gap)
  | put (r : Replacement α)

namespace Tile

def isKept : Tile α → Bool
  | kept _ => true
  | put _ => false

def gap? : Tile α → Option Gap
  | kept g => some g
  | put _ => none

def replacement? : Tile α → Option (Replacement α)
  | kept _ => none
  | put r => some r

def start : Tile α → Nat
  | kept g => g.start
  | put r => r.start

def stop : Tile α → Nat
  | kept g => g.start + g.length
  | put r => r.stop

def newStart : Tile α → Nat
  | kept g => g.newStart
  | put r => r.newStart

def newStop : Tile α → Nat
  | kept g => g.newStart + g.length
  | put r => r.newStop

/-- A tile that ends nowhere in front of its start, and has characters: a kept run in both
documents, a replaced one in at least one of them. -/
structure Proper (t : Tile α) : Prop where
  le : t.start ≤ t.stop
  new_le : t.newStart ≤ t.newStop
  not_void : t.start < t.stop ∨ t.newStart < t.newStop
  kept : t.isKept = true → t.start < t.stop

end Tile

/-- Tiles that cover both documents from two places to two others, each from where the one in front
of it ends. -/
def Tiling : (pos newPos : Nat) → List (Tile α) → (stop newStop : Nat) → Prop
  | pos, newPos, [], stop, newStop => pos = stop ∧ newPos = newStop
  | pos, newPos, t :: ts, stop, newStop =>
    t.start = pos ∧ t.newStart = newPos ∧ Tiling t.stop t.newStop ts stop newStop

/-- Kept and replaced runs take turns. -/
def Alternating (tiles : List (Tile α)) : Prop :=
  tiles.IsChain fun t u => t.isKept ≠ u.isKept

namespace Replacement

/-- Two replaced runs of the same places, of which the same is reported as inserted. -/
structure Same (r s : Replacement Rope) : Prop where
  start : r.start = s.start
  stop : r.stop = s.stop
  newStart : r.newStart = s.newStart
  newStop : r.newStop = s.newStop
  text : r.text.Alike s.text

/-- Two replaced runs as one, with what is inserted for the second put behind what is inserted for
the first. -/
def followedBy (r s : Replacement Rope) : Replacement Rope :=
  ⟨r.start, s.stop, r.newStart, s.newStop, [r.text.append s.text]⟩

/-- Replaced runs, those that touch being joined. -/
def joinTouching : List (Replacement Rope) → List (Replacement Rope)
  | [] => []
  | r :: rest =>
    match joinTouching rest with
    | [] => [r]
    | s :: later => if r.stop = s.start then r.followedBy s :: later else r :: s :: later

theorem joinTouching_cons_apart {r : Replacement Rope} {rs : List (Replacement Rope)}
    (h : ∀ s ∈ (joinTouching rs).head?, r.stop ≠ s.start) :
    joinTouching (r :: rs) = r :: joinTouching rs := by
  rw [joinTouching]
  split
  · next hnil => rw [hnil]
  · next s later hcons =>
    rw [if_neg (h s (by rw [hcons]; rfl)), hcons]

theorem joinTouching_cons_touching {r s : Replacement Rope} {rs later : List (Replacement Rope)}
    (h : joinTouching rs = s :: later) (htouch : r.stop = s.start) :
    joinTouching (r :: rs) = r.followedBy s :: later := by
  rw [joinTouching, h]
  exact if_pos htouch

/-- Joining a replaced run to another one puts its documents in front of the other's. -/
theorem Same.followedBy {own r s : Replacement Rope} (h : r.Same s)
    (hown : ∀ t ∈ own.inserted, t.Obeys Rope.shareRule)
    (hs : ∀ t ∈ s.inserted, t.Obeys Rope.shareRule) :
    (own.followedBy r).Same
      ⟨own.start, s.stop, own.newStart, s.newStop, own.inserted ++ s.inserted⟩ where
  start := rfl
  stop := h.stop
  newStart := rfl
  newStop := h.newStop
  text := by
    obtain ⟨hownText, hownItems⟩ := text_spec hown
    obtain ⟨-, hsItems⟩ := text_spec hs
    obtain ⟨happend, happendItems⟩ :=
      Rope.append_spec Rope.Rule.builds_shareRule Rope.Rule.swaps_shareRule hownText h.text.left
    obtain ⟨hjoined, hjoinedItems⟩ := text_spec (r := own.followedBy r)
      (List.forall_mem_singleton.mpr happend)
    obtain ⟨hboth, hbothItems⟩ := text_spec
      (r := ⟨own.start, s.stop, own.newStart, s.newStop, own.inserted ++ s.inserted⟩)
      (List.forall_mem_append.mpr ⟨hown, hs⟩)
    refine ⟨hjoined, hboth, ?_⟩
    have hall : items ⟨own.start, s.stop, own.newStart, s.newStop, own.inserted ++ s.inserted⟩
        = own.items ++ s.items := List.flatMap_append
    have hfirst : (own.followedBy r).items = (own.text.append r.text).items :=
      List.append_nil _
    rw [hjoinedItems, hbothItems, hall, hfirst, happendItems, hownItems, h.text.items, hsItems]

end Replacement

namespace Change

/-- A replaced run in front of tiles. It is one with a replaced run that it touches. -/
def cover (own : Replacement α) : List (Tile α) → List (Tile α)
  | .put r :: later =>
    .put ⟨own.start, r.stop, own.newStart, r.newStop, own.inserted ++ r.inserted⟩ :: later
  | later => .put own :: later

/-- The tiles of spans that start at two places. -/
def tilesFrom : (pos newPos : Nat) → List (Span α) → List (Tile α)
  | _, _, [] => []
  | pos, newPos, s :: rest =>
    let later := tilesFrom (pos + s.length) (newPos + s.newLength) rest
    if s.isKept then .kept ⟨pos, newPos, s.length⟩ :: later
    else cover (ownReplacement pos newPos s) later

section Cover

variable {own : Replacement α} {tiles : List (Tile α)} {stop newStop : Nat}

theorem head?_cover : (cover own tiles).head?.map Tile.isKept = some false := by
  unfold cover
  split <;> rfl

theorem gaps_cover : (cover own tiles).filterMap Tile.gap? = tiles.filterMap Tile.gap? := by
  unfold cover
  split <;> rfl

theorem tiling_cover (own : Replacement α) (h : Tiling own.stop own.newStop tiles stop newStop) :
    Tiling own.start own.newStart (cover own tiles) stop newStop := by
  unfold cover
  split
  · exact ⟨rfl, rfl, h.2.2⟩
  · exact ⟨rfl, rfl, h⟩

theorem proper_cover (hown : (Tile.put own).Proper) (h : ∀ t ∈ tiles, t.Proper)
    (htiling : Tiling own.stop own.newStop tiles stop newStop) :
    ∀ t ∈ cover own tiles, t.Proper := by
  unfold cover
  split
  · next r later =>
    obtain ⟨hr, hlater⟩ := List.forall_mem_cons.mp h
    obtain ⟨hstart, hnewStart, -⟩ := htiling
    refine List.forall_mem_cons.mpr ⟨⟨?_, ?_, ?_, fun hkept => (by cases hkept)⟩, hlater⟩
    · exact hown.le.trans (hstart.symm.trans_le hr.le)
    · exact hown.new_le.trans (hnewStart.symm.trans_le hr.new_le)
    · exact hown.not_void.imp (fun hlt => hlt.trans_le (hstart.symm.trans_le hr.le))
        fun hlt => hlt.trans_le (hnewStart.symm.trans_le hr.new_le)
  · exact List.forall_mem_cons.mpr ⟨hown, h⟩

theorem alternating_cover (h : Alternating tiles) : Alternating (cover own tiles) := by
  unfold cover
  split
  · next r later => exact List.isChain_cons.mpr (List.isChain_cons.mp h)
  · next hkept =>
    refine List.isChain_cons.mpr ⟨fun t ht => ?_, h⟩
    cases t with
    | kept g => exact Bool.false_ne_true
    | put r =>
      obtain ⟨later, rfl⟩ := List.head?_eq_some_iff.mp ht
      exact absurd rfl (hkept r later)

end Cover

section Tiles

variable {s : Span α} {spans rest : List (Span α)} {pos newPos : Nat}

/-- The first tile is a kept run if and only if the first span is. -/
theorem head?_tilesFrom (pos newPos : Nat) (spans : List (Span α)) :
    (tilesFrom pos newPos spans).head?.map Tile.isKept = spans.head?.map Span.isKept := by
  cases spans with
  | nil => rfl
  | cons s rest =>
    rw [tilesFrom]
    split
    · next hkept => simp [Tile.isKept, hkept]
    · next hkept => simp [head?_cover, hkept]

/-- The kept runs among the tiles are the gaps. -/
theorem gaps_tilesFrom (pos newPos : Nat) (spans : List (Span α)) :
    (tilesFrom pos newPos spans).filterMap Tile.gap? = gapsFrom pos newPos spans := by
  induction spans generalizing pos newPos with
  | nil => rfl
  | cons s rest ih =>
    rw [tilesFrom, gapsFrom, ← ih]
    split
    · rfl
    · exact gaps_cover

/-- The replaced runs among the tiles are the replacements. -/
theorem replacements_tilesFrom (pos newPos : Nat) (spans : List (Span α)) :
    (tilesFrom pos newPos spans).filterMap Tile.replacement?
      = replacementsFrom false pos newPos spans := by
  induction spans generalizing pos newPos with
  | nil => rfl
  | cons s rest ih =>
    have hrest := ih (pos + s.length) (newPos + s.newLength)
    have hhead := head?_tilesFrom (pos + s.length) (newPos + s.newLength) rest
    rw [tilesFrom, replacementsFrom]
    dsimp only
    rw [← hrest]
    split
    · rfl
    · generalize tilesFrom (pos + s.length) (newPos + s.newLength) rest = tiles at hhead
      cases rest with
      | nil =>
        cases tiles with
        | nil => rfl
        | cons t later => cases hhead
      | cons next tail =>
        cases tiles with
        | nil => cases hhead
        | cons t later =>
          have hnext : next.isKept = t.isKept := (Option.some.inj hhead).symm
          cases t with
          | kept g =>
            have hcover : (cover (ownReplacement pos newPos s) (.kept g :: later)).filterMap
                  Tile.replacement?
                = ownReplacement pos newPos s :: later.filterMap Tile.replacement? := rfl
            have hskip : (Tile.kept g :: later).filterMap Tile.replacement?
                = later.filterMap Tile.replacement? := rfl
            rw [hcover, hskip]
            cases later.filterMap Tile.replacement? with
            | nil => rfl
            | cons r rs => simp [hnext, Tile.isKept, ownReplacement]
          | put r => simp [cover, Tile.replacement?, hnext, Tile.isKept, ownReplacement]

theorem tiling_tilesFrom (pos newPos : Nat) (spans : List (Span α)) :
    Tiling pos newPos (tilesFrom pos newPos spans) (pos + sumBy Span.length spans)
      (newPos + sumBy Span.newLength spans) := by
  induction spans generalizing pos newPos with
  | nil => exact ⟨rfl, rfl⟩
  | cons s rest ih =>
    have hrest := ih (pos + s.length) (newPos + s.newLength)
    rw [sumBy_cons, sumBy_cons, ← Nat.add_assoc, ← Nat.add_assoc, tilesFrom]
    split
    · next hkept =>
      have hnew : s.newLength = s.length := if_pos hkept
      refine ⟨rfl, rfl, ?_⟩
      rw [hnew] at hrest ⊢
      exact hrest
    · exact tiling_cover (ownReplacement pos newPos s) hrest

theorem proper_tilesFrom (pos newPos : Nat) (h : ∀ s ∈ spans, s.Marked) :
    ∀ t ∈ tilesFrom pos newPos spans, t.Proper := by
  induction spans generalizing pos newPos with
  | nil => exact fun t ht => nomatch ht
  | cons s rest ih =>
    obtain ⟨hs, hrest⟩ := List.forall_mem_cons.mp h
    have hvoid := hs.not_void
    rw [Span.isVoid_eq_false_iff] at hvoid
    rw [tilesFrom]
    split
    · next hkept =>
      refine List.forall_mem_cons.mpr ⟨?_, ih _ _ hrest⟩
      have hcount : s.count < 0 := by simpa [Span.isKept] using hkept
      have hpos : 0 < s.length := by omega
      refine ⟨?_, ?_, ?_, fun _ => ?_⟩ <;>
        simp only [Tile.start, Tile.stop, Tile.newStart, Tile.newStop] <;> omega
    · next hput =>
      have hown : (Tile.put (ownReplacement pos newPos s)).Proper := by
        have hcount : 0 ≤ s.count := by simpa [Span.isKept] using hput
        refine ⟨Nat.le_add_right _ _, Nat.le_add_right _ _, ?_, fun hkept => (by cases hkept)⟩
        simp only [Tile.start, Tile.stop, Tile.newStart, Tile.newStop, ownReplacement,
          Span.newLength_of_put hcount]
        omega
      exact proper_cover hown (ih _ _ hrest) (tiling_tilesFrom _ _ rest)

theorem alternating_tilesFrom (pos newPos : Nat) (h : Span.Separate spans) :
    Alternating (tilesFrom pos newPos spans) := by
  induction spans generalizing pos newPos with
  | nil => exact .nil
  | cons s rest ih =>
    obtain ⟨hs, hrest⟩ := List.isChain_cons.mp h
    have hlater := ih (pos + s.length) (newPos + s.newLength) hrest
    rw [tilesFrom]
    split
    · next hkept =>
      refine List.isChain_cons.mpr ⟨fun t ht => ?_, hlater⟩
      have hhead := head?_tilesFrom (pos + s.length) (newPos + s.newLength) rest
      rw [ht] at hhead
      obtain ⟨next, hnext, htile⟩ := Option.map_eq_some_iff.mp hhead.symm
      intro hsame
      refine (hs next hnext).kept ⟨by simpa [Span.isKept] using hkept, ?_⟩
      have hkept' : next.isKept = true := htile.trans hsame.symm
      simpa [Span.isKept] using hkept'
    · exact alternating_cover hlater

end Tiles

section Members

variable {s : Span α} {rest : List (Span α)} {r : Replacement α} {each : Bool} {pos newPos : Nat}

/-- What is reported comes from the spans behind the first, or the first is a replaced run, alone or
one with what it touches. -/
theorem mem_replacementsFrom_cons (hr : r ∈ replacementsFrom each pos newPos (s :: rest)) :
    r ∈ replacementsFrom each (pos + s.length) (newPos + s.newLength) rest
      ∨ s.isKept = false ∧ (r = ownReplacement pos newPos s
        ∨ ∃ p ∈ replacementsFrom each (pos + s.length) (newPos + s.newLength) rest,
          p.newStart = newPos + s.newLength
            ∧ r = ⟨pos, p.stop, newPos, p.newStop,
              (ownReplacement pos newPos s).inserted ++ p.inserted⟩) := by
  by_cases hkept : s.isKept = true
  · rw [replacementsFrom, if_pos hkept] at hr
    exact .inl hr
  · have hput : s.isKept = false := by simpa using hkept
    rcases replacementsFrom_put hput each pos newPos rest with halone | hmerged
    · rw [halone, List.mem_cons] at hr
      exact hr.symm.imp_right fun hown => ⟨hput, .inl hown⟩
    · obtain ⟨next, rest, p, later, rfl, hnext, htail, hmerged⟩ := hmerged
      have hnewStart := (replacementsFrom_head hnext _ _ _ htail).2.1
      rw [hmerged, List.mem_cons] at hr
      rcases hr with hown | hlater
      · exact .inr ⟨hput, .inr ⟨p, htail ▸ List.mem_cons_self, hnewStart, hown⟩⟩
      · exact .inl (htail ▸ List.mem_cons_of_mem _ hlater)

/-- Replaced runs come from behind the place where the spans start. -/
theorem start_le_of_mem_replacementsFrom {spans : List (Span α)}
    (hr : r ∈ replacementsFrom each pos newPos spans) : pos ≤ r.start := by
  induction spans generalizing pos newPos r with
  | nil => cases hr
  | cons s spans ih =>
    rcases mem_replacementsFrom_cons hr with hlater | ⟨-, rfl | ⟨p, -, -, rfl⟩⟩
    · exact (Nat.le_add_right _ _).trans (ih hlater)
    · exact Nat.le_refl _
    · exact Nat.le_refl _

/-- Behind a kept run, which has characters, they come from behind all of it. -/
theorem lt_start_of_mem_replacementsFrom (hkept : s.isKept = true) (hmarked : s.Marked)
    (hr : r ∈ replacementsFrom each pos newPos (s :: rest)) : pos < r.start := by
  have hcount : s.count < 0 := by simpa [Span.isKept] using hkept
  have hvoid := hmarked.not_void
  rw [Span.isVoid_eq_false_iff] at hvoid
  rw [replacementsFrom, if_pos hkept] at hr
  have hbehind := start_le_of_mem_replacementsFrom hr
  omega

end Members

section Reports

variable {spans : List (Span Rope)} {own r : Replacement Rope} {pos newPos : Nat}
  {xs ys : List Item}

/-- What is reported as inserted stands at the places that are reported, among items from a place
on. -/
structure StandsIn (pos : Nat) (xs : List Item) (r : Replacement Rope) : Prop where
  start : pos ≤ r.newStart
  le : r.newStart ≤ r.newStop
  stop : r.newStop ≤ pos + xs.length
  items : r.items = (xs.drop (r.newStart - pos)).take (r.newStop - r.newStart)

theorem StandsIn.behind (h : StandsIn (pos + xs.length) ys r) : StandsIn pos (xs ++ ys) r := by
  obtain ⟨hstart, hle, hstop, hitems⟩ := h
  have hfront : xs.drop (r.newStart - pos) = [] := List.drop_eq_nil_of_le (by omega)
  refine ⟨by omega, hle, by rw [List.length_append]; omega, ?_⟩
  rw [hitems, List.drop_append, hfront, List.nil_append, Nat.sub_sub]

theorem standsIn_front (hstart : r.newStart = pos) (hstop : r.newStop = pos + xs.length)
    (hitems : r.items = xs) (ys : List Item) : StandsIn pos (xs ++ ys) r := by
  have hlength : r.newStop - r.newStart = xs.length := by omega
  refine ⟨hstart.ge, by omega, by rw [List.length_append]; omega, ?_⟩
  rw [hitems, hlength, hstart, Nat.sub_self, List.drop_zero, List.take_left]

/-- A replaced run in front stands with the one that it touches. -/
theorem StandsIn.joined (h : StandsIn (pos + own.items.length) ys r)
    (htouch : r.newStart = pos + own.items.length) (start stop : Nat) :
    StandsIn pos (own.items ++ ys) ⟨start, stop, pos, r.newStop, own.inserted ++ r.inserted⟩ := by
  obtain ⟨-, hle, hstop, hitems⟩ := h
  rw [htouch, Nat.sub_self, List.drop_zero] at hitems
  have hboth : Replacement.items ⟨start, stop, pos, r.newStop, own.inserted ++ r.inserted⟩
      = own.items ++ r.items := List.flatMap_append
  have hwhole : r.newStop - pos
      = own.items.length + (r.newStop - (pos + own.items.length)) := by omega
  refine ⟨Nat.le_refl _, ?_, ?_, ?_⟩
  · dsimp only
    omega
  · dsimp only
    rw [List.length_append]
    omega
  · rw [hboth, hitems]
    dsimp only
    rw [Nat.sub_self, List.drop_zero, hwhole, List.take_length_add_append]

/-- What is reported as inserted is what the spans put at the places that are reported. -/
theorem standsIn_of_mem_replacementsFrom (h : ∀ s ∈ spans, Rope.reading.Sound s) (doc : List Item)
    (hdoc : doc.length = sumBy Span.length spans)
    (hr : r ∈ replacementsFrom false pos newPos spans) :
    StandsIn newPos (Rope.reading.run spans doc) r := by
  induction spans generalizing doc pos newPos r with
  | nil => cases hr
  | cons s spans ih =>
    obtain ⟨hs, hspans⟩ := List.forall_mem_cons.mp h
    rw [sumBy_cons] at hdoc
    have hstep : (Rope.reading.step s doc).length = s.newLength :=
      Reading.length_step hs (by omega)
    have hdrop : (doc.drop s.length).length = sumBy Span.length spans := by
      rw [List.length_drop]
      omega
    have hlater : ∀ p ∈ replacementsFrom false (pos + s.length) (newPos + s.newLength) spans,
        StandsIn (newPos + (Rope.reading.step s doc).length)
          (Rope.reading.run spans (doc.drop s.length)) p := by
      rw [hstep]
      exact fun p hp => ih hspans _ hdrop hp
    rw [Reading.run_cons]
    rcases mem_replacementsFrom_cons hr with hr | ⟨hput, hown⟩
    · exact (hlater r hr).behind
    · have hitems := items_own hs hput pos newPos doc
      rcases hown with rfl | ⟨p, hp, hnewStart, rfl⟩
      · exact standsIn_front rfl (by rw [hstep]; rfl) hitems _
      · have hp := hlater p hp
        rw [← hstep] at hnewStart
        rw [← hitems] at hp hnewStart ⊢
        exact hp.joined hnewStart _ _

end Reports

section Joining

open Replacement (Same joinTouching)

variable {s : Span Rope} {spans : List (Span Rope)} {pos newPos : Nat}

/-- In front of a kept run a replaced one is reported alone. -/
theorem replacementsFrom_alone {s : Span α} {rest : List (Span α)} (hput : s.isKept = false)
    (hrest : ∀ next ∈ rest.head?, next.isKept = true) (each : Bool) (pos newPos : Nat) :
    replacementsFrom each pos newPos (s :: rest) = ownReplacement pos newPos s
      :: replacementsFrom each (pos + s.length) (newPos + s.newLength) rest := by
  rcases replacementsFrom_put hput each pos newPos rest with halone | hmerged
  · exact halone
  · obtain ⟨next, _, _, _, rfl, hnext, _⟩ := hmerged
    rw [hrest next rfl] at hnext
    cases hnext

/-- In front of another replaced run it is one with that. -/
theorem replacementsFrom_merged {s next : Span α} (hput : s.isKept = false)
    (hnext : next.isKept = false) (pos newPos : Nat) (rest : List (Span α)) :
    ∃ r later, replacementsFrom false (pos + s.length) (newPos + s.newLength) (next :: rest)
        = r :: later
      ∧ replacementsFrom false pos newPos (s :: next :: rest)
        = ⟨pos, r.stop, newPos, r.newStop, (ownReplacement pos newPos s).inserted ++ r.inserted⟩
          :: later := by
  obtain ⟨r, later, htail⟩ : ∃ r later,
      replacementsFrom false (pos + s.length) (newPos + s.newLength) (next :: rest)
        = r :: later := by
    rcases replacementsFrom_put hnext false (pos + s.length) (newPos + s.newLength) rest
      with halone | ⟨_, _, _, _, _, _, _, hmerged⟩
    · exact ⟨_, _, halone⟩
    · exact ⟨_, _, hmerged⟩
  refine ⟨r, later, htail, ?_⟩
  rw [replacementsFrom, hput, if_neg Bool.false_ne_true]
  simp only [htail, hnext, Bool.or_self, Bool.false_eq_true, if_false]
  rfl

theorem obeys_own (hs : Rope.reading.Sound s) (pos newPos : Nat) :
    ∀ t ∈ (ownReplacement pos newPos s).inserted, t.Obeys Rope.shareRule := by
  intro t ht
  rw [ownReplacement] at ht
  split at ht
  · obtain rfl := List.mem_singleton.mp ht
    exact hs.proper.1
  · cases ht

/-- The replaced runs reported one by one are those reported at once, where those that touch are
joined. -/
theorem joinTouching_replacementsFrom (h : ∀ s ∈ spans, Rope.reading.Sound s ∧ s.Marked)
    (pos newPos : Nat) :
    List.Forall₂ Same (joinTouching (replacementsFrom true pos newPos spans))
      (replacementsFrom false pos newPos spans) := by
  induction spans generalizing pos newPos with
  | nil => exact .nil
  | cons s rest ih =>
    obtain ⟨hs, hrest⟩ := List.forall_mem_cons.mp h
    have hlater := ih hrest (pos + s.length) (newPos + s.newLength)
    by_cases hkept : s.isKept = true
    · rw [replacementsFrom, if_pos hkept, replacementsFrom, if_pos hkept]
      exact hlater
    · have hput : s.isKept = false := by simpa using hkept
      have hobeys := obeys_own hs.1 pos newPos
      have hown : Same (ownReplacement pos newPos s) (ownReplacement pos newPos s) :=
        ⟨rfl, rfl, rfl, rfl, .refl (Replacement.text_spec hobeys).1⟩
      rw [replacementsFrom_each, if_neg hkept]
      by_cases hnext : ∀ next ∈ rest.head?, next.isKept = true
      · rw [replacementsFrom_alone hput hnext,
          Replacement.joinTouching_cons_apart fun p hp => ?_]
        · exact .cons hown hlater
        · -- A kept run that has characters stands between the two.
          obtain ⟨ps, hps⟩ := List.head?_eq_some_iff.mp hp
          rw [hps] at hlater
          obtain ⟨q, qs, hpq, -, hqs⟩ := List.forall₂_cons_left_iff.mp hlater
          cases rest with
          | nil => cases hqs
          | cons next rest =>
            have hbehind : pos + s.length < q.start :=
              lt_start_of_mem_replacementsFrom (hnext next rfl)
                (hrest next List.mem_cons_self).2 (hqs ▸ List.mem_cons_self)
            exact (hbehind.trans_eq hpq.start.symm).ne
      · obtain ⟨next, hhead, hkind⟩ : ∃ next ∈ rest.head?, next.isKept = false := by
          simpa using hnext
        obtain ⟨rest, rfl⟩ := List.head?_eq_some_iff.mp hhead
        obtain ⟨r, later, htail, hmerged⟩ := replacementsFrom_merged hput hkind pos newPos rest
        have hstart := (replacementsFrom_head hkind _ _ _ htail).1
        rw [htail] at hlater
        obtain ⟨p, ps, hpr, hps, hjoined⟩ := List.forall₂_cons_right_iff.mp hlater
        have htouch : (ownReplacement pos newPos s).stop = p.start :=
          hstart.symm.trans hpr.start.symm
        rw [hmerged, Replacement.joinTouching_cons_touching hjoined htouch]
        have htexts : Span.AllTexts (Rope.Obeys Rope.shareRule) (next :: rest) :=
          fun t ht => (hrest t ht).1.proper.1
        have hinserted := AllTexts.replacementsFrom htexts false (pos + s.length)
          (newPos + s.newLength) r (htail ▸ List.mem_cons_self)
        exact .cons (hpr.followedBy hobeys hinserted) hps

end Joining

end Change

/-- The kept runs of a revision and its replaced runs, those that touch being one, cover the
document that it is made to, and the document that it leads to, in order and without overlap. They
take turns, and each has characters. What is reported as inserted is the text at the reported places
of the document that the revision leads to. The replaced runs reported one by one are the same as
those reported at once where those that touch are joined. All this is for lengths up to the limit of
written changes. -/
theorem Revision.Obtainable.runs_tile {fits : Nat → Prop} {c : Revision} {doc : Rope}
    (hc : Revision.Obtainable (· ≤ lengthLimit) c) (hdoc : Rope.Reachable fits doc)
    (hlength : doc.length = c.length) :
    (∃ tiles : List (Tile Rope), tiles.filterMap Tile.gap? = c.gaps
        ∧ tiles.filterMap Tile.replacement? = c.replacements false
        ∧ Tiling 0 0 tiles c.length c.newLength ∧ (∀ t ∈ tiles, t.Proper) ∧ Alternating tiles)
      ∧ (∃ r, c.apply doc = .ok r ∧ ∀ p ∈ c.replacements false,
        p.text.Alike (r.extract p.newStart p.newStop))
      ∧ List.Forall₂ Replacement.Same (Replacement.joinTouching (c.replacements true))
        (c.replacements false) := by
  have hnormal := hc.normalSpans
  have hobeys := hdoc.obeys
  refine ⟨⟨Change.tilesFrom 0 0 c.spans, Change.gaps_tilesFrom 0 0 c.spans,
    Change.replacements_tilesFrom 0 0 c.spans, ?_, Change.proper_tilesFrom 0 0 hnormal.marked,
    Change.alternating_tilesFrom 0 0 hnormal.separate⟩, ?_,
    Change.joinTouching_replacementsFrom (fun s hs => ⟨hc.sound s hs, hnormal.marked s hs⟩) 0 0⟩
  · have htiling := Change.tiling_tilesFrom 0 0 c.spans
    rwa [Nat.zero_add, Nat.zero_add] at htiling
  · obtain ⟨r, hr, hrObeys, hrItems⟩ := Revision.apply_spec hc.sound hobeys hlength.symm
    have hdocLength : doc.items.length = c.length := hobeys.length_items.trans hlength
    refine ⟨r, hr, fun p hp => ?_⟩
    obtain ⟨-, hle, hstop, hitems⟩ :=
      Change.standsIn_of_mem_replacementsFrom hc.sound doc.items hdocLength hp
    rw [← hrItems, hrObeys.length_items, Nat.zero_add] at hstop
    have htexts := Change.AllTexts.replacementsFrom
      (fun s hs => (hc.sound s hs).proper.1 : c.AllTexts (Rope.Obeys Rope.shareRule)) false 0 0 p hp
    obtain ⟨htext, htextItems⟩ := Replacement.text_spec htexts
    refine ⟨htext, (Rope.extract_spec Rope.Rule.builds_shareRule hrObeys _ _).1, ?_⟩
    rw [htextItems, hitems, Rope.items_extract hrObeys hle hstop, hrItems, Nat.sub_zero]

/-- Three of six characters removed, and two inserted behind them: two runs that touch are one. -/
theorem Revision.Obtainable.runs_tile_six_characters :
    Rope.ofLines? ["ab", "def"] = .ok (Rope.ofBlock ["ab", "def"])
      ∧ (Rope.ofBlock ["ab", "def"]).length = removeThenInsert.length
      ∧ removeThenInsert.replacements true
        = [⟨1, 4, 1, 1, []⟩, ⟨4, 4, 1, 3, [Rope.ofBlock ["xy"]]⟩]
      ∧ removeThenInsert.replacements false = [⟨1, 4, 1, 3, [Rope.ofBlock ["xy"]]⟩]
      ∧ (∃ tiles : List (Tile Rope), tiles.filterMap Tile.gap? = [⟨0, 0, 1⟩, ⟨4, 3, 2⟩]
        ∧ tiles.filterMap Tile.replacement? = removeThenInsert.replacements false
        ∧ Tiling 0 0 tiles 6 5 ∧ Alternating tiles)
      ∧ ∃ r, removeThenInsert.apply (Rope.ofBlock ["ab", "def"]) = .ok r
        ∧ ∀ p ∈ removeThenInsert.replacements false,
          p.text.Alike (r.extract p.newStart p.newStop) := by
  have hlines : Rope.ofLines? ["ab", "def"] = .ok (Rope.ofBlock ["ab", "def"]) := rfl
  have hdoc : Rope.Reachable (fun _ => True) (Rope.ofBlock ["ab", "def"]) := .ofLines hlines
  have hlength : (Rope.ofBlock ["ab", "def"]).length = removeThenInsert.length := rfl
  obtain ⟨⟨tiles, hgaps, hreplacements, htiling, -, halternating⟩, htexts, -⟩ :=
    Revision.Obtainable.runs_tile obtainable_removeThenInsert hdoc hlength
  exact ⟨hlines, hlength, rfl, rfl, ⟨tiles, hgaps, hreplacements, htiling, halternating⟩, htexts⟩

/-- A wrong count, which comes from 2⁶³ characters, reports a text that does not stand at the places
that are reported. -/
theorem Revision.Obtainable.not_runs_tile :
    ∃ doc, Rope.ofLines? ["q"] = .ok doc ∧ doc.length = (replaceShort 1).length
      ∧ Revision.Obtainable (fun _ => True) (replaceShort 1)
      ∧ ∃ p r, (replaceShort 1).replacements false = [p] ∧ p.text.lines = ["xy"]
        ∧ (replaceShort 1).apply doc = .ok r ∧ (r.extract p.newStart p.newStop).lines = ["x"] := by
  refine ⟨Rope.ofBlock ["q"], rfl, rfl, obtainable_replaceShort,
    ⟨0, 1, 0, 1, [Rope.ofBlock ["xy"]]⟩, Rope.ofBlock ["xy"], rfl, ?_, ?_, ?_⟩
  · cbv
  · cbv
  · cbv

end TextRevision
