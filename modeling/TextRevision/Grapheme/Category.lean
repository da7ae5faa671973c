import TextRevision.Character.Conjunct
import TextRevision.Character.Hangul
import TextRevision.Character.Mark
import TextRevision.Character.Pictograph
import TextRevision.Character.Printable

/-!
# Categories of characters in grapheme clusters

The properties by which a text falls into extended grapheme clusters: the class that decides
breaks, pictographs, and the parts of Indic conjuncts.
-/

namespace TextRevision.Grapheme

open TextRevision.Character

/-- The class of a character with respect to breaks between clusters. -/
inductive Category where
  | carriageReturn
  | lineFeed
  | control
  | extend
  | joiner
  | regional
  | leading
  | spacing
  | hangulL
  | hangulV
  | hangulT
  | hangulLV
  | hangulLVT
  | other
  deriving DecidableEq, Repr

/-- The indicators that name a region in pairs. -/
def regionals : Ranges :=
  [(0x1f1e6, 0x1f1ff)]

/-- The class of a Hangul syllable block: with a final consonant, or without one. -/
def syllable (c : Char) : Category :=
  if (c.toNat - 0xac00) % 28 = 0 then .hangulLV else .hangulLVT

def category (c : Char) : Category :=
  if c = '\r' then .carriageReturn
  else if c = '\n' then .lineFeed
  else if c.toNat = 0x200d then .joiner
  else if controls.has c then .control
  else if extenders.has c || skinTones.has c then .extend
  else if leaders.has c then .leading
  else if spacers.has c then .spacing
  else if regionals.has c then .regional
  else if leadingConsonants.has c then .hangulL
  else if vowels.has c then .hangulV
  else if trailingConsonants.has c then .hangulT
  else if syllables.has c then syllable c
  else .other

def isPictograph (c : Char) : Bool :=
  pictographs.has c

/-- Whether a linker can bind a character into a conjunct. -/
def isConsonant (c : Char) : Bool :=
  consonants.has c

/-- Whether a character binds consonants into a conjunct. -/
def isLinker (c : Char) : Bool :=
  linkers.has c

/-- Whether a character keeps a conjunct open without binding it: a joiner or a mark, the zero-width
non-joiner excepted. -/
def extendsConjunct (c : Char) : Bool :=
  category c = .joiner || (category c = .extend && !isLinker c && c.toNat != 0x200c)

end TextRevision.Grapheme
