import TextRevision.Character.Ranges

/-!
# Hangul

The letters and syllable blocks from which Hangul syllables are made, after Unicode 17. A few vowels
of other scripts behave as those of Hangul do.
-/

namespace TextRevision.Character

/-- Consonants that start a syllable. -/
def leadingConsonants : Ranges :=
  [(0x1100, 0x115f), (0xa960, 0xa97c)]

def vowels : Ranges :=
  [(0x1160, 0x11a7), (0xd7b0, 0xd7c6), (0x16d63, 0x16d63), (0x16d67, 0x16d6a)]

/-- Consonants that end a syllable. -/
def trailingConsonants : Ranges :=
  [(0x11a8, 0x11ff), (0xd7cb, 0xd7fb)]

def syllables : Ranges :=
  [(0xac00, 0xd7a3)]

/-- Letters with nothing to see, which stand in for a consonant or a vowel. -/
def fillers : Ranges :=
  [(0x115f, 0x1160), (0x3164, 0x3164), (0xffa0, 0xffa0)]

end TextRevision.Character
