import ThreeAddress.Text.BreakTable

/-!
# Break classes

What a character is to the question whether a text can be divided before or after it. Every character
has one class.
-/

namespace ThreeAddress

inductive BreakClass where
  | carriageReturn
  | lineFeed
  | control
  | prepend
  | extend
  /-- A mark like any other, but one that ties the consonants of a conjunct. -/
  | linker
  /-- A mark like any other, but one that keeps a conjunct apart. -/
  | nonJoiner
  | joiner
  | spacing
  | leading
  | vowel
  | trailing
  /-- A Hangul syllable without a trailing consonant. -/
  | openSyllable
  | closedSyllable
  | pictograph
  | consonant
  | regional
  | other
  deriving DecidableEq, Repr

namespace BreakClass

/-- The marks that tie consonants, one for each script that has conjuncts. -/
def linkers : List Nat := [0x94D, 0x9CD, 0xACD, 0xB4D, 0xC4D, 0xD4D]

def isSyllable (code : Nat) : Bool := 0xAC00 ≤ code && code ≤ 0xD7A3

/-- Hangul syllables stand in rows of 28, each row led by the one without a trailing consonant. -/
def ofSyllable (code : Nat) : BreakClass :=
  if (code - 0xAC00) % 28 = 0 then .openSyllable else .closedSyllable

/-- The tables with the class that each of them stands for. -/
def tables : List (List (Nat × Nat) × BreakClass) :=
  [(BreakTable.control, .control), (BreakTable.extend, .extend), (BreakTable.spacing, .spacing),
   (BreakTable.pictograph, .pictograph), (BreakTable.consonant, .consonant),
   (BreakTable.prepend, .prepend), (BreakTable.leading, .leading), (BreakTable.vowel, .vowel),
   (BreakTable.trailing, .trailing), (BreakTable.regional, .regional)]

def ofCode (code : Nat) : BreakClass :=
  if code = 0x0D then .carriageReturn
  else if code = 0x0A then .lineFeed
  else if code = 0x200C then .nonJoiner
  else if code = 0x200D then .joiner
  else if linkers.contains code then .linker
  else if isSyllable code then ofSyllable code
  else ((tables.find? fun table => BreakTable.covers table.1 code).map Prod.snd).getD .other

def of (c : Char) : BreakClass := ofCode c.toNat

/-- Whether a text can be divided on either side of the character. -/
def standsAlone : BreakClass → Bool
  | .carriageReturn | .lineFeed | .control => true
  | _ => false

/-- Whether the character belongs to the one before it. -/
def isMark : BreakClass → Bool
  | .extend | .linker | .nonJoiner | .joiner | .spacing => true
  | _ => false

/-- Whether the second character goes on with the syllable that the first is in. -/
def continuesSyllable : BreakClass → BreakClass → Bool
  | .leading, .leading | .leading, .vowel | .leading, .openSyllable | .leading, .closedSyllable => true
  | .openSyllable, .vowel | .openSyllable, .trailing | .vowel, .vowel | .vowel, .trailing => true
  | .closedSyllable, .trailing | .trailing, .trailing => true
  | _, _ => false

end BreakClass

end ThreeAddress
