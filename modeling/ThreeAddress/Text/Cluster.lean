import ThreeAddress.Text.BreakClass

/-!
# Clusters

What a reader takes for one character may be several: a letter with its accents, a syllable, a flag, a
picture made of pictures. `clusterCount` counts such clusters in a text from left to right. Whether a
character joins those before it depends on a little of what came before, which `Cluster.Context` keeps.
-/

namespace ThreeAddress

namespace Cluster

/-- How far the characters just before make up a conjunct. -/
inductive Conjunct where
  | none
  /-- A consonant, perhaps with marks on it. -/
  | started
  /-- A consonant with a linker among its marks. -/
  | linked
  deriving DecidableEq, Repr

/-- What is to be known of the characters before a place. -/
structure Context where
  last : BreakClass
  /-- A pictograph came before, with nothing after it but marks, and then perhaps one joiner. -/
  pictograph : Bool
  conjunct : Conjunct
  /-- An odd number of regional letters came just before, so that one of them has no partner. -/
  halfFlag : Bool
  deriving DecidableEq, Repr

namespace Context

/-- Before a text there is nothing to join, just as after a control character. -/
def start : Context where
  last := .control
  pictograph := false
  conjunct := .none
  halfFlag := false

/-- Whether a character of class `next` belongs to the cluster of those before it. -/
def joins (before : Context) (next : BreakClass) : Bool :=
  if before.last.standsAlone || next.standsAlone then
    before.last == .carriageReturn && next == .lineFeed
  else
    next.isMark || before.last == .prepend || before.last.continuesSyllable next
      || (next == .consonant && before.conjunct == .linked)
      || (next == .pictograph && before.last == .joiner && before.pictograph)
      || (next == .regional && before.halfFlag)

/-- A pictograph can still be joined after marks and one joiner, but not after a second joiner, nor
after a mark behind the joiner. -/
def pictographAfter (before : Context) : BreakClass → Bool
  | .pictograph => true
  | .extend | .linker | .nonJoiner | .joiner => before.pictograph && before.last != .joiner
  | _ => false

def conjunctAfter (before : Context) : BreakClass → Conjunct
  | .consonant => .started
  | .linker => if before.conjunct = .none then .none else .linked
  | .extend | .joiner => before.conjunct
  | _ => .none

def after (before : Context) (next : BreakClass) : Context where
  last := next
  pictograph := before.pictographAfter next
  conjunct := before.conjunctAfter next
  halfFlag := next == .regional && !before.halfFlag

end Context

def countFrom (before : Context) : List Char → Nat
  | [] => 0
  | c :: rest =>
    let next := BreakClass.of c
    (if before.joins next then 0 else 1) + countFrom (before.after next) rest

theorem countFrom_le_length (before : Context) (text : List Char) :
    countFrom before text ≤ text.length := by
  induction text generalizing before with
  | nil => simp [countFrom]
  | cons c rest ih =>
    have := ih (before.after (BreakClass.of c))
    simp only [countFrom, List.length_cons]
    split <;> omega

end Cluster

def clusterCount (text : List Char) : Nat := Cluster.countFrom .start text

theorem clusterCount_le_length (text : List Char) : clusterCount text ≤ text.length :=
  Cluster.countFrom_le_length .start text

end ThreeAddress
