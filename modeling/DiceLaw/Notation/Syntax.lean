import DiceLaw.Notation.Fault
import DiceLaw.Text

/-! The syntax of dice notation. A text is read from its cells: blanks dropped, everything in lower case, and each
character with the place it had in the text. What is read are trees. Operators have no rank: an expression leans to
the left, and so does a term, where every further primary is rolled as often as all before it say. Where a text stops
making sense its tree holds the fault at that place, so that whatever goes wrong before it is still met first. -/
namespace DiceLaw.Notation

/-! ### Cells -/

structure Cell where
  char : Char
  /-- Index among the characters of the text. -/
  position : Nat
  deriving DecidableEq, Repr

namespace Cell

def ofText (s : String) : List Cell :=
  (s.toList.zipIdx.filter fun e => !Text.isBlank e.1).flatMap fun e => (Text.lowercase e.1).map (⟨·, e.2⟩)

/-- A digit, or the letter that stands for the digits of a given number. -/
def isNumeric (c : Cell) : Bool := Text.isDigit c.char || c.char == 'n'

end Cell

/-! ### Trees -/

/-- Digits and the letter `n`, as they stand, and where they start. -/
structure Numeral where
  symbols : List Char
  position : Nat
  deriving DecidableEq, Repr

mutual

inductive Primary where
  | number (value : Numeral)
  | die (sides : Numeral)
  /-- A die that is rolled once more on a one. -/
  | halfDie (sides : Numeral)
  | keep (direction : Direction) (count : Numeral) (target : Primary)
  | group (inner : Expression)
  | broken (cause : Fault)

inductive Term where
  | one (first : Primary)
  | copies (counts : Term) (die : Primary)

/-- What a carved part is combined with, next to the main argument. -/
inductive Branch where
  | whole
  | half
  | own (argument : Term)

/-- The top faces that are carved off: one, or as many as a numeral says. -/
inductive Crit where
  | absent
  | one (branch : Branch)
  | many (count : Numeral) (branch : Branch)
  | broken (cause : Fault)

inductive Save where
  | absent
  | one (branch : Branch)
  | broken (cause : Fault)

inductive Argument where
  /-- What stands before the operator is its argument too. -/
  | itself
  | own (argument : Term)

inductive Expression where
  | term (first : Term)
  | apply (left : Expression) (op : Operator) (argument : Argument) (halved : Bool) (crit : Crit) (save : Save)
  | broken (left : Expression) (cause : Fault)

end

end DiceLaw.Notation
