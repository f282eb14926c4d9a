import DiceLaw.Distribution.Pairing

/-! The operators of the notation and what each does to two distributions. -/
namespace DiceLaw

inductive Operator where
  | addNonZero
  | add
  | subtract
  | multiply
  | divideCeil
  | divideFloor
  | equals
  | max
  | min
  | combine
  | advantage
  | reroll
  | armor
  | difficulty
  deriving DecidableEq, Repr

namespace Operator

def all : List Operator :=
  [addNonZero, add, subtract, multiply, divideCeil, divideFloor, equals, max, min, combine, advantage,
    reroll, armor, difficulty]

/-- Whether the operator takes what stands before it as its argument too. -/
def isUnary : Operator → Bool
  | advantage => true
  | _ => false

def word : Operator → List Char
  | addNonZero => ['+']
  | add => ['~', '+']
  | subtract => ['-']
  | multiply => ['*']
  | divideCeil => ['/']
  | divideFloor => ['/', '/']
  | equals => ['=']
  | max => ['>']
  | min => ['<']
  | combine => ['&']
  | advantage => ['!']
  | reroll => ['r', 'e', 'r', 'o', 'l', 'l']
  | armor => ['a', 'c']
  | difficulty => ['d', 'c']

theorem length_word_pos (op : Operator) : 0 < op.word.length := by
  cases op <;> decide

def symbol (op : Operator) : String := String.ofList op.word

def ofWord? (w : List Char) : Option Operator := all.find? (·.word = w)

variable {W : Type} [Weight W]

def apply (op : Operator) (d e : Distribution W) : Except Distribution.Fault (Distribution W) :=
  match op with
  | addNonZero => .ok (d.addNonZero e)
  | add => .ok (d.add e)
  | subtract => .ok (d.subtract e)
  | multiply => .ok (d.multiply e)
  | divideCeil => d.divideCeil e
  | divideFloor => d.divideFloor e
  | equals => .ok (d.equals e)
  | max => .ok (d.max e)
  | min => .ok (d.min e)
  | combine => .ok (d.combine e)
  | advantage => .ok d.advantage
  | reroll => .ok (d.reroll e)
  | armor => .ok (d.armor e)
  | difficulty => .ok (d.difficulty e)

end Operator
end DiceLaw
