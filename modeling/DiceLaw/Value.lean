/-! The numbers that faces show: arithmetic on them, and which of several rolled ones count. -/
namespace DiceLaw

namespace Value

/-- Within the 64-bit range. -/
def InRange (x : Int) : Prop := Int64.minValue.toInt ≤ x ∧ x ≤ Int64.maxValue.toInt

instance : DecidablePred InRange := fun _ => inferInstanceAs (Decidable (_ ∧ _))

/-- The sum, held at the nearer end of the range when it falls outside. -/
def add (a b : Int64) : Int64 := .ofIntClamp (a.toInt + b.toInt)

def subtract (a b : Int64) : Int64 := .ofIntClamp (a.toInt - b.toInt)

/-- The sum, if it is within the range. -/
def add? (a b : Int64) : Option Int64 := if InRange (a.toInt + b.toInt) then some (a + b) else none

/-- The sum of a list from left to right. There is none once it has left the range, even if it came back later. -/
def sum? (vs : List Int64) : Option Int64 := vs.foldlM add? 0

/-- The quotient rounded down: cut off towards zero, and one less where that was up. Only the least value over `-1`
lies outside the range, and it wraps to itself. -/
def floorQuotient? (a b : Int64) : Option Int64 :=
  if b = 0 then none
  else some (if a % b ≠ 0 ∧ ¬ (a < 0 ↔ b < 0) then a / b - 1 else a / b)

/-- The quotient rounded up, which is one more than rounded down where the division leaves a remainder. -/
def ceilQuotient? (a b : Int64) : Option Int64 :=
  (floorQuotient? a b).map fun q => if a % b ≠ 0 then q + 1 else q

def ofBool (b : Bool) : Int64 := if b then 1 else 0

theorem floorQuotient?_eq_none {a b : Int64} : floorQuotient? a b = none ↔ b = 0 := by
  simp [floorQuotient?]

theorem ceilQuotient?_eq_none {a b : Int64} : ceilQuotient? a b = none ↔ b = 0 := by
  simp [ceilQuotient?, floorQuotient?_eq_none]

end Value

/-! ### Keep selectors -/

/-- The end of the rolled numbers that is kept. -/
inductive Direction where
  | highest
  | lowest
  deriving DecidableEq, Repr

structure Keep where
  direction : Direction
  count : Nat
  deriving DecidableEq, Repr

namespace Keep

/-- Whether `candidate` ranks strictly ahead of `incumbent`. -/
def prefers (k : Keep) (candidate incumbent : Int64) : Bool :=
  match k.direction with
  | .highest => incumbent < candidate
  | .lowest => candidate < incumbent

/-- Puts a number behind the kept ones it is not preferred to, and lets go of what no longer fits. -/
def select (k : Keep) (kept : List Int64) (v : Int64) : List Int64 :=
  (kept.takeWhile (fun i => !k.prefers v i) ++ v :: kept.dropWhile (fun i => !k.prefers v i)).take k.count

end Keep
end DiceLaw
