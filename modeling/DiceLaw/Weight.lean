/-! Weights. A distribution is computed in double precision or in exact rationals; both are reached
through the operations listed here. -/
namespace DiceLaw

/-- The arithmetic and the tests that distributions ask of their weights. -/
class Weight (W : Type) extends Zero W, One W, Add W, Mul W, Div W, LE W, LT W, BEq W where
  [decidableLE : DecidableLE W]
  [decidableLT : DecidableLT W]
  /-- The weight nearest to a whole number. -/
  ofInt64 : Int64 → W
  /-- Neither infinite nor undefined. -/
  isFinite : W → Bool
  /-- The sum of no weights. Adding it changes no weight, which in double precision holds of `-0` alone. -/
  emptySum : W
  /-- The next smaller weight where positive weights are spaced, the weight itself where they are dense. -/
  predecessor : W → W

attribute [reducible, instance] Weight.decidableLE Weight.decidableLT

namespace Weight

instance : Weight Float where
  ofInt64 := Int64.toFloat
  isFinite := Float.isFinite
  emptySum := -0.0
  predecessor w := .ofBits (w.toBits - 1)

instance : Weight Rat where
  toZero := ⟨Rat.ofInt 0⟩
  toOne := ⟨Rat.ofInt 1⟩
  toAdd := Rat.instAdd
  toMul := Rat.instMul
  toDiv := Rat.instDiv
  toLE := Rat.instLE
  toLT := Rat.instLT
  toBEq := @instBEqOfDecidableEq Rat instDecidableEqRat
  decidableLE := Rat.instDecidableLe
  decidableLT := Rat.instDecidableLt
  ofInt64 v := Rat.ofInt v.toInt
  isFinite _ := true
  emptySum := Rat.ofInt 0
  predecessor w := w

variable {W : Type} [Weight W]

/-- The sum of a list, from left to right. -/
def sum : List W → W
  | [] => emptySum
  | w :: ws => ws.foldl (· + ·) w

end Weight
end DiceLaw
