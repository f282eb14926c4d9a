import DiceLaw.Operator

/-! One use of an operator. Top faces (crit) and the bottom face (save) may be carved off what stands
before it; each part meets the operator with an argument of its own, and the parts are put together so
that each keeps the share it was carved with. -/
namespace DiceLaw.Notation
open DiceLaw.Distribution
variable {W : Type} [Weight W]

structure Part (W : Type) where
  carved : Distribution W
  argument : Distribution W

/-- The `count` largest numbers carved off, and what remains. -/
def carveTop (count : Nat) (d : Distribution W) :
    Except Distribution.Fault (Distribution W × Distribution W) :=
  if d.numbers.length < count then .error .noNumericFaces
  else
    let carved := ofWeights (d.numbers.drop (d.numbers.length - count))
    .ok (carved, { d with table := d.table.without carved.table })

/-- The smallest number carved off, shown as one at least, and what remains. -/
def carveBottom (d : Distribution W) : Except Distribution.Fault (Distribution W × Distribution W) := do
  let low ← d.minFace
  return (ofWeights [(Max.max low 1, d.weight (.number low))], d.deleteFace (.number low))

def halve (d : Distribution W) : Except Distribution.Fault (Distribution W) := d.divideFloor (scalar 2)

/-- Joins a carved part that has met the operator: its weight over that of the part before is the
`share` that all parts have in common. -/
def join (op : Operator) (share : W) (result : Distribution W) (part : Part W) :
    Except Distribution.Fault (Distribution W) := do
  let applied ← op.apply part.carved part.argument
  let after := applied.total
  return result.combine (applied.scale (if 0 < after then part.carved.total * share / after else 1))

def applyParts (op : Operator) (normal : Part W) (carved : List (Part W)) :
    Except Distribution.Fault (Distribution W) := do
  let before := normal.carved.total
  let applied ← op.apply normal.carved normal.argument
  let result := applied.scale (if 0 < before then applied.total / before else 1)
  let share := if 0 < before && 0 < result.total then result.total / before else 1
  carved.foldlM (join op share) result

end DiceLaw.Notation
