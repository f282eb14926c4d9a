import DiceLaw.Distribution.Pairing
import DiceLaw.Limits

/-! Several copies of a die: summed, or with the best of them kept, and with the number of copies
itself a roll. -/
namespace DiceLaw.Distribution
variable {W : Type} [Weight W]

/-- The sum of independent copies, by doubling. No copies sum to a certain zero. -/
def sumOfCopies (count : Nat) (die : Distribution W) : Distribution W :=
  if count = 0 then scalar 0
  else if count = 1 then die.withoutNote
  else
    let half := sumOfCopies (count / 2) die
    let doubled := half.add half
    if count % 2 = 1 then doubled.add die else doubled
termination_by count

/-- Whether there are more combinations than the limit: `copies` factors `faces`, of which 64 are
enough to tell, for a limit of 64 bits is passed by 64 factors of two. -/
def tooManyCombinations (faces copies : Nat) (limit : UInt64) : Bool :=
  limit.toNat < Nat.pow faces (Nat.min copies 64)

theorem tooManyCombinations_iff (faces copies : Nat) (limit : UInt64) :
    tooManyCombinations faces copies limit ↔ limit.toNat < Nat.pow faces copies := by
  have hl : limit.toNat < Nat.pow 2 64 := limit.toNat_lt
  simp only [tooManyCombinations, decide_eq_true_eq]
  by_cases hc : copies ≤ 64
  · rw [show Nat.min copies 64 = copies from Nat.min_eq_left hc]
  · rw [show Nat.min copies 64 = 64 from Nat.min_eq_right (by omega)]
    match faces with
    | 0 =>
      have h0 : Nat.pow 0 copies = 0 := Nat.zero_pow (by omega)
      rw [h0, show Nat.pow 0 64 = 0 from rfl]
    | 1 =>
      have h1 : Nat.pow 1 copies = 1 := Nat.one_pow copies
      rw [h1, show Nat.pow 1 64 = 1 from rfl]
    | n + 2 =>
      have h64 : Nat.pow 2 64 ≤ Nat.pow (n + 2) 64 := Nat.pow_le_pow_left (by omega) 64
      have hm : Nat.pow (n + 2) 64 ≤ Nat.pow (n + 2) copies := Nat.pow_le_pow_right (by omega) (by omega)
      exact ⟨fun h => Nat.lt_of_lt_of_le h hm, fun _ => Nat.lt_of_lt_of_le hl h64⟩

/-- Collects all ways to roll `copies` more numbers behind the kept ones, each with the product of its
weights at the sum of what is kept in the end. It ends with the first that has no sum. -/
def collectKept (numbers : List (Int64 × W)) (k : Keep) : Nat → List Int64 → W → Tally W → Option (Tally W)
  | 0, kept, w, t => (Value.sum? kept).map fun s => t.add (.number s) w
  | copies + 1, kept, w, t =>
    numbers.foldlM (fun t e => collectKept numbers k copies (k.select kept e.1) (w * e.2) t) t

/-- The sum of the best of independent copies; labels do not count. -/
def keepOfCopies (copies : Nat) (die : Distribution W) (k : Keep) (limit : UInt64) :
    Except Fault (Distribution W) :=
  if tooManyCombinations die.numbers.length copies limit then
    .error (.limitExceeded .keepCombinations limit.toNat)
  else match collectKept die.numbers k copies [] 1 .empty with
    | some t => .ok (ofTable (.ofTally t))
    | none => .error .overflow

/-- A certain number of copies: the best of them if the die is marked so, else their sum. -/
def copies (limits : Limits) (die : Distribution W) (count : Int64) : Except Fault (Distribution W) :=
  if count < 0 then .error (.negativeRepeat count)
  else if limits.maxRepeat.toNat < count.toInt.toNat then
    .error (.limitExceeded .diceCount limits.maxRepeat.toNat)
  else match die.keep? with
    | some k => keepOfCopies count.toInt.toNat die k limits.maxKeepCombinations
    | none => .ok (sumOfCopies count.toInt.toNat die)

/-- The copies for one count, with the weight of that count and their own total. -/
structure Resolved (W : Type) where
  weight : W
  total : W
  copies : Distribution W

/-- The product of the positive totals, one if that is not a finite weight. -/
def commonFactor (branches : List (Resolved W)) : W :=
  let product := branches.foldl (fun p b => if 0 < b.total then p * b.total else p) 1
  if Weight.isFinite product then product else 1

/-- Every branch brought to the common factor, so that its share is that of its count. -/
def mixture (branches : List (Resolved W)) : Distribution W :=
  let factor := commonFactor branches
  ofTable (branches.foldl (fun t b =>
    if 0 < b.total then t.absorb (b.copies.scale (b.weight * (factor / b.total))).table else t) .empty)

/-- Copies of a die, their number rolled; labels among the counts do not count. The smallest count
that is refused gives the fault. -/
def repeated (limits : Limits) (counts die : Distribution W) : Except Fault (Distribution W) := do
  let branches ← counts.numbers.mapM fun e => do
    let b ← copies limits die e.1
    return ⟨e.2, b.total, b⟩
  return mixture branches

end DiceLaw.Distribution
