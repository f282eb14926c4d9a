/-! Double precision numbers in decimal digits: a fixed number of them, or the fewest that read back as the same
double and of those the nearest. -/
namespace DiceLaw.Decimal

/-! ### Doubles taken apart -/

/-- A double: no number, an infinity, or a whole multiple of a power of two. -/
inductive Binary where
  | undefined
  | infinite (negative : Bool)
  | finite (negative : Bool) (significand : Nat) (exponent : Int)
  deriving DecidableEq, Repr

namespace Binary

def ofBits (bits : UInt64) : Binary :=
  let negative := bits >>> 63 == 1
  let exponent : Nat := (bits.toNat >>> 52) % 2048
  let fraction : Nat := bits.toNat % (1 <<< 52)
  if exponent = 2047 then if fraction = 0 then infinite negative else undefined
  else if exponent = 0 then finite negative fraction (-1074)
  else finite negative ((1 <<< 52) + fraction) ((exponent : Int) - 1075)

def ofFloat (x : Float) : Binary := ofBits x.toBits

def magnitude (significand : Nat) (exponent : Int) : Nat × Nat :=
  if 0 ≤ exponent then (significand <<< exponent.toNat, 1) else (significand, 1 <<< (-exponent).toNat)

end Binary

/-! ### Rounding from the exact value, where a half goes to the even neighbour -/

def roundDiv (num den : Nat) : Nat :=
  let q := num / den
  let r := num % den
  if 2 * r < den then q else if den < 2 * r then q + 1 else if q % 2 = 0 then q else q + 1

/-- A whole number in at least `width` digits. -/
def padded (width n : Nat) : String :=
  let digits := Nat.toDigits 10 n
  String.ofList (List.replicate (width - digits.length) '0' ++ digits)

/-- A fraction with a fixed number of decimal places, at least one. -/
def fixed (places num den : Nat) : String :=
  let n := roundDiv (num * Nat.pow 10 places) den
  toString (n / Nat.pow 10 places) ++ "." ++ padded places (n % Nat.pow 10 places)

def scaled (num den : Nat) (power : Int) : Nat × Nat :=
  if 0 ≤ power then (num * Nat.pow 10 power.toNat, den) else (num, den * Nat.pow 10 (-power).toNat)

/-- The exponent of the leading digit of a positive fraction. -/
def leading (num den : Nat) : Int :=
  let gap : Int := (Nat.toDigits 10 num).length - (Nat.toDigits 10 den).length
  let (n, d) := scaled num den (-gap)
  if d ≤ n then gap else gap - 1

/-- A positive fraction as `digits` significant digits and the exponent of the first. -/
def significant (digits num den : Nat) : Nat × Int :=
  let e := leading num den
  let (n, d) := scaled num den (digits - 1 - e)
  let m := roundDiv n d
  if m = Nat.pow 10 digits then (m / 10, e + 1) else (m, e)

/-! ### Fewest digits -/

/-- The distance, in quarters of the last binary place, down to the middle between a double and the one
below. It is halved where the exponent changes. -/
def lowerGap (significand : Nat) (exponent : Int) : Nat :=
  if significand = 1 <<< 52 ∧ -1074 < exponent then 1 else 2

/-- Whether `n * 10 ^ power` reads back as the double. The ends of its interval do when the
significand is even. -/
def readsBack (significand : Nat) (exponent : Int) (n : Nat) (power : Int) : Bool :=
  -- all sides in quarters of the last binary place
  let (num, den) := scaled n 1 power
  let (unit, unitDen) := Binary.magnitude 1 (exponent - 2)
  let candidate := num * unitDen
  let low := (4 * significand - lowerGap significand exponent) * unit * den
  let high := (4 * significand + 2) * unit * den
  if significand % 2 = 0 then low ≤ candidate && candidate ≤ high else low < candidate && candidate < high

/-- The point of the grid of `10 ^ power` that reads back and lies nearest, the upper of two equally near. -/
def onGrid? (significand : Nat) (exponent : Int) (power : Int) : Option Nat :=
  let (m, d) := Binary.magnitude significand exponent
  let (num, den) := scaled m d (-power)
  let below := num / den
  let down := readsBack significand exponent below power
  let up := readsBack significand exponent (below + 1) power
  let nearerDown : Bool := 2 * (num % den) < den
  if down && (nearerDown || !up) then some below else if up then some (below + 1) else none

/-- The coarsest of `fuel` grids that has a point reading back, each ten times finer. -/
def firstGrid (significand : Nat) (exponent : Int) : Nat → Int → Nat × Int
  | 0, power => ((onGrid? significand exponent power).getD 0, power)
  | fuel + 1, power =>
    match onGrid? significand exponent power with
    | some n => (n, power)
    | none => firstGrid significand exponent fuel (power - 1)

/-- Digits and the power of ten they are taken by. Seventeen digits always read back. -/
def shortest (significand : Nat) (exponent : Int) : Nat × Int :=
  if significand = 0 then (0, 0)
  else
    let (m, d) := Binary.magnitude significand exponent
    firstGrid significand exponent 17 (leading m d + 1)

/-- `n * 10 ^ power` written out without an exponent. -/
def positional (n : Nat) (power : Int) : String :=
  if 0 ≤ power then toString (n * Nat.pow 10 power.toNat)
  else
    let places := (-power).toNat
    toString (n / Nat.pow 10 places) ++ "." ++ padded places (n % Nat.pow 10 places)

end DiceLaw.Decimal
