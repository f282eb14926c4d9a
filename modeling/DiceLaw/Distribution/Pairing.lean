import DiceLaw.Distribution
import DiceLaw.Value

/-! Two independent rolls joined by a function of their numbers. Each pair of entries puts the product of
its weights on one face; a label stands for itself, the left one first. -/
namespace DiceLaw.Distribution
variable {W : Type} [Weight W]

def pairFace (f : Int64 → Int64 → Int64) : Face → Face → Face
  | .number a, .number b => .number (f a b)
  | .number _, .label b => .label b
  | .label a, _ => .label a

/-- The entry of a pair. -/
def pairEntry (f : Int64 → Int64 → Int64) (a b : Face × W) : Face × W := (pairFace f a.1 b.1, a.2 * b.2)

/-- All pairs, those of one entry of the shorter table in a row. -/
def pairEntries (f : Int64 → Int64 → Int64) (t u : Table W) : List (Face × W) :=
  if t.size ≤ u.size then t.entries.flatMap fun a => u.entries.map fun b => pairEntry f a b
  else u.entries.flatMap fun b => t.entries.map fun a => pairEntry f a b

/-- Adds all pairs to a tally, without writing them down first. -/
def collectPairs (f : Int64 → Int64 → Int64) (t u : Table W) (seed : Tally W) : Tally W :=
  if t.size ≤ u.size then
    t.entries.foldl (fun s a => u.entries.foldl (fun s b => s.add (pairFace f a.1 b.1) (a.2 * b.2)) s) seed
  else
    u.entries.foldl (fun s b => t.entries.foldl (fun s a => s.add (pairFace f a.1 b.1) (a.2 * b.2)) s) seed

theorem collectPairs_eq_addAll (f : Int64 → Int64 → Int64) (t u : Table W) (seed : Tally W) :
    collectPairs f t u seed = seed.addAll (pairEntries f t u) := by
  rw [collectPairs, pairEntries]
  split <;> simp only [Tally.addAll, List.foldl_flatMap, List.foldl_map, pairEntry]

def pairUp (f : Int64 → Int64 → Int64) (d e : Distribution W) : Distribution W :=
  ofTable (.ofTally (collectPairs f d.table e.table .empty))

/-- `0` and `1` are listed, with weight zero at least. -/
def pairUpSeeded (f : Int64 → Int64 → Int64) (d e : Distribution W) : Distribution W :=
  ofTable (.ofTally (collectPairs f d.table e.table (Tally.empty.addAll [(.number 0, 0), (.number 1, 0)])))

/-- As `pairUp`, for a function that may be undefined; one undefined pair of numbers spoils it all. -/
def pairUp? (f : Int64 → Int64 → Option Int64) (d e : Distribution W) : Option (Distribution W) :=
  if d.numbers.all fun a => e.numbers.all fun b => (f a.1 b.1).isSome then
    some (pairUp (fun a b => (f a b).getD 0) d e)
  else none

def add : Distribution W → Distribution W → Distribution W := pairUp Value.add

def subtract : Distribution W → Distribution W → Distribution W := pairUp Value.subtract

/-- A zero on the left stays zero, so that a miss gathers no bonus. -/
def addNonZero : Distribution W → Distribution W → Distribution W :=
  pairUp fun a b => if a = 0 then a else Value.add a b

/-- A zero on the left stays zero, anything else becomes the right number. -/
def multiply : Distribution W → Distribution W → Distribution W := pairUp fun a b => if a = 0 then 0 else b

def equals : Distribution W → Distribution W → Distribution W := pairUp fun a b => Value.ofBool (a == b)

def max : Distribution W → Distribution W → Distribution W := pairUp Max.max

def min : Distribution W → Distribution W → Distribution W := pairUp Min.min

def advantage (d : Distribution W) : Distribution W := max d d

def both : Distribution W → Distribution W → Distribution W :=
  pairUp fun a b => Value.ofBool (a != 0 && b != 0)

/-- Whether the left number falls short of the difficulty. -/
def difficulty : Distribution W → Distribution W → Distribution W := pairUpSeeded fun a b => Value.ofBool (a < b)

/-- The left number where it reaches the armor, else zero. -/
def armor : Distribution W → Distribution W → Distribution W := pairUpSeeded fun a b => if b ≤ a then a else 0

def divideFloor (d e : Distribution W) : Except Fault (Distribution W) :=
  match pairUp? Value.floorQuotient? d e with
  | some r => .ok r
  | none => .error .divisionByZero

def divideCeil (d e : Distribution W) : Except Fault (Distribution W) :=
  match pairUp? Value.ceilQuotient? d e with
  | some r => .ok r
  | none => .error .divisionByZero

end DiceLaw.Distribution
