import DiceLaw.Tally
import DiceLaw.Value

/-! Distributions: a table of weights with a note beside it. Weights need not sum to one. The note
takes no part in probabilities; it only tells later steps how the distribution came about. -/
namespace DiceLaw

/-- What is remembered about a distribution besides its weights. -/
inductive Note where
  | unmarked
  /-- Several copies of this die keep only the best numbers. -/
  | keep (k : Keep)
  /-- In the last union, the left side's faces that the right side lacked, ascending. -/
  | except (faces : List Face)
  deriving DecidableEq, Repr

structure Distribution (W : Type) where
  table : Table W
  note : Note

namespace Distribution

inductive Quantity where
  | diceCount
  | keepCombinations
  deriving DecidableEq, Repr

/-- Why an operation on distributions has no answer. -/
inductive Fault where
  | noNumericFaces
  | divisionByZero
  | negativeRepeat (count : Int64)
  | limitExceeded (what : Quantity) (limit : Nat)
  /-- A sum of kept numbers left the 64-bit range. It is not answered like the others: the run stops there. -/
  | overflow
  deriving DecidableEq, Repr

def Quantity.text : Quantity → String
  | diceCount => "dice count"
  | keepCombinations => "keep combinations"

def Fault.message : Fault → String
  | noNumericFaces => "no numeric faces"
  | divisionByZero => "division by zero"
  | negativeRepeat count => s!"cannot roll a negative number of dice ({count.toInt})"
  | limitExceeded what limit => what.text ++ s!" limit of {limit} exceeded"
  | overflow => "attempt to add with overflow"

variable {W : Type} [Weight W]

/-! ### Construction -/

def ofTable (t : Table W) : Distribution W := ⟨t, .unmarked⟩

def empty : Distribution W := ofTable .empty

/-- Entries in any order; the weights of a repeated face add up. -/
def ofFaces (entries : List (Face × W)) : Distribution W := ofTable (.ofList entries)

def ofWeights (entries : List (Int64 × W)) : Distribution W := ofFaces (entries.map fun e => (.number e.1, e.2))

/-- A fair die showing `1` to `sides`. -/
def uniform (sides : Nat) : Distribution W :=
  ofWeights ((List.range sides).map fun i => (Int64.ofNat (i + 1), 1))

def scalar (v : Int64) : Distribution W := ofWeights [(v, 1)]

/-! ### Views -/

def weight (d : Distribution W) (f : Face) : W := d.table.weight f
def total (d : Distribution W) : W := d.table.total

def keep? (d : Distribution W) : Option Keep :=
  match d.note with
  | .keep k => some k
  | _ => none

def except? (d : Distribution W) : Option (List Face) :=
  match d.note with
  | .except faces => some faces
  | _ => none

def numbers (d : Distribution W) : List (Int64 × W) := d.table.numbers

def maxFace (d : Distribution W) : Except Fault Int64 :=
  match d.numbers.getLast? with
  | some e => .ok e.1
  | none => .error .noNumericFaces

def minFace (d : Distribution W) : Except Fault Int64 :=
  match d.numbers.head? with
  | some e => .ok e.1
  | none => .error .noNumericFaces

/-- The same faces with equal weights, whatever the notes. -/
def sameWeights (d e : Distribution W) : Bool := d.table.entries == e.table.entries

/-! ### Changes -/

def withKeep (k : Keep) (d : Distribution W) : Distribution W := { d with note := .keep k }

def withoutNote (d : Distribution W) : Distribution W := { d with note := .unmarked }

def deleteFace (f : Face) (d : Distribution W) : Distribution W := { d with table := d.table.erase f }

/-- Renames a face; its weight joins that of the new name. -/
def changeFace (old new : Face) (d : Distribution W) : Distribution W :=
  match d.table.find? old with
  | none => d
  | some w => { d with table := (d.table.erase old).absorb (.single new w) }

def scale (c : W) (d : Distribution W) : Distribution W := { d with table := d.table.mapWeights (· * c) }

/-- The union: weights of both sides pooled, and a note of the left side's own faces. -/
def combine (d e : Distribution W) : Distribution W :=
  ⟨e.table.absorb d.table, .except (d.table.without e.table).faces⟩

/-- One more roll after a target face. Every face contributes one copy of the faces that stay, and a
target a copy of the whole besides. -/
def reroll (d targets : Distribution W) : Distribution W :=
  let kept := d.table.without targets.table
  { d with table := d.table.faces.foldl (fun t f =>
      let t := t.absorb kept
      if targets.table.contains f then t.absorb d.table else t) .empty }

end Distribution
end DiceLaw
