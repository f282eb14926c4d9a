/-! Outcomes of a roll. Numbers come before labels; numbers ascend, labels go by code point. -/
namespace DiceLaw

/-- An outcome: a number, or a label that arithmetic hands through unchanged. -/
inductive Face where
  | number (value : Int64)
  | label (name : String)
  deriving DecidableEq, Repr, Inhabited

namespace Face

def value? : Face → Option Int64
  | number v => some v
  | label _ => none

def text : Face → String
  | number v => toString v.toInt
  | label name => name

instance : Ord Face where
  compare
    | number a, number b => compare a b
    | number _, label _ => .lt
    | label _, number _ => .gt
    | label a, label b => compare a b

instance : LT Face := ltOfOrd
instance : LE Face := leOfOrd

instance : Std.OrientedOrd Face where
  eq_swap {a b} := by
    cases a <;> cases b
    · exact Std.OrientedOrd.eq_swap (α := Int64)
    · rfl
    · rfl
    · exact Std.OrientedOrd.eq_swap (α := String)

instance : Std.TransOrd Face where
  isLE_trans {a b c} := by
    cases a <;> cases b <;> cases c <;> intro h k
    · exact Std.TransOrd.isLE_trans (α := Int64) h k
    · rfl
    · cases k
    · rfl
    · cases h
    · cases h
    · cases k
    · exact Std.TransOrd.isLE_trans (α := String) h k

instance : Std.LawfulEqOrd Face where
  eq_of_compare {a b} h := by
    cases a <;> cases b
    · exact congrArg number (Std.LawfulEqOrd.eq_of_compare (α := Int64) h)
    · cases h
    · cases h
    · exact congrArg label (Std.LawfulEqOrd.eq_of_compare (α := String) h)
  compare_self {a} := by
    cases a
    · exact Std.ReflOrd.compare_self (α := Int64)
    · exact Std.ReflOrd.compare_self (α := String)

theorem lt_iff {a b : Face} : a < b ↔ compare a b = .lt := Iff.rfl

theorem lt_trans {a b c : Face} (h : a < b) (k : b < c) : a < c := Std.TransCmp.lt_trans h k

theorem not_lt_self (a : Face) : ¬ a < a := fun h => by
  have e : compare a a = .eq := Std.ReflOrd.compare_self
  rw [lt_iff, e] at h
  cases h

theorem lt_of_not_lt {a b : Face} (h : ¬ a < b) (hne : a ≠ b) : b < a := by
  cases hc : compare a b with
  | lt => exact absurd hc h
  | eq => exact absurd (Std.LawfulEqOrd.eq_of_compare hc) hne
  | gt => exact Std.OrientedCmp.lt_of_gt hc

/-- Every number precedes every label. -/
theorem number_lt_label (v : Int64) (name : String) : number v < label name := rfl

theorem number_lt_number {a b : Int64} : number a < number b ↔ a < b :=
  Std.compare_eq_lt (α := Int64)

end Face
end DiceLaw
