import DiceLaw.Limits.ObjectNotation

/-! Ceilings that let an expensive text fail at once instead of running on. They are read from text, and may be given
one by one. -/
namespace DiceLaw

structure Limits where
  /-- How deep parentheses and keep selectors may nest. -/
  maxDepth : UInt64 := 64
  /-- How many dice one repetition may have. -/
  maxRepeat : UInt32 := 100
  /-- How many sides a die may have. -/
  maxSides : UInt32 := 100000
  /-- How many combinations a keep selection may go through. -/
  maxKeepCombinations : UInt64 := 2000000
  deriving DecidableEq, Repr, Inhabited

namespace Limits
open ObjectNotation

/-- The number of a field that may be missing. It must not stand twice, be anything but a natural
number, or exceed `most`. -/
def field? (fields : List (List Char × Value)) (name : String) (most default : Nat) : Option Nat :=
  match fields.filter (·.1 = name.toList) with
  | [] => some default
  | [(_, .natural n)] => if n ≤ most then some n else none
  | _ => none

/-- Limits written as one structure. Fields of other names are passed over. -/
def ofText? (text : String) : Option Limits := do
  let fields ← fields? "EvalConfig".toList text.toList
  let unset : Limits := {}
  let depth ← field? fields "max_depth" (UInt64.size - 1) unset.maxDepth.toNat
  let count ← field? fields "max_repeat" (UInt32.size - 1) unset.maxRepeat.toNat
  let sides ← field? fields "max_sides" (UInt32.size - 1) unset.maxSides.toNat
  let combinations ← field? fields "max_keep_combinations" (UInt64.size - 1) unset.maxKeepCombinations.toNat
  return ⟨.ofNat depth, .ofNat count, .ofNat sides, .ofNat combinations⟩

inductive Fault where
  | missingFile
  | malformed
  deriving DecidableEq, Repr

def Fault.message : Fault → String
  | missingFile => "IO error: No such file or directory (os error 2)"
  | malformed => "RON deserialization error: malformed limits"

/-- Where limits come from. A file goes before limits given as such, and single ones before both. -/
structure Request where
  /-- The content of the file asked for, if one is; there is none when the file does not exist. -/
  file : Option (Option String) := none
  given : Option Limits := none
  maxDepth : Option UInt64 := none
  maxRepeat : Option UInt32 := none
  maxSides : Option UInt32 := none
  maxKeepCombinations : Option UInt64 := none

namespace Request

def base (r : Request) : Except Fault Limits :=
  match r.file with
  | some none => .error .missingFile
  | some (some text) =>
    match ofText? text with
    | some limits => .ok limits
    | none => .error .malformed
  | none => .ok (r.given.getD {})

def resolve (r : Request) : Except Fault Limits := do
  let limits ← r.base
  return { maxDepth := r.maxDepth.getD limits.maxDepth
           maxRepeat := r.maxRepeat.getD limits.maxRepeat
           maxSides := r.maxSides.getD limits.maxSides
           maxKeepCombinations := r.maxKeepCombinations.getD limits.maxKeepCombinations }

end Request

end Limits
end DiceLaw
