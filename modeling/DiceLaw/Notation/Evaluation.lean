import DiceLaw.Notation.Carving
import DiceLaw.Notation.Reading
import DiceLaw.Repetition

/-! The distribution that a tree stands for. Parts are computed in the order they were read, so the
first fault in the text is the one that is reported. -/
namespace DiceLaw.Notation
variable {W : Type} [Weight W]

/-- What a tree is computed under: the limits, and the number that `n` stands for. -/
structure Setting where
  limits : Limits := {}
  n : Int64 := 0

/-- A fault of an operation on distributions becomes one of the text. -/
def lift {α : Type} (r : Except Distribution.Fault α) : Except Fault α := r.mapError .distribution

/-! ### Numerals -/

/-- The digits of a number for a character that is one of its letters, and else the character. -/
def spell (n : Int64) (letters : List Char) (c : Char) : List Char :=
  if c ∈ letters then (toString n.toInt).toList else [c]

/-- Characters with the digits of a number in place of its letters. -/
def spelling (n : Int64) (letters cs : List Char) : List Char := cs.flatMap (spell n letters)

section Spelling
variable (n : Int64) {letters cs : List Char} {c : Char}

theorem spell_of_notMem (hc : c ∉ letters) : spell n letters c = [c] := if_neg hc

theorem spelling_cons : spelling n letters (c :: cs) = spell n letters c ++ spelling n letters cs := rfl

theorem spelling_append {ds : List Char} :
    spelling n letters (cs ++ ds) = spelling n letters cs ++ spelling n letters ds := List.flatMap_append

theorem spelling_of_notMem (h : ∀ c ∈ cs, c ∉ letters) : spelling n letters cs = cs := by
  induction cs with
  | nil => rfl
  | cons c cs ih =>
    obtain ⟨hc, hcs⟩ := List.forall_mem_cons.mp h
    rw [spelling_cons, spell_of_notMem n hc, ih hcs, List.singleton_append]

end Spelling

namespace Numeral

/-- The numeral with every `n` replaced by the digits it stands for. -/
def text (n : Int64) (m : Numeral) : List Char := spelling n ['n'] m.symbols

def value (n : Int64) (m : Numeral) : Except Fault Int64 :=
  match Text.readInt64? (m.text n) with
  | some v => .ok v
  | none => .error (.malformedNumber (String.ofList (m.text n)) m.position)

def count (what : Counted) (most : UInt32) (n : Int64) (m : Numeral) : Except Fault Nat := do
  let v ← m.value n
  if v < 0 || most.toNat < v.toInt.toNat then .error (.invalidCount what v) else return v.toInt.toNat

end Numeral

/-- A one is rolled once more: the faces but the one, and the whole die besides. -/
def halfDie (sides : Nat) : Distribution W :=
  ((Distribution.uniform sides).deleteFace (.number 1)).combine (Distribution.uniform sides)

def deeper (s : Setting) (depth : Nat) : Except Fault Nat :=
  if s.limits.maxDepth.toNat < depth + 1 then .error (.nestingTooDeep s.limits.maxDepth.toNat)
  else .ok (depth + 1)

/-! ### Trees -/

mutual

def Primary.eval (s : Setting) (depth : Nat) : Primary → Except Fault (Distribution W)
  | .number value => do return Distribution.scalar (← value.value s.n)
  | .die sides => do return Distribution.uniform (← sides.count .dieSize s.limits.maxSides s.n)
  | .halfDie sides => do return Notation.halfDie (← sides.count .dieSize s.limits.maxSides s.n)
  | .keep direction count target => do
    let m ← count.count .keepCount 4294967295 s.n
    let inner ← deeper s depth
    let d ← target.eval s inner
    return d.withKeep ⟨direction, m⟩
  | .group inner => do
    let level ← deeper s depth
    inner.eval s level
  | .broken cause => .error cause

def Term.eval (s : Setting) (depth : Nat) : Term → Except Fault (Distribution W)
  | .one first => first.eval s depth
  | .copies counts die => do
    let c ← counts.eval s depth
    let d ← die.eval s depth
    lift (Distribution.repeated s.limits c d)

/-- The argument of a carved part, given the main one. -/
def Branch.eval (s : Setting) (depth : Nat) (main : Distribution W) : Branch → Except Fault (Distribution W)
  | .whole => .ok main
  | .half => lift (halve main)
  | .own argument => argument.eval s depth

/-- The part that a crit carves off, and what remains. -/
def Crit.eval (s : Setting) (depth : Nat) (main current : Distribution W) :
    Crit → Except Fault (List (Part W) × Distribution W)
  | .absent => .ok ([], current)
  | .one branch => do
    let (carved, rest) ← lift (carveTop 1 current)
    let argument ← branch.eval s depth main
    return ([⟨carved, argument⟩], rest)
  | .many count branch => do
    let m ← count.count .critCount 4294967295 s.n
    let (carved, rest) ← lift (carveTop m current)
    let argument ← branch.eval s depth main
    return ([⟨carved, argument⟩], rest)
  | .broken cause => .error cause

/-- The part that a save carves off, and what remains. -/
def Save.eval (s : Setting) (depth : Nat) (main current : Distribution W) :
    Save → Except Fault (List (Part W) × Distribution W)
  | .absent => .ok ([], current)
  | .one branch => do
    let (carved, rest) ← lift (carveBottom current)
    let argument ← branch.eval s depth main
    return ([⟨carved, argument⟩], rest)
  | .broken cause => .error cause

def Argument.eval (s : Setting) (depth : Nat) (current : Distribution W) :
    Argument → Except Fault (Distribution W)
  | .itself => .ok current
  | .own argument => argument.eval s depth

def Expression.eval (s : Setting) (depth : Nat) : Expression → Except Fault (Distribution W)
  | .term first => first.eval s depth
  | .apply left op argument halved crit save => do
    let current ← left.eval s depth
    let whole ← argument.eval s depth current
    let main ← if halved then lift (halve whole) else .ok whole
    let (top, rest) ← crit.eval s depth main current
    let (bottom, normal) ← save.eval s depth main rest
    lift (applyParts op ⟨normal, main⟩ (top ++ bottom))
  | .broken left cause => do
    let _ ← left.eval s depth
    .error cause

end

end DiceLaw.Notation

namespace DiceLaw

/-- The distribution of a text in dice notation, or the first fault in it. -/
def evaluate {W : Type} [Weight W] (s : Notation.Setting) (text : String) :
    Except Notation.Fault (Distribution W) :=
  (Notation.Expression.ofText text).eval s 0

/-- What a run goes on with: a result or a fault to answer, but nothing after a fault that ends it. -/
def reported? {α : Type} : Except Notation.Fault α → Option (Except Notation.Fault α)
  | .ok a => some (.ok a)
  | .error cause => if cause.stops then none else some (.error cause)

end DiceLaw
