import DiceLaw.Notation.Evaluation

/-! The grammar of dice notation, one rule a constructor, and the distribution that a derivation stands
for. A rule relates the cells it starts from to those it leaves, so that a numeral can be required to end
where no further digit stands. Nothing here looks ahead, recovers from a fault or carries a depth. -/
namespace DiceLaw.Notation

/-! ### Derivations -/

/-- `s` is a word with `rest` behind it. -/
def Word (w : List Char) (s rest : List Cell) : Prop :=
  ∃ front, front.map Cell.char = w ∧ s = front ++ rest

/-- `s` is a maximal run of digits and `n`s with `rest` behind it. -/
def Numeral.Derives (m : Numeral) (s rest : List Cell) : Prop :=
  ∃ first others, (∀ c ∈ first :: others, c.isNumeric) ∧ (∀ c ∈ rest.head?, ¬ c.isNumeric) ∧
    s = first :: others ++ rest ∧ m = ⟨(first :: others).map Cell.char, first.position⟩

/-- The word `half`, if it is there. -/
def Halved (halved : Bool) (s rest : List Cell) : Prop :=
  if halved then Word ['h', 'a', 'l', 'f'] s rest else s = rest

mutual

inductive Primary.Derives : Primary → List Cell → List Cell → Prop where
  | number {m s rest} : m.Derives s rest → Primary.Derives (.number m) s rest
  | die {m s s₁ rest} : Word ['d'] s s₁ → m.Derives s₁ rest → Primary.Derives (.die m) s rest
  | halfDie {m s s₁ rest} : Word ['h', 'd'] s s₁ → m.Derives s₁ rest →
      Primary.Derives (.halfDie m) s rest
  | keepHighest {m p s s₁ s₂ rest} : Word ['k', 'h'] s s₁ → m.Derives s₁ s₂ →
      Primary.Derives p s₂ rest → Primary.Derives (.keep .highest m p) s rest
  | keepLowest {m p s s₁ s₂ rest} : Word ['k', 'l'] s s₁ → m.Derives s₁ s₂ →
      Primary.Derives p s₂ rest → Primary.Derives (.keep .lowest m p) s rest
  | group {e s s₁ s₂ rest} : Word ['('] s s₁ → Expression.Derives e s₁ s₂ → Word [')'] s₂ rest →
      Primary.Derives (.group e) s rest

inductive Term.Derives : Term → List Cell → List Cell → Prop where
  | one {p s rest} : Primary.Derives p s rest → Term.Derives (.one p) s rest
  | copies {t p s s₁ rest} : Term.Derives t s s₁ → Primary.Derives p s₁ rest →
      Term.Derives (.copies t p) s rest

inductive Branch.Derives : Branch → List Cell → List Cell → Prop where
  | whole {s} : Branch.Derives .whole s s
  | half {s rest} : Word ['h', 'a', 'l', 'f'] s rest → Branch.Derives .half s rest
  | own {t s rest} : Term.Derives t s rest → Branch.Derives (.own t) s rest

inductive Crit.Derives : Crit → List Cell → List Cell → Prop where
  | absent {s} : Crit.Derives .absent s s
  | one {b s s₁ rest} : Word ['c', 'r', 'i', 't'] s s₁ → Branch.Derives b s₁ rest →
      Crit.Derives (.one b) s rest
  | many {m b s s₁ s₂ rest} : Word ['x', 'c', 'r', 'i', 't'] s s₁ → m.Derives s₁ s₂ →
      Branch.Derives b s₂ rest → Crit.Derives (.many m b) s rest

inductive Save.Derives : Save → List Cell → List Cell → Prop where
  | absent {s} : Save.Derives .absent s s
  | one {b s s₁ rest} : Word ['s', 'a', 'v', 'e'] s s₁ → Branch.Derives b s₁ rest →
      Save.Derives (.one b) s rest

/-- The argument of a given operator: none is written for a unary one. -/
inductive Argument.Derives : Operator → Argument → List Cell → List Cell → Prop where
  | itself {op s} : op.isUnary → Argument.Derives op .itself s s
  | own {op t s rest} : ¬ op.isUnary → Term.Derives t s rest → Argument.Derives op (.own t) s rest

inductive Expression.Derives : Expression → List Cell → List Cell → Prop where
  | term {t s rest} : Term.Derives t s rest → Expression.Derives (.term t) s rest
  | apply {left op argument halved crit save s s₁ s₂ s₃ s₄ s₅ rest} :
      Expression.Derives left s s₁ → Word op.word s₁ s₂ → Argument.Derives op argument s₂ s₃ →
      Halved halved s₃ s₄ → Crit.Derives crit s₄ s₅ → Save.Derives save s₅ rest →
      Expression.Derives (.apply left op argument halved crit save) s rest

end

/-! ### Nesting -/

mutual

/-- How many parentheses and keep selectors are open at once, at most. -/
def Primary.nesting : Primary → Nat
  | .number _ | .die _ | .halfDie _ | .broken _ => 0
  | .keep _ _ target => target.nesting + 1
  | .group inner => inner.nesting + 1

def Term.nesting : Term → Nat
  | .one first => first.nesting
  | .copies counts die => max counts.nesting die.nesting

def Branch.nesting : Branch → Nat
  | .whole | .half => 0
  | .own argument => argument.nesting

def Crit.nesting : Crit → Nat
  | .absent | .broken _ => 0
  | .one branch | .many _ branch => branch.nesting

def Save.nesting : Save → Nat
  | .absent | .broken _ => 0
  | .one branch => branch.nesting

def Argument.nesting : Argument → Nat
  | .itself => 0
  | .own argument => argument.nesting

def Expression.nesting : Expression → Nat
  | .term first => first.nesting
  | .apply left _ argument _ crit save =>
    max left.nesting (max argument.nesting (max crit.nesting save.nesting))
  | .broken left _ => left.nesting

end

/-! ### Uses of an operator

Once all its arguments are known: carve, apply and join in one step. -/

section Uses
open DiceLaw.Distribution
variable {W : Type} [Weight W]

/-- The top faces that a crit carves off, with the argument they meet, and what remains. -/
def carveCrit (current : Distribution W) :
    Option (Nat × Distribution W) → Except Distribution.Fault (List (Part W) × Distribution W)
  | none => .ok ([], current)
  | some (count, argument) => do
    let (carved, rest) ← carveTop count current
    return ([⟨carved, argument⟩], rest)

/-- The bottom face that a save carves off, with the argument it meets, and what remains. -/
def carveSave (current : Distribution W) :
    Option (Distribution W) → Except Distribution.Fault (List (Part W) × Distribution W)
  | none => .ok ([], current)
  | some argument => do
    let (carved, rest) ← carveBottom current
    return ([⟨carved, argument⟩], rest)

/-- The parts of what stands before an operator: the normal one, then those carved off, the crit first. -/
def carve (current main : Distribution W) (crit : Option (Nat × Distribution W))
    (save : Option (Distribution W)) : Except Distribution.Fault (Part W × List (Part W)) := do
  let (top, rest) ← carveCrit current crit
  let (bottom, normal) ← carveSave rest save
  return (⟨normal, main⟩, top ++ bottom)

/-- An operator with the main argument, and the arguments of a crit and a save where there are any. -/
def operate (op : Operator) (current main : Distribution W) (crit : Option (Nat × Distribution W))
    (save : Option (Distribution W)) : Except Distribution.Fault (Distribution W) := do
  let (normal, carved) ← carve current main crit save
  applyParts op normal carved

end Uses

/-! ### Meaning -/

section Meaning
variable {W : Type} [Weight W]

/-- The number written once every `n` is replaced, if it fits 64 bits. -/
def Numeral.number? (n : Int64) (m : Numeral) : Option Int64 := Text.readInt64? (m.text n)

/-- The number written, if it is from zero to `most`. -/
def Numeral.upTo? (most : Nat) (n : Int64) (m : Numeral) : Option Nat := do
  let v ← m.number? n
  if 0 ≤ v.toInt ∧ v.toInt ≤ most then some v.toInt.toNat else none

/-- The main argument, rounded down to its half where the text says so. -/
def mainArgument (halved : Bool) (whole : Distribution W) : Except Distribution.Fault (Distribution W) :=
  if halved then halve whole else .ok whole

mutual

def Primary.denotation (s : Setting) : Primary → Option (Distribution W)
  | .number value => do some (Distribution.scalar (← value.number? s.n))
  | .die sides => do some (Distribution.uniform (← sides.upTo? s.limits.maxSides.toNat s.n))
  | .halfDie sides => do some (Notation.halfDie (← sides.upTo? s.limits.maxSides.toNat s.n))
  | .keep direction count target => do
    let m ← count.upTo? 4294967295 s.n
    let d ← target.denotation s
    some (d.withKeep ⟨direction, m⟩)
  | .group inner => inner.denotation s
  | .broken _ => none

/-- Every further primary is rolled as often as all before it say. -/
def Term.denotation (s : Setting) : Term → Option (Distribution W)
  | .one first => first.denotation s
  | .copies counts die => do
    let c ← counts.denotation s
    let d ← die.denotation s
    (Distribution.repeated s.limits c d).toOption

def Branch.denotation (s : Setting) (main : Distribution W) : Branch → Option (Distribution W)
  | .whole => some main
  | .half => (halve main).toOption
  | .own argument => argument.denotation s

/-- How many faces to carve off, and what they meet. -/
def Crit.denotation (s : Setting) (main : Distribution W) : Crit → Option (Option (Nat × Distribution W))
  | .absent => some none
  | .one branch => do some (some (1, ← branch.denotation s main))
  | .many count branch => do
    let m ← count.upTo? 4294967295 s.n
    some (some (m, ← branch.denotation s main))
  | .broken _ => none

def Save.denotation (s : Setting) (main : Distribution W) : Save → Option (Option (Distribution W))
  | .absent => some none
  | .one branch => do some (some (← branch.denotation s main))
  | .broken _ => none

def Argument.denotation (s : Setting) (current : Distribution W) : Argument → Option (Distribution W)
  | .itself => some current
  | .own argument => argument.denotation s

/-- Operators are used from left to right, whatever they are. -/
def Expression.denotation (s : Setting) : Expression → Option (Distribution W)
  | .term first => first.denotation s
  | .apply left op argument halved crit save => do
    let current ← left.denotation s
    let whole ← argument.denotation s current
    let main ← (mainArgument halved whole).toOption
    let top ← crit.denotation s main
    let bottom ← save.denotation s main
    (operate op current main top bottom).toOption
  | .broken _ _ => none

end
end Meaning
end DiceLaw.Notation
