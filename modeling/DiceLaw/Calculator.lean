import DiceLaw.Distribution.Readout
import DiceLaw.Limits
import DiceLaw.Notation.Evaluation
import DiceLaw.Random

/-! A calculator that keeps its limits and its supply of random words from one question to the next. -/
namespace DiceLaw

/-- Everything the notation understands besides numbers and dice. -/
def keywords : List String :=
  Operator.all.map Operator.symbol ++ ["crit", "xcrit", "save", "half", "kh", "kl"]

structure Calculator where
  limits : Limits
  words : WordStream

namespace Calculator

/-- What is asked of a calculator. -/
inductive Question where
  | chances (text : String) (n : Int64)
  | rolls (text : String) (n : Int64) (count : Nat)

inductive Answer (W : Type) where
  | chances (s : Summary W)
  | rolls (text : String) (faces : List Face)
  | failed (cause : Notation.Fault)

/-- A calculator with limits from a text, the usual ones if it is blank. -/
def new? (limits : String) (seed : UInt64) : Option Calculator :=
  if limits.toList.all Text.isBlank then some ⟨{}, ChaCha.stream seed⟩
  else (Limits.ofText? limits).map (⟨·, ChaCha.stream seed⟩)

variable {W : Type} [Weight W]

/-- The answer, and the calculator after it. Only a successful roll takes words from the supply. There is neither
where the run stops. -/
def ask (c : Calculator) : Question → Option (Answer W × Calculator)
  | .chances text n => do
    match ← reported? (evaluate ⟨c.limits, n⟩ text) with
    | .ok d => return (.chances (.ofDistribution d), c)
    | .error cause => return (.failed cause, c)
  | .rolls text n count => do
    match ← reported? (evaluate (W := W) ⟨c.limits, n⟩ text) with
    | .ok d =>
      let (faces, words) ← d.rolls? count c.words
      return (.rolls text faces, { c with words := words })
    | .error cause => return (.failed cause, c)

/-- The answers to some questions, of which there are none any more once the run has stopped. -/
def answers (c : Calculator) : List Question → List (Option (Answer W))
  | [] => []
  | q :: qs =>
    match c.ask q with
    | some (a, next) => some a :: next.answers qs
    | none => none :: qs.map fun _ => none

end Calculator

/-- One roll with the usual limits and a fresh supply. -/
def rollOnce {W : Type} [Weight W] (text : String) (n : Int64) (seed : UInt64) :
    Option (Except Notation.Fault (List Face)) := do
  match ← reported? (evaluate (W := W) ⟨{}, n⟩ text) with
  | .ok d => return .ok (← d.rolls? 1 (ChaCha.stream seed)).1
  | .error cause => return .error cause

end DiceLaw
