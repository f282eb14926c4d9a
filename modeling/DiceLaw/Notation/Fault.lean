import DiceLaw.Operator

/-! Why a text in dice notation has no distribution. -/
namespace DiceLaw.Notation

/-- What the reader was looking for. -/
inductive Expected where
  /-- The start of a term. -/
  | operand
  | argument (op : Operator)
  | operatorOrEnd
  | keepEnd
  | number
  | char (c : Char)
  deriving DecidableEq, Repr

inductive Counted where
  | dieSize
  | keepCount
  | critCount
  deriving DecidableEq, Repr

inductive Fault where
  | unexpectedChar (found : Char) (position : Nat) (expected : Expected)
  | unexpectedEnd (expected : Expected)
  | malformedNumber (text : String) (position : Nat)
  /-- No die follows the keep selector that starts at the position. -/
  | keepTarget (position : Nat)
  | invalidCount (what : Counted) (value : Int64)
  | nestingTooDeep (limit : Nat)
  | distribution (cause : Distribution.Fault)
  deriving DecidableEq, Repr

def Expected.text : Expected → String
  | operand => "a number, die or '('"
  | argument op => "an argument for '" ++ op.symbol ++ "'"
  | operatorOrEnd => "an operator or end of input"
  | keepEnd => "'h' or 'l'"
  | number => "a number"
  | char c => "'" ++ c.toString ++ "'"

def Counted.text : Counted → String
  | dieSize => "die size"
  | keepCount => "keep count"
  | critCount => "xcrit count"

namespace Fault

/-- Whether the text itself is malformed, as opposed to a well-formed text without an answer. -/
def isMalformed : Fault → Bool
  | unexpectedChar .. | unexpectedEnd .. | malformedNumber .. => true
  | _ => false

/-- Whether the fault ends the run instead of being answered. -/
def stops : Fault → Bool
  | distribution .overflow => true
  | _ => false

def message : Fault → String
  | unexpectedChar found position expected =>
    "unexpected character '" ++ found.toString ++ s!"' at position {position}, expected " ++ expected.text
  | unexpectedEnd expected => "unexpected end of input, expected " ++ expected.text
  | malformedNumber text position => "malformed number '" ++ text ++ s!"' at position {position}"
  | keepTarget position => s!"keep modifier at position {position} must be followed by dice"
  | invalidCount what value => "invalid " ++ what.text ++ " " ++ toString value.toInt
  | nestingTooDeep limit => s!"parentheses nested deeper than {limit}"
  | distribution cause => "distribution error: " ++ cause.message

end Fault
end DiceLaw.Notation
