import DiceLaw.Decimal
import DiceLaw.Distribution.Readout
import DiceLaw.Limits
import DiceLaw.Notation.Evaluation

/-! The command line, as a function from its arguments to what it prints. -/
namespace DiceLaw

/-! ### Tables of a distribution in double precision -/

namespace Report
open Decimal

/-- A double written by `write`, which is given the absolute value, behind its sign. -/
def signed (write : Nat → Int → String) (x : Float) : String :=
  match Binary.ofFloat x with
  | .undefined => "NaN"
  | .infinite negative => if negative then "-inf" else "inf"
  | .finite negative significand exponent => (if negative then "-" else "") ++ write significand exponent

def fixedPlaces (places : Nat) : Float → String :=
  signed fun significand exponent =>
    let (num, den) := Binary.magnitude significand exponent
    fixed places num den

/-- As few digits as read back, never with an exponent. -/
def plain : Float → String :=
  signed fun significand exponent =>
    let (n, power) := shortest significand exponent
    positional n power

def rightAligned (width : Nat) (s : String) : String :=
  String.ofList (List.replicate (width - s.length) ' ') ++ s

def row (outcome : Face × Float) : String :=
  rightAligned 8 outcome.1.text ++ ": " ++ rightAligned 7 (fixedPlaces 3 (outcome.2 * 100)) ++ "%\n"

def table (expression : String) (s : Summary Float) : String :=
  "\n=== " ++ expression ++ " ===\n\nAverage: " ++ fixedPlaces 2 s.average ++ "\nTotal:   " ++
    plain s.total ++ "\n\nChances:\n" ++ String.join (s.outcomes.map row)

def rolls (faces : List Face) : String :=
  if faces = [] then "\nRolls: (nothing can come up)\n"
  else "\nRolls: " ++ ", ".intercalate (faces.map Face.text) ++ "\n"

end Report

/-! ### Arguments and runs -/

namespace CommandLine

structure Output where
  stdout : String := ""
  stderr : String := ""
  code : UInt32 := 0

structure Options where
  n : Int64 := 0
  config : Option String := none
  rolls : Nat := 0
  seed : UInt64 := 42
  expressions : List String := []

def usage : String :=
  "Usage: preview [--n <n>] [--config <limits.ron>] [--roll <count>] [--seed <s>] <expression>...\n\n" ++
    "Examples:\n" ++
    "  preview \"4kh3d6\"\n" ++
    "  preview \"(d20 > d20 + 6 AC 15) * (2d6 + 4) crit (4d6 + 4)\"\n" ++
    "  preview --n 5 \"d20 + n DC 15 * 8d6 save half\"\n"

/-- The options, or the output that the first bad argument ends the run with. An option without a
value counts as unknown. -/
def Options.read (o : Options) : List String → Except Output Options
  | [] => .ok o
  | "--n" :: value :: rest =>
    match Text.readInt64? value.toList with
    | some n => Options.read { o with n := n } rest
    | none => .error { stderr := "Error: --n must be an integer\n", code := 1 }
  | "--config" :: value :: rest => Options.read { o with config := some value } rest
  | "--roll" :: value :: rest =>
    Options.read { o with rolls := ((Text.readUInt64? value.toList).getD 0).toNat } rest
  | "--seed" :: value :: rest => Options.read { o with seed := (Text.readUInt64? value.toList).getD 42 } rest
  | argument :: rest =>
    if argument.startsWith "--" then
      .error { stdout := usage, stderr := "Unknown argument: " ++ argument ++ "\n", code := 1 }
    else Options.read { o with expressions := o.expressions ++ [argument] } rest

/-- The output of a run that stops early. What the stop itself writes to the error stream is left out. -/
def Output.stopped (out : Output) : Output := { out with code := 101 }

/-- Adds what one expression prints, or ends the run. All expressions roll from one supply of words. -/
def report (limits : Limits) (o : Options) (state : Output × WordStream) (expression : String) :
    Except Output (Output × WordStream) :=
  let (out, words) := state
  match evaluate (W := Float) ⟨limits, o.n⟩ expression with
  | .error cause =>
    if cause.stops then .error out.stopped
    else
      let complaint := "ERROR: '" ++ expression ++ "': " ++ cause.message ++ "\n"
      .ok ({ out with stderr := out.stderr ++ complaint, code := 1 }, words)
  | .ok d =>
    let out := { out with stdout := out.stdout ++ Report.table expression (.ofDistribution d) }
    if o.rolls = 0 then .ok (out, words)
    else match d.rolls? o.rolls words with
      | none => .error out.stopped
      | some (faces, words) => .ok ({ out with stdout := out.stdout ++ Report.rolls faces }, words)

/-- The output of a run, whether or not it came to its end. -/
def printed : Except Output (Output × WordStream) → Output
  | .ok (out, _) => out
  | .error out => out

def run (file : String → Option String) (arguments : List String) : Output :=
  match arguments.head? with
  | none => { stdout := usage }
  | some first =>
    if first = "--help" || first = "-h" then { stdout := usage }
    else match Options.read {} arguments with
      | .error out => out
      | .ok o =>
        match Limits.Request.resolve { file := o.config.map file } with
        | .error cause => { stderr := "ERROR: Failed to load config: " ++ cause.message ++ "\n", code := 1 }
        | .ok limits =>
          printed (o.expressions.foldlM (report limits o) ({}, ChaCha.stream o.seed))

end CommandLine
end DiceLaw
