import DiceLaw.Text

/-! The object notation in which limits are written: `Name(field: value, ...)` with comments. Values
that no limit can have are read for their extent only. -/
namespace DiceLaw.ObjectNotation

/-- What a field holds, as far as limits care. -/
inductive Value where
  | natural (n : Nat)
  | other
  deriving DecidableEq, Repr

/-! ### Characters and gaps -/

def isSpace (c : Char) : Bool := c == ' ' || c == '\t' || c == '\n' || c == '\r'

def isNameStart (c : Char) : Bool := c.isAlpha || c == '_'

def isNamePart (c : Char) : Bool := c.isAlphanum || c == '_'

def isRawNamePart (c : Char) : Bool := isNamePart c || c == '.' || c == '+' || c == '-'

def hexValue? (c : Char) : Option Nat :=
  if '0' ≤ c && c ≤ '9' then some (c.toNat - 48)
  else if 'a' ≤ c && c ≤ 'f' then some (c.toNat - 87)
  else if 'A' ≤ c && c ≤ 'F' then some (c.toNat - 55)
  else none

/-- Where a gap stands: between words, in a line comment, or in nested block comments. -/
inductive Gap where
  | space
  | line
  | block (outer : Nat)

/-- Drops spaces and comments; a lone slash and an open block comment are faults. -/
def skipGap : Gap → List Char → Option (List Char)
  | .space, '/' :: '/' :: s => skipGap .line s
  | .space, '/' :: '*' :: s => skipGap (.block 0) s
  | .space, '/' :: _ => none
  | .space, c :: s => if isSpace c then skipGap .space s else some (c :: s)
  | .space, [] => some []
  | .line, '\n' :: s => skipGap .space s
  | .line, _ :: s => skipGap .line s
  | .line, [] => some []
  | .block outer, '/' :: '*' :: s => skipGap (.block (outer + 1)) s
  | .block 0, '*' :: '/' :: s => skipGap .space s
  | .block (outer + 1), '*' :: '/' :: s => skipGap (.block outer) s
  | .block outer, _ :: s => skipGap (.block outer) s
  | .block _, [] => none

def skip (s : List Char) : Option (List Char) := skipGap .space s

def strip? : List Char → List Char → Option (List Char)
  | [], s => some s
  | w :: ws, c :: s => if w = c then strip? ws s else none
  | _ :: _, [] => none

/-- The text behind a word that does not go on. -/
def stripName? (word s : List Char) : Option (List Char) :=
  (strip? word s).filter fun rest => !(rest.head?.any isNamePart)

/-- A name, or a raw one behind `r#`. -/
def name? (s : List Char) : Option (List Char × List Char) :=
  match s with
  | 'r' :: '"' :: _ => none
  | 'r' :: '#' :: rest =>
    if rest.head?.any isRawNamePart then some (rest.takeWhile isRawNamePart, rest.dropWhile isRawNamePart)
    else none
  | c :: _ =>
    if isNameStart c && (s.takeWhile isRawNamePart).all isNamePart then
      some (s.takeWhile isNamePart, s.dropWhile isNamePart)
    else none
  | [] => none

/-! ### Numbers -/

def isIntegerPart (c : Char) : Bool := (hexValue? c).isSome || c == '_'

def isFloatPart (c : Char) : Bool := Text.isDigit c || c == '.' || c == 'e' || c == 'E' || c == '+' || c == '-'

def inBase? (base : Nat) (digits : List Char) : Option Nat :=
  (digits.filter (· != '_')).foldlM (fun n c =>
    match hexValue? c with
    | some d => if d < base then some (base * n + d) else none
    | none => none) 0

/-- An integer without a sign: `0x`, `0o`, `0b` or decimal, underscores but not at its start. -/
def integer? (most : Nat) (s : List Char) : Option (Nat × List Char) :=
  let (base, body) := match s with
    | '0' :: 'x' :: rest => (16, rest)
    | '0' :: 'o' :: rest => (8, rest)
    | '0' :: 'b' :: rest => (2, rest)
    | s => (10, s)
  let digits := body.takeWhile isIntegerPart
  if digits = [] || digits.head? = some '_' then none
  else match inBase? base digits with
    | some n => if n ≤ most then some (n, body.dropWhile isIntegerPart) else none
    | none => none

/-- Whether the characters of a float form one: digits around an optional point, then an exponent. -/
def isFloat (s : List Char) : Bool :=
  let unsigned (t : List Char) := match t with
    | '+' :: t => t
    | '-' :: t => t
    | t => t
  let mantissa := unsigned s
  let whole := mantissa.takeWhile Text.isDigit
  let rest := mantissa.dropWhile Text.isDigit
  let (part, rest) := match rest with
    | '.' :: rest => (rest.takeWhile Text.isDigit, rest.dropWhile Text.isDigit)
    | rest => ([], rest)
  (whole ≠ [] || part ≠ []) && match rest with
    | [] => true
    | c :: exponent =>
      (c == 'e' || c == 'E') && unsigned exponent ≠ [] && (unsigned exponent).all Text.isDigit

/-- The floats that are not finite, without a sign or with one. -/
def unboundedFloats : List (List Char) :=
  ["inf", "+inf", "-inf", "NaN", "+NaN", "-NaN"].map String.toList

def float? (s : List Char) : Option (Value × List Char) :=
  match unboundedFloats.findSome? (stripName? · s) with
  | some rest => some (.other, rest)
  | none => if isFloat (s.takeWhile isFloatPart) then some (.other, s.dropWhile isFloatPart) else none

/-- A number: an integer where it reads as one, else a float. -/
def number? (s : List Char) : Option (Value × List Char) :=
  let signed := s.head?.any fun c => c == '+' || c == '-'
  let body := if signed then s.drop 1 else s
  if (body.takeWhile isIntegerPart).length < (body.takeWhile isFloatPart).length then float? s
  else if signed then
    match integer? (if s.head? = some '-' then 9223372036854775808 else 9223372036854775807) body with
    | some (_, rest) => some (.other, rest)
    | none => float? s
  else
    match integer? 18446744073709551615 s with
    | some (n, rest) => some (.natural n, rest)
    | none => float? s

/-! ### Strings and characters -/

/-- The text behind an escape, whose backslash is gone. -/
def escape? : List Char → Option (List Char)
  | 'x' :: a :: b :: s => if (hexValue? a).isSome && (hexValue? b).isSome then some s else none
  | 'u' :: '\x7b' :: s =>
    let digits := (s.takeWhile (· != '\x7d')).take 6
    match digits.mapM hexValue?, s.drop digits.length with
    | some ds, '\x7d' :: rest =>
      let code := ds.foldl (fun n d => 16 * n + d) 0
      if ds ≠ [] && decide code.isValidChar then some rest else none
    | _, _ => none
  | c :: s => if ['\'', '"', '\\', 'n', 'r', 't', '0'].contains c then some s else none
  | [] => none

/-- The text behind the closing quote. Each step drops at least one character. -/
def closeString? : Nat → List Char → Option (List Char)
  | _, '"' :: s => some s
  | fuel + 1, '\\' :: s => (escape? s).bind (closeString? fuel)
  | fuel + 1, _ :: s => closeString? fuel s
  | _, _ => none

/-- The text behind the closing quote and its hashes. -/
def closeRaw? (hashes : List Char) : List Char → Option (List Char)
  | [] => none
  | c :: s =>
    match if c = '"' then strip? hashes s else none with
    | some rest => some rest
    | none => closeRaw? hashes s

def string? : List Char → Option (List Char)
  | '"' :: s => closeString? s.length s
  | 'r' :: s =>
    match s.dropWhile (· == '#') with
    | '"' :: rest => closeRaw? (s.takeWhile (· == '#')) rest
    | _ => none
  | _ => none

def char? : List Char → Option (List Char)
  | '\'' :: '\\' :: s => (escape? s).bind (strip? ['\''])
  | '\'' :: c :: '\'' :: s => if c = '\'' then none else some s
  | _ => none

/-! ### Values -/

/-- Items parted by commas up to the closing character. The last may have a comma, and only one stands
between two. Each step drops at least one character. -/
def items? {α : Type} (item : α → List Char → Option (α × List Char)) (close : Char) :
    Nat → Bool → α → List Char → Option (α × List Char)
  | 0, _, _, _ => none
  | fuel + 1, free, state, s => do
    match ← skip s with
    | [] => none
    | c :: rest =>
      if c = close then some (state, rest)
      else if free then
        let (state, s) ← item state (c :: rest)
        match ← skip s with
        | ',' :: s => items? item close fuel true state s
        | s => items? item close fuel false state s
      else none

def binding? {κ : Type} (key : List Char → Option (κ × List Char))
    (value : List Char → Option (Value × List Char)) (s : List Char) : Option ((κ × Value) × List Char) := do
  let (k, s) ← key s
  match ← skip s with
  | ':' :: s =>
    let (v, s) ← value (← skip s)
    some ((k, v), s)
  | _ => none

/-- Whether a parenthesis opens a list of values: no field name with a colon stands behind it. -/
def opensTuple (s : List Char) : Bool :=
  match name? s with
  | none => true
  | some (_, rest) =>
    match skip rest with
    | some (':' :: _) => false
    | _ => true

/-- Items, the way the opening character tells, whose values are read by `value`. -/
def container? (value : List Char → Option (Value × List Char)) (s : List Char) : Option (Value × List Char) :=
  let element (_ : Unit) (s : List Char) := (value s).map fun r => ((), r.2)
  let keyed (_ : Unit) (s : List Char) := (binding? value value s).map fun r => ((), r.2)
  let field (_ : Unit) (s : List Char) := (binding? name? value s).map fun r => ((), r.2)
  let done (r : Unit × List Char) : Value × List Char := (.other, r.2)
  match s with
  | '[' :: rest => (items? element ']' (rest.length + 1) true () rest).map done
  | '\x7b' :: rest => (items? keyed '\x7d' (rest.length + 1) true () rest).map done
  | '(' :: rest => do
    let rest ← skip rest
    if opensTuple rest then (items? element ')' (rest.length + 1) true () rest).map done
    else (items? field ')' (rest.length + 1) true () rest).map done
  | _ => none

/-- What follows the word `Some`: a value in parentheses, or `bare` where the document allows it. -/
def some? (bare : Bool) (value : List Char → Option (Value × List Char)) (s : List Char) :
    Option (Value × List Char) := do
  match ← skip s with
  | '(' :: s =>
    let (_, s) ← value (← skip s)
    match ← skip s with
    | ')' :: s => some (.other, s)
    | ',' :: s =>
      match ← skip s with
      | ')' :: s => some (.other, s)
      | _ => none
    | _ => none
  | s => if bare then (value s).map fun r => (.other, r.2) else none

/-- The words that are values by themselves. -/
def literals : List (List Char) :=
  [['t', 'r', 'u', 'e'], ['f', 'a', 'l', 's', 'e'], ['N', 'o', 'n', 'e'], ['i', 'n', 'f'],
    ['-', 'i', 'n', 'f'], ['N', 'a', 'N']]

/-- A value whose containers may nest as deep as the allowance: one step to open, one for its items. -/
def value? (bare : Bool) (allowance : Nat) (s : List Char) : Option (Value × List Char) :=
  match literals.findSome? (stripName? · s) with
  | some rest => some (.other, rest)
  | none =>
    let container (s : List Char) : Option (Value × List Char) :=
      match allowance with
      | 0 => none
      | 1 => container? (fun _ => none) s
      | inner + 2 => container? (value? bare inner) s
    match stripName? ['S', 'o', 'm', 'e'] s, strip? ['(', ')'] s with
    | some rest, _ =>
      match allowance with
      | 0 => none
      | inner + 1 => some? bare (value? bare inner) rest
    | none, some rest => some (.other, rest)
    | none, none =>
      match name? s with
      | some (_, rest) => do
        match ← skip rest with
        | '(' :: rest => container ('(' :: rest)
        | rest => some (.other, rest)
      | none =>
        match s with
        | [] => none
        | c :: _ =>
          if c = '(' || c = '[' || c = '\x7b' then container s
          else if Text.isDigit c || c = '+' || c = '-' then number? s
          else if c = '.' then float? s
          else if c = '"' || c = 'r' then (string? s).map (.other, ·)
          else if c = '\'' then (char? s).map (.other, ·)
          else none

/-! ### Documents -/

/-- The extension that lets `Some` stand in front of a bare value. -/
def bareSome : List Char := "implicit_some".toList

/-- The extensions that attributes in front of a document may name. -/
def extensions : List (List Char) := [bareSome, "unwrap_newtypes".toList, "unwrap_variant_newtypes".toList]

def stripAll? (words : List (List Char)) (s : List Char) : Option (List Char) :=
  words.foldlM (fun s w => (strip? w s).bind skip) s

/-- The names in an attribute, parted by commas, behind those already found. -/
def extensionNames? : Nat → List (List Char) → List Char → Option (List (List Char) × List Char)
  | 0, _, _ => none
  | fuel + 1, found, s => do
    let (word, s) ← name? s
    if extensions.contains word then
      match ← skip s with
      | ',' :: s =>
        let s ← skip s
        if s.head?.any isNamePart then extensionNames? fuel (word :: found) s else some (word :: found, s)
      | s => if s.head?.any isNamePart then none else some (word :: found, s)
    else none

/-- The extensions of all attributes in front of a document. -/
def attributes? : Nat → List (List Char) → List Char → Option (List (List Char) × List Char)
  | 0, _, _ => none
  | fuel + 1, found, s =>
    if s.head? = some '#' then do
      let s ← stripAll? [['#'], ['!'], ['['], "enable".toList, ['(']] s
      let (found, s) ← extensionNames? (s.length + 1) found s
      let s ← stripAll? [[')'], [']']] (← skip s)
      attributes? fuel found s
    else some (found, s)

/-- The fields of a document that is one structure, in order. Its name may be left out. -/
def fields? (structureName : List Char) (s : List Char) : Option (List (List Char × Value)) := do
  let s ← skip s
  let (enabled, s) ← attributes? (s.length + 1) [] s
  let s ← match s with
    | '(' :: _ => some s
    | s =>
      match name? s with
      | some (word, rest) => if word = structureName then skip rest else none
      | none => none
  match s with
  | '(' :: s =>
    let field (found : List (List Char × Value)) (s : List Char) :=
      (binding? name? (value? (enabled.contains bareSome) 126) s).map fun r => (found ++ [r.1], r.2)
    let (found, s) ← items? field ')' (s.length + 1) true [] s
    match ← skip s with
    | [] => some found
    | _ => none
  | _ => none

end DiceLaw.ObjectNotation
