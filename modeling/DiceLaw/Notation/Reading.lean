import DiceLaw.Notation.Syntax

/-! Trees read off a cleaned text, from left to right with one place of look-ahead. Nothing is computed
and nothing depends on limits here. After a fault the rest of the text is left alone. -/
namespace DiceLaw.Notation

/-- A part read off the front, and fewer than `bound` cells behind it. -/
structure Reading (α : Type) (bound : Nat) where
  value : α
  rest : List Cell
  shorter : rest.length < bound

/-- The fault of finding something else at the front. -/
def unexpected (e : Expected) : List Cell → Fault
  | [] => .unexpectedEnd e
  | c :: _ => .unexpectedChar c.char c.position e

/-- The cells behind a word, or the first place where the word fails. -/
def keyword : List Char → List Cell → Except Fault (List Cell)
  | [], s => .ok s
  | w :: ws, s =>
    match s with
    | [] => .error (unexpected (.char w) s)
    | c :: rest => if c.char = w then keyword ws rest else .error (unexpected (.char w) s)

theorem length_of_keyword {ws : List Char} {s rest : List Cell} (h : keyword ws s = .ok rest) :
    rest.length + ws.length = s.length := by
  induction ws generalizing s with
  | nil => cases h; rfl
  | cons w ws ih =>
    match s with
    | [] => cases h
    | c :: s =>
      rw [keyword] at h
      split at h
      · have := ih h
        simp only [List.length_cons]
        omega
      · cases h

/-- A numeral takes all numeric cells at the front. -/
def numeral (s : List Cell) : Except Fault (Reading Numeral s.length) :=
  match s with
  | [] => .error (unexpected .number s)
  | c :: rest =>
    if c.isNumeric then
      .ok ⟨⟨c.char :: (rest.takeWhile Cell.isNumeric).map Cell.char, c.position⟩,
        rest.dropWhile Cell.isNumeric, Nat.lt_succ_of_le (List.dropWhile_sublist _).length_le⟩
    else .error (unexpected .number s)

/-- A die: its letters count as such only in front of a numeral. -/
def die? (s : List Cell) : Option (Reading Primary s.length) :=
  match s with
  | c :: d :: rest =>
    if c.char = 'd' then
      match numeral (d :: rest) with
      | .ok ⟨sides, after, h⟩ => some ⟨.die sides, after, Nat.lt_succ_of_lt h⟩
      | .error _ => none
    else if c.char = 'h' ∧ d.char = 'd' then
      match numeral rest with
      | .ok ⟨sides, after, h⟩ => some ⟨.halfDie sides, after, Nat.lt_succ_of_lt (Nat.lt_succ_of_lt h)⟩
      | .error _ => none
    else none
  | _ => none

def selector (s : List Cell) : Except Fault (Reading (Direction × Numeral) s.length) :=
  match s with
  | _ :: c :: rest =>
    if c.char = 'h' ∨ c.char = 'l' then
      match numeral rest with
      | .ok ⟨count, after, h⟩ =>
        .ok ⟨(if c.char = 'h' then .highest else .lowest, count), after,
          Nat.lt_succ_of_lt (Nat.lt_succ_of_lt h)⟩
      | .error cause => .error cause
    else .error (unexpected .keepEnd (c :: rest))
  | _ => .error (unexpected .keepEnd [])

/-- The operator that a character announces, the shorter of two that start alike. -/
def announced? : Char → Option Operator
  | 'a' => some .armor
  | 'd' => some .difficulty
  | 'r' => some .reroll
  | '~' => some .add
  | '/' => some .divideCeil
  | '+' => some .addNonZero
  | '-' => some .subtract
  | '*' => some .multiply
  | '=' => some .equals
  | '>' => some .max
  | '<' => some .min
  | '&' => some .combine
  | '!' => some .advantage
  | _ => none

/-- A division rounds down when its sign is doubled. -/
def lengthened (op : Operator) (s : List Cell) : Operator :=
  match op, keyword Operator.divideFloor.word s with
  | .divideCeil, .ok _ => .divideFloor
  | _, _ => op

/-- What follows an operand: an operator, a fault in its name, or no operator at all. -/
def operator? (s : List Cell) : Option (Except Fault (Reading Operator s.length)) :=
  match s.head?.bind fun c => announced? c.char with
  | none => none
  | some op =>
    match h : keyword (lengthened op s).word s with
    | .ok rest => some (.ok ⟨lengthened op s, rest, by
        have := length_of_keyword h
        have := (lengthened op s).length_word_pos
        omega⟩)
    | .error cause => some (.error cause)

def halved (s : List Cell) : Reading Bool (s.length + 1) :=
  match h : keyword ['h', 'a', 'l', 'f'] s with
  | .ok rest => ⟨true, rest, by have := length_of_keyword h; omega⟩
  | .error _ => ⟨false, s, Nat.lt_succ_self _⟩

mutual

/-- `none` where no primary starts. -/
def primary? (s : List Cell) : Option (Reading Primary s.length) :=
  match s with
  | [] => none
  | c :: rest =>
    if c.char = '(' then
      match expression rest with
      | ⟨inner, close, h⟩ =>
        match k : keyword [')'] close with
        | .ok after => some ⟨.group inner, after, by
            have := length_of_keyword k
            simp only [List.length_cons] at h ⊢
            omega⟩
        | .error cause => some ⟨.group (.broken inner cause), [], Nat.succ_pos _⟩
    else if c.char = 'd' ∨ c.char = 'h' then die? (c :: rest)
    else if c.char = 'k' then
      match selector (c :: rest) with
      | .ok ⟨(direction, count), after, h⟩ =>
        match primary? after with
        | some ⟨target, behind, h'⟩ => some ⟨.keep direction count target, behind, Nat.lt_trans h' h⟩
        | none => some ⟨.keep direction count (.broken (.keepTarget c.position)), [], Nat.succ_pos _⟩
      | .error cause => some ⟨.broken cause, [], Nat.succ_pos _⟩
    else
      match numeral (c :: rest) with
      | .ok ⟨value, after, h⟩ => some ⟨.number value, after, h⟩
      | .error _ => none
termination_by 4 * s.length
decreasing_by all_goals simp only [List.length_cons] at *; omega

/-- `none` where no primary starts. -/
def term? (s : List Cell) : Option (Reading Term s.length) :=
  match primary? s with
  | some ⟨first, rest, h⟩ =>
    match copies (.one first) rest with
    | ⟨t, after, h'⟩ => some ⟨t, after, by omega⟩
  | none => none
termination_by 4 * s.length + 1
decreasing_by all_goals omega

def copies (t : Term) (s : List Cell) : Reading Term (s.length + 1) :=
  match primary? s with
  | some ⟨p, rest, h⟩ =>
    match copies (.copies t p) rest with
    | ⟨u, after, h'⟩ => ⟨u, after, by omega⟩
  | none => ⟨t, s, Nat.lt_succ_self _⟩
termination_by 4 * s.length + 1
decreasing_by all_goals omega

def branch (s : List Cell) : Reading Branch (s.length + 1) :=
  match halved s with
  | ⟨true, rest, h⟩ => ⟨.half, rest, h⟩
  | ⟨false, _, _⟩ =>
    match term? s with
    | some ⟨t, rest, h⟩ => ⟨.own t, rest, Nat.lt_succ_of_lt h⟩
    | none => ⟨.whole, s, Nat.lt_succ_self _⟩
termination_by 4 * s.length + 2
decreasing_by all_goals omega

def crit (s : List Cell) : Reading Crit (s.length + 1) :=
  match s with
  | [] => ⟨.absent, [], Nat.succ_pos _⟩
  | c :: rest =>
    if c.char = 'c' then
      match k : keyword ['c', 'r', 'i', 't'] (c :: rest) with
      | .ok after =>
        have hk := length_of_keyword k
        match branch after with
        | ⟨b, behind, h⟩ => ⟨.one b, behind, by simp only [List.length_cons, List.length_nil] at *; omega⟩
      | .error cause => ⟨.broken cause, [], Nat.succ_pos _⟩
    else if c.char = 'x' then
      match k : keyword ['x', 'c', 'r', 'i', 't'] (c :: rest) with
      | .ok after =>
        have hk := length_of_keyword k
        match numeral after with
        | .ok ⟨count, after', h⟩ =>
          match branch after' with
          | ⟨b, behind, h'⟩ =>
            ⟨.many count b, behind, by simp only [List.length_cons, List.length_nil] at *; omega⟩
        | .error cause => ⟨.broken cause, [], Nat.succ_pos _⟩
      | .error cause => ⟨.broken cause, [], Nat.succ_pos _⟩
    else ⟨.absent, c :: rest, Nat.lt_succ_self _⟩
termination_by 4 * s.length + 3
decreasing_by all_goals simp only [List.length_cons, List.length_nil] at *; omega

def save (s : List Cell) : Reading Save (s.length + 1) :=
  match s with
  | [] => ⟨.absent, [], Nat.succ_pos _⟩
  | c :: rest =>
    if c.char = 's' then
      match k : keyword ['s', 'a', 'v', 'e'] (c :: rest) with
      | .ok after =>
        have hk := length_of_keyword k
        match branch after with
        | ⟨b, behind, h⟩ => ⟨.one b, behind, by simp only [List.length_cons, List.length_nil] at *; omega⟩
      | .error cause => ⟨.broken cause, [], Nat.succ_pos _⟩
    else ⟨.absent, c :: rest, Nat.lt_succ_self _⟩
termination_by 4 * s.length + 3
decreasing_by all_goals simp only [List.length_cons, List.length_nil] at *; omega

def argument (op : Operator) (s : List Cell) : Reading Argument (s.length + 1) :=
  if op.isUnary then ⟨.itself, s, Nat.lt_succ_self _⟩
  else
    match term? s with
    | some ⟨t, rest, h⟩ => ⟨.own t, rest, Nat.lt_succ_of_lt h⟩
    | none => ⟨.own (.one (.broken (unexpected (.argument op) s))), [], Nat.succ_pos _⟩
termination_by 4 * s.length + 2
decreasing_by all_goals omega

/-- Operators, with all that belongs to each, behind an expression. -/
def applications (left : Expression) (s : List Cell) : Reading Expression (s.length + 1) :=
  match operator? s with
  | none => ⟨left, s, Nat.lt_succ_self _⟩
  | some (.error cause) => ⟨.broken left cause, [], Nat.succ_pos _⟩
  | some (.ok ⟨op, s₁, h₁⟩) =>
    match argument op s₁ with
    | ⟨arg, s₂, h₂⟩ =>
      match halved s₂ with
      | ⟨half, s₃, h₃⟩ =>
        match crit s₃ with
        | ⟨top, s₄, h₄⟩ =>
          match save s₄ with
          | ⟨bottom, s₅, h₅⟩ =>
            match applications (.apply left op arg half top bottom) s₅ with
            | ⟨e, rest, h⟩ => ⟨e, rest, by omega⟩
termination_by 4 * s.length + 3
decreasing_by all_goals omega

def expression (s : List Cell) : Reading Expression (s.length + 1) :=
  match term? s with
  | some ⟨t, rest, h⟩ =>
    match applications (.term t) rest with
    | ⟨e, after, h'⟩ => ⟨e, after, by omega⟩
  | none => ⟨.term (.one (.broken (unexpected .operand s))), [], Nat.succ_pos _⟩
termination_by 4 * s.length + 2
decreasing_by all_goals omega

end

/-- The tree of a whole text. Cells left over behind it are a fault too. -/
def Expression.ofCells (s : List Cell) : Expression :=
  match expression s with
  | ⟨e, [], _⟩ => e
  | ⟨e, c :: rest, _⟩ => .broken e (unexpected .operatorOrEnd (c :: rest))

def Expression.ofText (s : String) : Expression := .ofCells (Cell.ofText s)

end DiceLaw.Notation
