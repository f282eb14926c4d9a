import DiceLaw.Proofs.Notation.Grammar

/-! What each step of the reader does, without the bounds that its results carry. -/
namespace DiceLaw.Notation

/-- A reading without its bound. -/
def Reading.pair {α : Type} {bound : Nat} (r : Reading α bound) : α × List Cell := (r.value, r.rest)

/-! ### Words and numerals -/

theorem keyword_eq_ok {w : List Char} {s rest : List Cell} : keyword w s = .ok rest ↔ Word w s rest := by
  induction w generalizing s with
  | nil => simp [keyword, Word]
  | cons a w ih =>
    cases s with
    | nil =>
      simp only [keyword, reduceCtorEq, false_iff]
      intro hword
      obtain ⟨front, hw, hs⟩ := hword
      obtain ⟨rfl, -⟩ := List.append_eq_nil_iff.mp hs.symm
      cases hw
    | cons c s =>
      rw [keyword]
      split
      next hc =>
        rw [ih]
        constructor
        · intro hword
          obtain ⟨front, hw, rfl⟩ := hword
          exact ⟨c :: front, by simp [hc, hw], rfl⟩
        · intro hword
          obtain ⟨front, hw, hs⟩ := hword
          cases front with
          | nil => cases hw
          | cons d front =>
            simp only [List.map_cons, List.cons.injEq, List.cons_append] at hw hs
            exact ⟨front, hw.2, hs.2⟩
      next hc =>
        simp only [reduceCtorEq, false_iff]
        intro hword
        obtain ⟨front, hw, hs⟩ := hword
        cases front with
        | nil => cases hw
        | cons d front =>
          simp only [List.map_cons, List.cons.injEq, List.cons_append] at hw hs
          exact hc (hs.1 ▸ hw.1)

theorem pair_halved (s : List Cell) :
    (halved s).pair = match keyword ['h', 'a', 'l', 'f'] s with
      | .ok rest => (true, rest)
      | .error _ => (false, s) := by
  rw [halved]
  split <;> simp_all [Reading.pair]

/-- The letters of a die are found one by one, and count only in front of a numeral. -/
theorem pair_die? (c : Cell) (s : List Cell) :
    (die? (c :: s)).map Reading.pair =
      if c.char = 'd' then (numeral s).toOption.map fun r => (.die r.value, r.rest)
      else if c.char = 'h' then match s with
        | [] => none
        | d :: s => if d.char = 'd' then (numeral s).toOption.map fun r => (.halfDie r.value, r.rest) else none
      else none := by
  cases s with
  | nil =>
    simp only [die?, Option.map_none]
    split
    · rfl
    · split <;> rfl
  | cons d s =>
    rw [die?]
    split
    · cases numeral (d :: s) <;> rfl
    · by_cases hc : c.char = 'h'
      · by_cases hd : d.char = 'd'
        · rw [if_pos ⟨hc, hd⟩, if_pos hc]
          simp only [if_pos hd]
          cases numeral s <;> rfl
        · simp [hc, hd]
      · simp [hc]

theorem pair_copies (t : Term) (s : List Cell) :
    (copies t s).pair = match primary? s with
      | some r => (copies (.copies t r.value) r.rest).pair
      | none => (t, s) := by
  rw [copies]
  cases primary? s <;> rfl

theorem pair_term? (s : List Cell) :
    (term? s).map Reading.pair = (primary? s).map fun r => (copies (.one r.value) r.rest).pair := by
  rw [term?]
  cases primary? s <;> rfl

theorem pair_branch (s : List Cell) :
    (branch s).pair =
      if (halved s).value then (.half, (halved s).rest)
      else match term? s with
        | some r => (.own r.value, r.rest)
        | none => (.whole, s) := by
  rw [branch]
  split
  next h => simp [h, Reading.pair]
  next h =>
    simp [h]
    cases term? s <;> rfl

theorem pair_argument (op : Operator) (s : List Cell) :
    (argument op s).pair =
      if op.isUnary then (.itself, s)
      else match term? s with
        | some r => (.own r.value, r.rest)
        | none => (.own (.one (.broken (unexpected (.argument op) s))), []) := by
  rw [argument]
  split
  · rfl
  · cases term? s <;> rfl

theorem pair_expression (s : List Cell) :
    (expression s).pair = match term? s with
      | some r => (applications (.term r.value) r.rest).pair
      | none => (.term (.one (.broken (unexpected .operand s))), []) := by
  rw [expression]
  cases term? s <;> rfl

theorem pair_applications (left : Expression) (s : List Cell) :
    (applications left s).pair = match operator? s with
      | none => (left, s)
      | some (.error cause) => (.broken left cause, [])
      | some (.ok o) =>
        let arg := argument o.value o.rest
        let half := halved arg.rest
        let top := crit half.rest
        let bottom := save top.rest
        (applications (.apply left o.value arg.value half.value top.value bottom.value) bottom.rest).pair := by
  rw [applications]
  rcases operator? s with _ | _ | _ <;> rfl

/-- One more operator is read with all that belongs to it, part by part. -/
theorem pair_applications_of_ok {left : Expression} {s s₂ s₃ s₄ s₅ : List Cell}
    {o : Reading Operator s.length} (ho : operator? s = some (.ok o)) {arg : Argument}
    (ha : (argument o.value o.rest).pair = (arg, s₂)) {half : Bool} (hh : (halved s₂).pair = (half, s₃))
    {top : Crit} (hc : (crit s₃).pair = (top, s₄)) {bottom : Save} (hs : (save s₄).pair = (bottom, s₅)) :
    (applications left s).pair = (applications (.apply left o.value arg half top bottom) s₅).pair := by
  cases ha
  cases hh
  cases hc
  cases hs
  rw [pair_applications, ho]

theorem pair_crit (c : Cell) (s : List Cell) :
    (crit (c :: s)).pair =
      if c.char = 'c' then match keyword ['c', 'r', 'i', 't'] (c :: s) with
        | .ok after => (.one (branch after).value, (branch after).rest)
        | .error cause => (.broken cause, [])
      else if c.char = 'x' then match keyword ['x', 'c', 'r', 'i', 't'] (c :: s) with
        | .ok after => match numeral after with
          | .ok count => (.many count.value (branch count.rest).value, (branch count.rest).rest)
          | .error cause => (.broken cause, [])
        | .error cause => (.broken cause, [])
      else (.absent, c :: s) := by
  rw [crit]
  split
  · split <;> simp_all [Reading.pair]
  · split
    · split
      next after h =>
        simp only [h]
        cases numeral after <;> rfl
      next cause h => simp [h, Reading.pair]
    · rfl

theorem pair_save (c : Cell) (s : List Cell) :
    (save (c :: s)).pair =
      if c.char = 's' then match keyword ['s', 'a', 'v', 'e'] (c :: s) with
        | .ok after => (.one (branch after).value, (branch after).rest)
        | .error cause => (.broken cause, [])
      else (.absent, c :: s) := by
  rw [save]
  split
  · split <;> simp_all [Reading.pair]
  · rfl

theorem pair_primary? (c : Cell) (s : List Cell) :
    (primary? (c :: s)).map Reading.pair =
      if c.char = '(' then match keyword [')'] (expression s).rest with
        | .ok after => some (.group (expression s).value, after)
        | .error cause => some (.group (.broken (expression s).value cause), [])
      else if c.char = 'd' ∨ c.char = 'h' then (die? (c :: s)).map Reading.pair
      else if c.char = 'k' then match selector (c :: s) with
        | .ok r => match primary? r.rest with
          | some target => some (.keep r.value.1 r.value.2 target.value, target.rest)
          | none => some (.keep r.value.1 r.value.2 (.broken (.keepTarget c.position)), [])
        | .error cause => some (.broken cause, [])
      else match numeral (c :: s) with
        | .ok r => some (.number r.value, r.rest)
        | .error _ => none := by
  rw [primary?]
  split
  · cases expression s with
    | mk inner close h =>
      simp only
      split <;> simp_all [Reading.pair]
  · split
    · rfl
    · split
      · cases selector (c :: s) with
        | error cause => rfl
        | ok r =>
          obtain ⟨⟨direction, count⟩, after, h⟩ := r
          simp only
          cases primary? after <;> rfl
      · cases numeral (c :: s) <;> rfl

end DiceLaw.Notation
