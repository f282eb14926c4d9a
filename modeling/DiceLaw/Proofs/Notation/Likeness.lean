import DiceLaw.Proofs.Notation.Placement

/-! Trees of one shape, whose numerals and faults are related somehow. They evaluate alike: what is computed of two
related numerals is the same, and a fault of one tree is met as the related fault of the other. -/
namespace DiceLaw.Notation

/-- The numeral that starts at a cell. -/
def Numeral.front (c : Cell) (s : List Cell) : Numeral :=
  ⟨c.char :: (s.takeWhile Cell.isNumeric).map Cell.char, c.position⟩

/-- How two texts, their numerals and their faults are related, so that the reader stays in step. -/
structure Likeness where
  cells : List Cell → List Cell → Prop
  numerals : Numeral → Numeral → Prop
  faults : Fault → Fault → Prop
  nil : cells [] []
  eq_nil {t} : cells [] t → t = []
  /-- Numerals start together; anything else is the same character, and the cells behind it are related again. -/
  cons {c s t} : cells (c :: s) t → ∃ d t', t = d :: t' ∧ d.isNumeric = c.isNumeric ∧
    (c.isNumeric = false → d.char = c.char ∧ cells s t')
  front {c s d t} : cells (c :: s) (d :: t) → c.isNumeric → numerals (.front c s) (.front d t) ∧
    cells (s.dropWhile Cell.isNumeric) (t.dropWhile Cell.isNumeric)
  unexpected {s t} (e : Expected) : cells s t → faults (unexpected e s) (unexpected e t)
  keepTarget {c s d t} : cells (c :: s) (d :: t) → c.char = 'k' →
    faults (.keepTarget c.position) (.keepTarget d.position)

/-! ### Trees of one shape -/

section Trees
variable (L : Likeness)

mutual

/-- Trees that differ in their numerals and faults alone, which are related. -/
inductive Primary.Like : Primary → Primary → Prop where
  | number {m m'} : L.numerals m m' → Primary.Like (.number m) (.number m')
  | die {m m'} : L.numerals m m' → Primary.Like (.die m) (.die m')
  | halfDie {m m'} : L.numerals m m' → Primary.Like (.halfDie m) (.halfDie m')
  | keep {direction m m' p p'} : L.numerals m m' → Primary.Like p p' →
      Primary.Like (.keep direction m p) (.keep direction m' p')
  | group {e e'} : Expression.Like e e' → Primary.Like (.group e) (.group e')
  | broken {cause cause'} : L.faults cause cause' → Primary.Like (.broken cause) (.broken cause')

inductive Term.Like : Term → Term → Prop where
  | one {p p'} : Primary.Like p p' → Term.Like (.one p) (.one p')
  | copies {t t' p p'} : Term.Like t t' → Primary.Like p p' → Term.Like (.copies t p) (.copies t' p')

inductive Branch.Like : Branch → Branch → Prop where
  | whole : Branch.Like .whole .whole
  | half : Branch.Like .half .half
  | own {t t'} : Term.Like t t' → Branch.Like (.own t) (.own t')

inductive Crit.Like : Crit → Crit → Prop where
  | absent : Crit.Like .absent .absent
  | one {b b'} : Branch.Like b b' → Crit.Like (.one b) (.one b')
  | many {m m' b b'} : L.numerals m m' → Branch.Like b b' → Crit.Like (.many m b) (.many m' b')
  | broken {cause cause'} : L.faults cause cause' → Crit.Like (.broken cause) (.broken cause')

inductive Save.Like : Save → Save → Prop where
  | absent : Save.Like .absent .absent
  | one {b b'} : Branch.Like b b' → Save.Like (.one b) (.one b')
  | broken {cause cause'} : L.faults cause cause' → Save.Like (.broken cause) (.broken cause')

inductive Argument.Like : Argument → Argument → Prop where
  | itself : Argument.Like .itself .itself
  | own {t t'} : Term.Like t t' → Argument.Like (.own t) (.own t')

inductive Expression.Like : Expression → Expression → Prop where
  | term {t t'} : Term.Like t t' → Expression.Like (.term t) (.term t')
  | apply {left left' op a a' halved c c' b b'} : Expression.Like left left' → Argument.Like a a' →
      Crit.Like c c' → Save.Like b b' →
      Expression.Like (.apply left op a halved c b) (.apply left' op a' halved c' b')
  | broken {left left' cause cause'} : Expression.Like left left' → L.faults cause cause' →
      Expression.Like (.broken left cause) (.broken left' cause')

end
end Trees

/-- Related numerals come to the same, each with its number for `n`, and a fault that tells no place is related to
itself. -/
structure Likeness.Agrees (L : Likeness) (n n' : Int64) : Prop where
  value {m m' : Numeral} : L.numerals m m' → Parallel L.faults Eq (m.value n) (m'.value n')
  placeless {cause : Fault} : cause.place? = none → L.faults cause cause

/-! ### Evaluation -/

section Evaluation
variable {L : Likeness} {n n' : Int64}

theorem Likeness.Agrees.lift_like (h : L.Agrees n n') {α : Type} (r : Except Distribution.Fault α) :
    Parallel L.faults Eq (lift r) (lift r) := by
  cases r with
  | ok a => exact .ok rfl
  | error cause => exact .error (h.placeless rfl)

theorem Likeness.Agrees.deeper_like (h : L.Agrees n n') (limits : Limits) (depth : Nat) :
    Parallel L.faults Eq (deeper ⟨limits, n⟩ depth) (deeper ⟨limits, n'⟩ depth) := by
  simp only [deeper]
  split
  · exact .error (h.placeless rfl)
  · exact .ok rfl

theorem Likeness.Agrees.count_like (h : L.Agrees n n') {m m' : Numeral} (hm : L.numerals m m') (what : Counted)
    (most : UInt32) : Parallel L.faults Eq (m.count what most n) (m'.count what most n') := by
  refine (h.value hm).bind_eq fun v => ?_
  split
  · exact .error (h.placeless rfl)
  · exact .ok rfl

variable {W : Type} [Weight W] {limits : Limits}

mutual

theorem Primary.eval_like (h : L.Agrees n n') : ∀ (p : Primary) {p' : Primary} (depth : Nat), p.Like L p' →
    Parallel L.faults Eq (p.eval (W := W) ⟨limits, n⟩ depth) (p'.eval ⟨limits, n'⟩ depth)
  | .number _, _, _, .number hm => by
    rw [Primary.eval, Primary.eval]
    exact (h.value hm).bind_eq fun _ => .ok rfl
  | .die _, _, _, .die hm => by
    rw [Primary.eval, Primary.eval]
    exact (h.count_like hm ..).bind_eq fun _ => .ok rfl
  | .halfDie _, _, _, .halfDie hm => by
    rw [Primary.eval, Primary.eval]
    exact (h.count_like hm ..).bind_eq fun _ => .ok rfl
  | .keep _ _ p, _, depth, .keep hm hp => by
    rw [Primary.eval, Primary.eval]
    exact (h.count_like hm ..).bind_eq fun _ => (h.deeper_like limits depth).bind_eq fun inner =>
      (p.eval_like h inner hp).bind_eq fun _ => .ok rfl
  | .group e, _, depth, .group he => by
    rw [Primary.eval, Primary.eval]
    exact (h.deeper_like limits depth).bind_eq fun level => e.eval_like h level he
  | .broken _, _, _, .broken hcause => by
    rw [Primary.eval, Primary.eval]
    exact .error hcause

theorem Term.eval_like (h : L.Agrees n n') : ∀ (t : Term) {t' : Term} (depth : Nat), t.Like L t' →
    Parallel L.faults Eq (t.eval (W := W) ⟨limits, n⟩ depth) (t'.eval ⟨limits, n'⟩ depth)
  | .one p, _, depth, .one hp => by
    rw [Term.eval, Term.eval]
    exact p.eval_like h depth hp
  | .copies t p, _, depth, .copies ht hp => by
    rw [Term.eval, Term.eval]
    exact (t.eval_like h depth ht).bind_eq fun _ => (p.eval_like h depth hp).bind_eq fun _ => h.lift_like _

theorem Branch.eval_like (h : L.Agrees n n') :
    ∀ (b : Branch) {b' : Branch} (depth : Nat) (main : Distribution W), b.Like L b' →
    Parallel L.faults Eq (b.eval ⟨limits, n⟩ depth main) (b'.eval ⟨limits, n'⟩ depth main)
  | .whole, _, _, _, .whole => by
    rw [Branch.eval, Branch.eval]
    exact .ok rfl
  | .half, _, _, _, .half => by
    rw [Branch.eval, Branch.eval]
    exact h.lift_like _
  | .own t, _, depth, _, .own ht => by
    rw [Branch.eval, Branch.eval]
    exact t.eval_like h depth ht

theorem Crit.eval_like (h : L.Agrees n n') :
    ∀ (c : Crit) {c' : Crit} (depth : Nat) (main current : Distribution W), c.Like L c' →
    Parallel L.faults Eq (c.eval ⟨limits, n⟩ depth main current) (c'.eval ⟨limits, n'⟩ depth main current)
  | .absent, _, _, _, _, .absent => by
    rw [Crit.eval, Crit.eval]
    exact .ok rfl
  | .one b, _, depth, main, _, .one hb => by
    rw [Crit.eval, Crit.eval]
    exact (h.lift_like _).bind_eq fun _ => (b.eval_like h depth main hb).bind_eq fun _ => .ok rfl
  | .many _ b, _, depth, main, _, .many hm hb => by
    rw [Crit.eval, Crit.eval]
    exact (h.count_like hm ..).bind_eq fun _ => (h.lift_like _).bind_eq fun _ =>
      (b.eval_like h depth main hb).bind_eq fun _ => .ok rfl
  | .broken _, _, _, _, _, .broken hcause => by
    rw [Crit.eval, Crit.eval]
    exact .error hcause

theorem Save.eval_like (h : L.Agrees n n') :
    ∀ (c : Save) {c' : Save} (depth : Nat) (main current : Distribution W), c.Like L c' →
    Parallel L.faults Eq (c.eval ⟨limits, n⟩ depth main current) (c'.eval ⟨limits, n'⟩ depth main current)
  | .absent, _, _, _, _, .absent => by
    rw [Save.eval, Save.eval]
    exact .ok rfl
  | .one b, _, depth, main, _, .one hb => by
    rw [Save.eval, Save.eval]
    exact (h.lift_like _).bind_eq fun _ => (b.eval_like h depth main hb).bind_eq fun _ => .ok rfl
  | .broken _, _, _, _, _, .broken hcause => by
    rw [Save.eval, Save.eval]
    exact .error hcause

theorem Argument.eval_like (h : L.Agrees n n') :
    ∀ (a : Argument) {a' : Argument} (depth : Nat) (current : Distribution W),
    a.Like L a' → Parallel L.faults Eq (a.eval ⟨limits, n⟩ depth current) (a'.eval ⟨limits, n'⟩ depth current)
  | .itself, _, _, _, .itself => by
    rw [Argument.eval, Argument.eval]
    exact .ok rfl
  | .own t, _, depth, _, .own ht => by
    rw [Argument.eval, Argument.eval]
    exact t.eval_like h depth ht

/-- Like trees have the same distribution or related faults. -/
theorem Expression.eval_like (h : L.Agrees n n') : ∀ (e : Expression) {e' : Expression} (depth : Nat), e.Like L e' →
    Parallel L.faults Eq (e.eval (W := W) ⟨limits, n⟩ depth) (e'.eval ⟨limits, n'⟩ depth)
  | .term t, _, depth, .term ht => by
    rw [Expression.eval, Expression.eval]
    exact t.eval_like h depth ht
  | .apply left op argument halved crit save, _, depth, .apply hleft hargument hcrit hsave => by
    rw [Expression.eval_apply, Expression.eval_apply]
    exact (left.eval_like h depth hleft).bind_eq fun current =>
      (argument.eval_like h depth current hargument).bind_eq fun whole =>
        (h.lift_like (mainArgument halved whole)).bind_eq fun main =>
          (crit.eval_like h depth main current hcrit).bind_eq fun top =>
            (save.eval_like h depth main top.2 hsave).bind_eq fun bottom => h.lift_like _
  | .broken left _, _, depth, .broken hleft hcause => by
    rw [Expression.eval, Expression.eval]
    exact (left.eval_like h depth hleft).bind_eq fun _ => .error hcause

end

end Evaluation
end DiceLaw.Notation
