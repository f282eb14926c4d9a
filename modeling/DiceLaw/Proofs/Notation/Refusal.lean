import DiceLaw.Notation.Evaluation
import DiceLaw.Proofs.Results

/-! Stricter limits. A limit is only ever compared with, so that under a stricter one a text is answered as
before or refused for that limit; no limit shows in a distribution, nor in any other fault. -/
namespace DiceLaw

/-- No limit is larger. -/
structure Limits.Within (strict wide : Limits) : Prop where
  maxDepth : strict.maxDepth ≤ wide.maxDepth
  maxRepeat : strict.maxRepeat ≤ wide.maxRepeat
  maxSides : strict.maxSides ≤ wide.maxSides
  maxKeepCombinations : strict.maxKeepCombinations ≤ wide.maxKeepCombinations

/-- One computation does as another, unless it is refused. -/
def Tightens {ε α : Type} (refused : ε → Prop) (strict wide : Except ε α) : Prop :=
  strict = wide ∨ ∃ cause, strict = .error cause ∧ refused cause

namespace Tightens
variable {ε α β : Type} {refused : ε → Prop}

theorem refl (x : Except ε α) : Tightens refused x x := .inl rfl

theorem refuse {cause : ε} (h : refused cause) (y : Except ε α) : Tightens refused (.error cause) y :=
  .inr ⟨cause, rfl, h⟩

theorem bind {x y : Except ε α} {f g : α → Except ε β} (h : Tightens refused x y)
    (hk : ∀ a, Tightens refused (f a) (g a)) : Tightens refused (x >>= f) (y >>= g) := by
  rcases h with rfl | ⟨cause, rfl, hc⟩
  · cases x with
    | error cause => exact refl _
    | ok a => exact hk a
  · exact refuse hc _

theorem mapM {f g : α → Except ε β} (h : ∀ a, Tightens refused (f a) (g a)) (l : List α) :
    Tightens refused (l.mapM f) (l.mapM g) := by
  induction l with
  | nil => exact refl _
  | cons a l ih =>
    rw [List.mapM_cons, List.mapM_cons]
    exact (h a).bind fun b => ih.bind fun bs => refl _

end Tightens

/-! ### Repetition -/

namespace Distribution
variable {W : Type} [Weight W]

/-- The faults by which limits refuse to roll so many dice. -/
inductive Fault.RefusedBy (limits : Limits) : Fault → Prop where
  | diceCount : RefusedBy limits (.limitExceeded .diceCount limits.maxRepeat.toNat)
  | keepCombinations : RefusedBy limits (.limitExceeded .keepCombinations limits.maxKeepCombinations.toNat)

variable {strict wide : Limits} (h : strict.Within wide)
include h

theorem keepOfCopies_tightens (count : Nat) (die : Distribution W) (k : Keep) :
    Tightens (Fault.RefusedBy strict) (keepOfCopies count die k strict.maxKeepCombinations)
      (keepOfCopies count die k wide.maxKeepCombinations) := by
  have hle := UInt64.le_iff_toNat_le.mp h.maxKeepCombinations
  rw [keepOfCopies, keepOfCopies]
  split
  next => exact .refuse .keepCombinations _
  next hfew =>
    have hfew' : ¬ tooManyCombinations die.numbers.length count wide.maxKeepCombinations = true := by
      rw [tooManyCombinations_iff] at hfew ⊢
      omega
    rw [if_neg hfew']
    exact .refl _

theorem copies_tightens (die : Distribution W) (count : Int64) :
    Tightens (Fault.RefusedBy strict) (copies strict die count) (copies wide die count) := by
  have hle := UInt32.le_iff_toNat_le.mp h.maxRepeat
  rw [copies, copies]
  split
  next => exact .refl _
  next =>
    split
    next => exact .refuse .diceCount _
    next hfew =>
      rw [if_neg (by omega)]
      cases die.keep? with
      | none => exact .refl _
      | some k => exact keepOfCopies_tightens h ..

/-- The counts are met in the same order, and the first that the stricter limits refuse ends the computation. -/
theorem repeated_tightens (counts die : Distribution W) :
    Tightens (Fault.RefusedBy strict) (repeated strict counts die) (repeated wide counts die) := by
  rw [repeated, repeated]
  refine Tightens.bind (Tightens.mapM (fun e => ?_) _) fun _ => .refl _
  exact (copies_tightens h die e.1).bind fun _ => .refl _

end Distribution

namespace Notation
variable {W : Type} [Weight W]

/-- The faults by which limits refuse a text. -/
inductive Fault.RefusedBy (limits : Limits) : Fault → Prop where
  | nesting : RefusedBy limits (.nestingTooDeep limits.maxDepth.toNat)
  | dieSize {v : Int64} : limits.maxSides.toNat < v.toInt → RefusedBy limits (.invalidCount .dieSize v)
  | distribution {cause : Distribution.Fault} : cause.RefusedBy limits → RefusedBy limits (.distribution cause)

/-! ### Trees -/

section Trees
variable {strict wide : Limits}

theorem lift_tightens {α : Type} {x y : Except Distribution.Fault α}
    (h : Tightens (Distribution.Fault.RefusedBy strict) x y) :
    Tightens (Fault.RefusedBy strict) (lift x) (lift y) := by
  rcases h with rfl | ⟨cause, rfl, hc⟩
  · exact .refl _
  · exact .refuse (.distribution hc) _

section Leaves
variable (h : strict.Within wide)
include h

theorem deeper_tightens (n : Int64) (depth : Nat) :
    Tightens (Fault.RefusedBy strict) (deeper ⟨strict, n⟩ depth) (deeper ⟨wide, n⟩ depth) := by
  have hle := UInt64.le_iff_toNat_le.mp h.maxDepth
  simp only [deeper]
  split
  next => exact .refuse .nesting _
  next hfew =>
    rw [if_neg (by omega)]
    exact .refl _

/-- A size below zero is invalid whatever the limits. -/
theorem Numeral.count_tightens (n : Int64) (m : Numeral) :
    Tightens (Fault.RefusedBy strict) (m.count .dieSize strict.maxSides n) (m.count .dieSize wide.maxSides n) := by
  have hle := UInt32.le_iff_toNat_le.mp h.maxSides
  refine (Tightens.refl _).bind fun v => ?_
  by_cases hneg : v < 0
  · simp only [hneg, decide_true, Bool.true_or, if_true]
    exact .refl _
  · simp only [hneg, decide_false, Bool.false_or, decide_eq_true_eq]
    split
    next hmost => exact .refuse (.dieSize (by omega)) _
    next hmost =>
      rw [if_neg (by omega)]
      exact .refl _

end Leaves

mutual

theorem Primary.eval_tightens (h : strict.Within wide) (n : Int64) : ∀ (p : Primary) (depth : Nat),
    Tightens (Fault.RefusedBy strict) (p.eval (W := W) ⟨strict, n⟩ depth) (p.eval ⟨wide, n⟩ depth)
  | .number m, depth => by
    rw [Primary.eval, Primary.eval]
    exact .refl _
  | .die m, depth => by
    rw [Primary.eval, Primary.eval]
    exact (m.count_tightens h n).bind fun _ => .refl _
  | .halfDie m, depth => by
    rw [Primary.eval, Primary.eval]
    exact (m.count_tightens h n).bind fun _ => .refl _
  | .keep direction m p, depth => by
    rw [Primary.eval, Primary.eval]
    exact (Tightens.refl _).bind fun _ => (deeper_tightens h n depth).bind fun inner =>
      (p.eval_tightens h n inner).bind fun _ => .refl _
  | .group e, depth => by
    rw [Primary.eval, Primary.eval]
    exact (deeper_tightens h n depth).bind fun level => e.eval_tightens h n level
  | .broken cause, depth => by
    rw [Primary.eval, Primary.eval]
    exact .refl _

theorem Term.eval_tightens (h : strict.Within wide) (n : Int64) : ∀ (t : Term) (depth : Nat),
    Tightens (Fault.RefusedBy strict) (t.eval (W := W) ⟨strict, n⟩ depth) (t.eval ⟨wide, n⟩ depth)
  | .one p, depth => by
    rw [Term.eval, Term.eval]
    exact p.eval_tightens h n depth
  | .copies t p, depth => by
    rw [Term.eval, Term.eval]
    exact (t.eval_tightens h n depth).bind fun c => (p.eval_tightens h n depth).bind fun d =>
      lift_tightens (Distribution.repeated_tightens h c d)

theorem Branch.eval_tightens (h : strict.Within wide) (n : Int64) :
    ∀ (b : Branch) (depth : Nat) (main : Distribution W),
      Tightens (Fault.RefusedBy strict) (b.eval ⟨strict, n⟩ depth main) (b.eval ⟨wide, n⟩ depth main)
  | .whole, depth, main => by
    rw [Branch.eval, Branch.eval]
    exact .refl _
  | .half, depth, main => by
    rw [Branch.eval, Branch.eval]
    exact .refl _
  | .own t, depth, main => by
    rw [Branch.eval, Branch.eval]
    exact t.eval_tightens h n depth

theorem Crit.eval_tightens (h : strict.Within wide) (n : Int64) :
    ∀ (c : Crit) (depth : Nat) (main current : Distribution W),
      Tightens (Fault.RefusedBy strict) (c.eval ⟨strict, n⟩ depth main current) (c.eval ⟨wide, n⟩ depth main current)
  | .absent, depth, main, current => by
    rw [Crit.eval, Crit.eval]
    exact .refl _
  | .one b, depth, main, current => by
    rw [Crit.eval, Crit.eval]
    exact (Tightens.refl _).bind fun _ => (b.eval_tightens h n depth main).bind fun _ => .refl _
  | .many m b, depth, main, current => by
    rw [Crit.eval, Crit.eval]
    exact (Tightens.refl _).bind fun _ => (Tightens.refl _).bind fun _ =>
      (b.eval_tightens h n depth main).bind fun _ => .refl _
  | .broken cause, depth, main, current => by
    rw [Crit.eval, Crit.eval]
    exact .refl _

theorem Save.eval_tightens (h : strict.Within wide) (n : Int64) :
    ∀ (c : Save) (depth : Nat) (main current : Distribution W),
      Tightens (Fault.RefusedBy strict) (c.eval ⟨strict, n⟩ depth main current) (c.eval ⟨wide, n⟩ depth main current)
  | .absent, depth, main, current => by
    rw [Save.eval, Save.eval]
    exact .refl _
  | .one b, depth, main, current => by
    rw [Save.eval, Save.eval]
    exact (Tightens.refl _).bind fun _ => (b.eval_tightens h n depth main).bind fun _ => .refl _
  | .broken cause, depth, main, current => by
    rw [Save.eval, Save.eval]
    exact .refl _

theorem Argument.eval_tightens (h : strict.Within wide) (n : Int64) :
    ∀ (a : Argument) (depth : Nat) (current : Distribution W),
      Tightens (Fault.RefusedBy strict) (a.eval ⟨strict, n⟩ depth current) (a.eval ⟨wide, n⟩ depth current)
  | .itself, depth, current => by
    rw [Argument.eval, Argument.eval]
    exact .refl _
  | .own t, depth, current => by
    rw [Argument.eval, Argument.eval]
    exact t.eval_tightens h n depth

theorem Expression.eval_tightens (h : strict.Within wide) (n : Int64) : ∀ (e : Expression) (depth : Nat),
    Tightens (Fault.RefusedBy strict) (e.eval (W := W) ⟨strict, n⟩ depth) (e.eval ⟨wide, n⟩ depth)
  | .term t, depth => by
    rw [Expression.eval, Expression.eval]
    exact t.eval_tightens h n depth
  | .apply left op argument halved crit save, depth => by
    rw [Expression.eval, Expression.eval]
    refine (left.eval_tightens h n depth).bind fun current => (argument.eval_tightens h n depth current).bind
      fun whole => ?_
    -- Both ways to the main argument go on alike.
    have hparts (main : Distribution W) := (crit.eval_tightens h n depth main current).bind fun top =>
      (save.eval_tightens h n depth main top.2).bind fun bottom =>
        Tightens.refl (lift (applyParts op ⟨bottom.2, main⟩ (top.1 ++ bottom.1)))
    cases halved with
    | true => exact (Tightens.refl _).bind hparts
    | false => exact hparts whole
  | .broken left cause, depth => by
    rw [Expression.eval, Expression.eval]
    exact (left.eval_tightens h n depth).bind fun _ => .refl _

end
end Trees

/-- Under stricter limits a text has the same distribution, with the same note, or the same fault, unless one of
those limits refuses it. What is not refused is therefore the same under all wider limits. -/
theorem evaluate_within_limits {strict wide : Limits} (h : strict.Within wide) (n : Int64) (text : String) :
    (evaluate (W := W) ⟨strict, n⟩ text = evaluate ⟨wide, n⟩ text ∨
      ∃ cause : Fault, evaluate (W := W) ⟨strict, n⟩ text = .error cause ∧ cause.RefusedBy strict) ∧
    ∀ d : Distribution W, evaluate ⟨strict, n⟩ text = .ok d → evaluate ⟨wide, n⟩ text = .ok d := by
  have htightens : Tightens (Fault.RefusedBy strict) (evaluate (W := W) ⟨strict, n⟩ text) (evaluate ⟨wide, n⟩ text) :=
    (Expression.ofText text).eval_tightens h n 0
  refine ⟨htightens, ?_⟩
  intro d hd
  rcases htightens with he | ⟨cause, hc, -⟩
  · rw [← he, hd]
  · rw [hd] at hc
    cases hc

/-- Of two or three dice, where only two are allowed, the three are refused; two alone are as they ever were. -/
theorem evaluate_within_limits_two_dice :
    Limits.Within { maxRepeat := 2 } {} ∧
    (∃ cause : Fault, evaluate (W := Rat) ⟨{ maxRepeat := 2 }, 0⟩ "(2 & 3)d2" = .error cause ∧
      cause.RefusedBy { maxRepeat := 2 }) ∧
    ∃ d : Distribution Rat, evaluate ⟨{ maxRepeat := 2 }, 0⟩ "2d2" = .ok d ∧ evaluate ⟨{}, 0⟩ "2d2" = .ok d := by
  have hwithin : Limits.Within { maxRepeat := 2 } {} := ⟨by decide, by decide, by decide, by decide⟩
  refine ⟨hwithin, ?_, ?_⟩
  · obtain ⟨he | hrefused, -⟩ := evaluate_within_limits (W := Rat) hwithin 0 "(2 & 3)d2"
    · have hdiffer : (evaluate (W := Rat) ⟨{ maxRepeat := 2 }, 0⟩ "(2 & 3)d2").toOption.isSome ≠
          (evaluate (W := Rat) ⟨{}, 0⟩ "(2 & 3)d2").toOption.isSome := by decide +kernel
      exact absurd (by rw [he]) hdiffer
    · exact hrefused
  · obtain ⟨d, hd⟩ := Option.isSome_iff_exists.mp
      (show (evaluate (W := Rat) ⟨{ maxRepeat := 2 }, 0⟩ "2d2").toOption.isSome = true by decide +kernel)
    have hd := toOption_eq_some.mp hd
    exact ⟨d, hd, (evaluate_within_limits hwithin 0 "2d2").2 d hd⟩

end Notation
end DiceLaw
