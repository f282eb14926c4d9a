import DiceLaw.Proofs.Notation.Grammar
import DiceLaw.Proofs.Results

/-! Computing a tree is reading off its meaning, within the limit on nesting. Faults decide no more than
that there is no distribution, so the order in which parts are computed does not show in a success. -/
namespace DiceLaw.Notation
variable {W : Type} [Weight W]

theorem lift_eq_ok {α : Type} {x : Except Distribution.Fault α} {a : α} : lift x = .ok a ↔ x = .ok a := by
  cases x with
  | error e =>
    constructor
    · rintro ⟨⟩
    · rintro ⟨⟩
  | ok b =>
    constructor
    · rintro ⟨⟩
      rfl
    · rintro ⟨⟩
      rfl

/-! ### Numerals -/

theorem Numeral.value_eq_ok {n : Int64} {m : Numeral} {v : Int64} :
    m.value n = .ok v ↔ m.number? n = some v := by
  unfold Numeral.value Numeral.number?
  cases Text.readInt64? (m.text n) <;> simp

theorem Numeral.count_eq_ok {what : Counted} {most : UInt32} {n : Int64} {m : Numeral} {k : Nat} :
    m.count what most n = .ok k ↔ m.upTo? most.toNat n = some k := by
  unfold Numeral.count Numeral.upTo?
  rw [bind_eq_ok, Option.bind_eq_bind, Option.bind_eq_some_iff]
  refine exists_congr fun v => and_congr Numeral.value_eq_ok ?_
  have hv : (v < 0 || most.toNat < v.toInt.toNat) = true ↔ ¬ (0 ≤ v.toInt ∧ v.toInt ≤ (most.toNat : Int)) := by
    simp only [Bool.or_eq_true, decide_eq_true_eq, Int64.lt_iff_toInt_lt, Int64.toInt_zero]
    omega
  by_cases h : 0 ≤ v.toInt ∧ v.toInt ≤ (most.toNat : Int)
  · rw [if_neg (fun hb => hv.mp hb h), if_pos h, pure_eq_ok, Option.some_inj]
  · rw [if_pos (hv.mpr h), if_neg h]
    simp

theorem deeper_eq_ok {s : Setting} {depth level : Nat} :
    deeper s depth = .ok level ↔ depth + 1 ≤ s.limits.maxDepth.toNat ∧ depth + 1 = level := by
  unfold deeper
  split
  · simp; omega
  · simp; omega

/-! ### Carving -/

theorem carveCrit_some {current argument : Distribution W} {count : Nat} {out : List (Part W) × Distribution W} :
    carveCrit current (some (count, argument)) = .ok out ↔
      ∃ p, carveTop count current = .ok p ∧ ([⟨p.1, argument⟩], p.2) = out := by
  simp only [carveCrit, bind_eq_ok, pure_eq_ok]

theorem carveSave_some {current argument : Distribution W} {out : List (Part W) × Distribution W} :
    carveSave current (some argument) = .ok out ↔
      ∃ p, carveBottom current = .ok p ∧ ([⟨p.1, argument⟩], p.2) = out := by
  simp only [carveSave, bind_eq_ok, pure_eq_ok]

theorem operate_eq_ok {op : Operator} {current main d : Distribution W} {crit : Option (Nat × Distribution W)}
    {save : Option (Distribution W)} :
    operate op current main crit save = .ok d ↔
      ∃ top, carveCrit current crit = .ok top ∧ ∃ bottom, carveSave top.2 save = .ok bottom ∧
        applyParts op ⟨bottom.2, main⟩ (top.1 ++ bottom.1) = .ok d := by
  simp only [operate, carve, bind_eq_ok, pure_eq_ok]
  constructor
  · intro h
    obtain ⟨_, ⟨top, ht, bottom, hb, rfl⟩, h⟩ := h
    exact ⟨top, ht, bottom, hb, h⟩
  · intro h
    obtain ⟨top, ht, bottom, hb, h⟩ := h
    exact ⟨_, ⟨top, ht, bottom, hb, rfl⟩, h⟩

/-! ### Trees -/

/-- The parts of an application in the order they are computed in. -/
theorem Expression.eval_apply (s : Setting) (depth : Nat) (left : Expression) (op : Operator) (argument : Argument)
    (halved : Bool) (crit : Crit) (save : Save) :
    (Expression.apply left op argument halved crit save).eval s depth = (do
      let current ← left.eval s depth
      let whole ← argument.eval s depth current
      let main : Distribution W ← lift (mainArgument halved whole)
      let top ← crit.eval s depth main current
      let bottom ← save.eval s depth main top.2
      lift (applyParts op ⟨bottom.2, main⟩ (top.1 ++ bottom.1))) := by
  rw [Expression.eval]
  cases halved <;> rfl

theorem Expression.eval_apply_eq_ok {s : Setting} {depth : Nat} {left : Expression} {op : Operator}
    {argument : Argument} {halved : Bool} {crit : Crit} {save : Save} {d : Distribution W} :
    (Expression.apply left op argument halved crit save).eval s depth = .ok d ↔
      ∃ current, left.eval s depth = .ok current ∧ ∃ whole, argument.eval s depth current = .ok whole ∧
        ∃ main, mainArgument halved whole = .ok main ∧ ∃ top, crit.eval s depth main current = .ok top ∧
          ∃ bottom, save.eval s depth main top.2 = .ok bottom ∧
            applyParts op ⟨bottom.2, main⟩ (top.1 ++ bottom.1) = .ok d := by
  simp only [Expression.eval_apply, bind_eq_ok, lift_eq_ok]

mutual

theorem Primary.eval_eq_ok {s : Setting} : ∀ (p : Primary) {depth : Nat} {d : Distribution W},
    depth ≤ s.limits.maxDepth.toNat → (p.eval s depth = .ok d ↔
      depth + p.nesting ≤ s.limits.maxDepth.toNat ∧ p.denotation s = some d)
  | .number m, depth, d, hd => by
    simp only [Primary.eval, Primary.nesting, Primary.denotation, bind_eq_ok, pure_eq_ok,
      Numeral.value_eq_ok, Option.bind_eq_bind, Option.bind_eq_some_iff, Option.some_inj, Nat.add_zero, hd,
      true_and]
  | .die m, depth, d, hd => by
    simp only [Primary.eval, Primary.nesting, Primary.denotation, bind_eq_ok, pure_eq_ok,
      Numeral.count_eq_ok, Option.bind_eq_bind, Option.bind_eq_some_iff, Option.some_inj, Nat.add_zero, hd,
      true_and]
  | .halfDie m, depth, d, hd => by
    simp only [Primary.eval, Primary.nesting, Primary.denotation, bind_eq_ok, pure_eq_ok,
      Numeral.count_eq_ok, Option.bind_eq_bind, Option.bind_eq_some_iff, Option.some_inj, Nat.add_zero, hd,
      true_and]
  | .keep direction m p, depth, d, hd => by
    simp only [Primary.eval, Primary.nesting, Primary.denotation, bind_eq_ok, pure_eq_ok,
      Numeral.count_eq_ok, deeper_eq_ok, Option.bind_eq_bind, Option.bind_eq_some_iff, Option.some_inj]
    constructor
    · intro h
      obtain ⟨k, hk, _, ⟨hl, rfl⟩, inner, hp, h⟩ := h
      obtain ⟨hn, hp⟩ := (p.eval_eq_ok hl).mp hp
      exact ⟨by omega, k, hk, inner, hp, h⟩
    · intro h
      obtain ⟨hn, k, hk, inner, hp, h⟩ := h
      have hl : depth + 1 ≤ s.limits.maxDepth.toNat := by omega
      exact ⟨k, hk, _, ⟨hl, rfl⟩, inner, (p.eval_eq_ok hl).mpr ⟨by omega, hp⟩, h⟩
  | .group e, depth, d, hd => by
    simp only [Primary.eval, Primary.nesting, Primary.denotation, bind_eq_ok, deeper_eq_ok]
    constructor
    · intro hok
      obtain ⟨_, ⟨hl, rfl⟩, he⟩ := hok
      obtain ⟨hn, he⟩ := (e.eval_eq_ok hl).mp he
      exact ⟨by omega, he⟩
    · intro hok
      obtain ⟨hn, he⟩ := hok
      have hl : depth + 1 ≤ s.limits.maxDepth.toNat := by omega
      exact ⟨_, ⟨hl, rfl⟩, (e.eval_eq_ok hl).mpr ⟨by omega, he⟩⟩
  | .broken cause, depth, d, hd => by simp [Primary.eval, Primary.denotation]

theorem Term.eval_eq_ok {s : Setting} : ∀ (t : Term) {depth : Nat} {d : Distribution W},
    depth ≤ s.limits.maxDepth.toNat → (t.eval s depth = .ok d ↔
      depth + t.nesting ≤ s.limits.maxDepth.toNat ∧ t.denotation s = some d)
  | .one p, depth, d, hd => by
    rw [Term.eval, Term.nesting, Term.denotation]
    exact p.eval_eq_ok hd
  | .copies t p, depth, d, hd => by
    simp only [Term.eval, Term.nesting, Term.denotation, bind_eq_ok, lift_eq_ok, Option.bind_eq_bind,
      Option.bind_eq_some_iff, toOption_eq_some, t.eval_eq_ok hd, p.eval_eq_ok hd]
    constructor
    · intro h
      obtain ⟨c, ⟨hnc, hc⟩, die, ⟨hnd, hdie⟩, h⟩ := h
      exact ⟨by omega, c, hc, die, hdie, h⟩
    · intro h
      obtain ⟨hn, c, hc, die, hdie, h⟩ := h
      exact ⟨c, ⟨by omega, hc⟩, die, ⟨by omega, hdie⟩, h⟩

theorem Branch.eval_eq_ok {s : Setting} : ∀ (b : Branch) {depth : Nat} {main d : Distribution W},
    depth ≤ s.limits.maxDepth.toNat → (b.eval s depth main = .ok d ↔
      depth + b.nesting ≤ s.limits.maxDepth.toNat ∧ b.denotation s main = some d)
  | .whole, depth, main, d, hd => by simp [Branch.eval, Branch.nesting, Branch.denotation, hd]
  | .half, depth, main, d, hd => by
    simp [Branch.eval, Branch.nesting, Branch.denotation, lift_eq_ok, toOption_eq_some, hd]
  | .own t, depth, main, d, hd => by
    rw [Branch.eval, Branch.nesting, Branch.denotation]
    exact t.eval_eq_ok hd

theorem Crit.eval_eq_ok {s : Setting} : ∀ (c : Crit) {depth : Nat} {main current : Distribution W}
    {out : List (Part W) × Distribution W}, depth ≤ s.limits.maxDepth.toNat →
    (c.eval s depth main current = .ok out ↔ depth + c.nesting ≤ s.limits.maxDepth.toNat ∧
      ∃ top, c.denotation s main = some top ∧ carveCrit current top = .ok out)
  | .absent, depth, main, current, out, hd => by
    simp [Crit.eval, Crit.nesting, Crit.denotation, carveCrit, hd]
  | .one b, depth, main, current, out, hd => by
    simp only [Crit.eval, Crit.nesting, Crit.denotation, bind_eq_ok, pure_eq_ok, lift_eq_ok,
      b.eval_eq_ok hd, Option.bind_eq_bind, Option.bind_eq_some_iff, Option.some_inj]
    constructor
    · intro h
      obtain ⟨p, hp, argument, ⟨hn, ha⟩, h⟩ := h
      exact ⟨hn, _, ⟨argument, ha, rfl⟩, carveCrit_some.mpr ⟨p, hp, h⟩⟩
    · intro h
      obtain ⟨hn, _, ⟨argument, ha, rfl⟩, h⟩ := h
      obtain ⟨p, hp, h⟩ := carveCrit_some.mp h
      exact ⟨p, hp, argument, ⟨hn, ha⟩, h⟩
  | .many m b, depth, main, current, out, hd => by
    simp only [Crit.eval, Crit.nesting, Crit.denotation, bind_eq_ok, pure_eq_ok, lift_eq_ok,
      Numeral.count_eq_ok, b.eval_eq_ok hd, Option.bind_eq_bind, Option.bind_eq_some_iff, Option.some_inj]
    constructor
    · intro h
      obtain ⟨k, hk, p, hp, argument, ⟨hn, ha⟩, h⟩ := h
      exact ⟨hn, _, ⟨k, hk, argument, ha, rfl⟩, carveCrit_some.mpr ⟨p, hp, h⟩⟩
    · intro h
      obtain ⟨hn, _, ⟨k, hk, argument, ha, rfl⟩, h⟩ := h
      obtain ⟨p, hp, h⟩ := carveCrit_some.mp h
      exact ⟨k, hk, p, hp, argument, ⟨hn, ha⟩, h⟩
  | .broken cause, depth, main, current, out, hd => by simp [Crit.eval, Crit.denotation]

theorem Save.eval_eq_ok {s : Setting} : ∀ (c : Save) {depth : Nat} {main current : Distribution W}
    {out : List (Part W) × Distribution W}, depth ≤ s.limits.maxDepth.toNat →
    (c.eval s depth main current = .ok out ↔ depth + c.nesting ≤ s.limits.maxDepth.toNat ∧
      ∃ bottom, c.denotation s main = some bottom ∧ carveSave current bottom = .ok out)
  | .absent, depth, main, current, out, hd => by
    simp [Save.eval, Save.nesting, Save.denotation, carveSave, hd]
  | .one b, depth, main, current, out, hd => by
    simp only [Save.eval, Save.nesting, Save.denotation, bind_eq_ok, pure_eq_ok, lift_eq_ok,
      b.eval_eq_ok hd, Option.bind_eq_bind, Option.bind_eq_some_iff, Option.some_inj]
    constructor
    · intro h
      obtain ⟨p, hp, argument, ⟨hn, ha⟩, h⟩ := h
      exact ⟨hn, _, ⟨argument, ha, rfl⟩, carveSave_some.mpr ⟨p, hp, h⟩⟩
    · intro h
      obtain ⟨hn, _, ⟨argument, ha, rfl⟩, h⟩ := h
      obtain ⟨p, hp, h⟩ := carveSave_some.mp h
      exact ⟨p, hp, argument, ⟨hn, ha⟩, h⟩
  | .broken cause, depth, main, current, out, hd => by simp [Save.eval, Save.denotation]

theorem Argument.eval_eq_ok {s : Setting} : ∀ (a : Argument) {depth : Nat} {current d : Distribution W},
    depth ≤ s.limits.maxDepth.toNat → (a.eval s depth current = .ok d ↔
      depth + a.nesting ≤ s.limits.maxDepth.toNat ∧ a.denotation s current = some d)
  | .itself, depth, current, d, hd => by simp [Argument.eval, Argument.nesting, Argument.denotation, hd]
  | .own t, depth, current, d, hd => by
    rw [Argument.eval, Argument.nesting, Argument.denotation]
    exact t.eval_eq_ok hd

/-- A tree has a distribution if it nests no deeper than allowed and denotes one, and then has that. -/
theorem Expression.eval_eq_ok {s : Setting} : ∀ (e : Expression) {depth : Nat} {d : Distribution W},
    depth ≤ s.limits.maxDepth.toNat → (e.eval s depth = .ok d ↔
      depth + e.nesting ≤ s.limits.maxDepth.toNat ∧ e.denotation s = some d)
  | .term t, depth, d, hd => by
    rw [Expression.eval, Expression.nesting, Expression.denotation]
    exact t.eval_eq_ok hd
  | .apply left op argument halved crit save, depth, d, hd => by
    simp only [Expression.eval_apply_eq_ok, Expression.nesting, Expression.denotation,
      Option.bind_eq_bind, Option.bind_eq_some_iff, toOption_eq_some, operate_eq_ok,
      left.eval_eq_ok hd, argument.eval_eq_ok hd, crit.eval_eq_ok hd, save.eval_eq_ok hd]
    constructor
    · rintro ⟨current, ⟨hn₁, hc⟩, whole, ⟨hn₂, ha⟩, main, hm, top, ⟨hn₃, t, ht, hct⟩, bottom,
        ⟨hn₄, b, hb, hcb⟩, h⟩
      exact ⟨by omega, current, hc, whole, ha, main, hm, t, ht, b, hb, top, hct, bottom, hcb, h⟩
    · intro h
      obtain ⟨hn, current, hc, whole, ha, main, hm, t, ht, b, hb, top, hct, bottom, hcb, h⟩ := h
      exact ⟨current, ⟨by omega, hc⟩, whole, ⟨by omega, ha⟩, main, hm, top, ⟨by omega, t, ht, hct⟩, bottom,
        ⟨by omega, b, hb, hcb⟩, h⟩
  | .broken left cause, depth, d, hd => by simp [Expression.eval, Expression.denotation, bind_eq_ok]

end

/-! ### Faults of one use -/

section Use
variable {s : Setting} {depth : Nat} (hd : depth ≤ s.limits.maxDepth.toNat)
include hd

/-- With its argument known a crit carves or fails as the distribution alone decides. -/
theorem Crit.eval_of_denotation {c : Crit} {main current : Distribution W} {top : Option (Nat × Distribution W)}
    (hn : depth + c.nesting ≤ s.limits.maxDepth.toNat) (h : c.denotation s main = some top) :
    c.eval s depth main current = lift (carveCrit current top) := by
  cases c with
  | absent =>
    cases h
    rfl
  | one b =>
    simp only [Crit.denotation, Option.bind_eq_bind, Option.bind_eq_some_iff, Option.some_inj] at h
    obtain ⟨argument, hb, rfl⟩ := h
    rw [Crit.eval, (b.eval_eq_ok hd).mpr ⟨hn, hb⟩, carveCrit]
    cases carveTop 1 current <;> rfl
  | many m b =>
    simp only [Crit.denotation, Option.bind_eq_bind, Option.bind_eq_some_iff, Option.some_inj] at h
    obtain ⟨k, hk, argument, hb, rfl⟩ := h
    have hcount : m.count .critCount 4294967295 s.n = .ok k := Numeral.count_eq_ok.mpr hk
    rw [Crit.eval, (b.eval_eq_ok hd).mpr ⟨hn, hb⟩, hcount, carveCrit]
    change (lift (carveTop k current) >>= _) = _
    cases carveTop k current <;> rfl
  | broken cause => cases h

theorem Save.eval_of_denotation {c : Save} {main current : Distribution W} {bottom : Option (Distribution W)}
    (hn : depth + c.nesting ≤ s.limits.maxDepth.toNat) (h : c.denotation s main = some bottom) :
    c.eval s depth main current = lift (carveSave current bottom) := by
  cases c with
  | absent =>
    cases h
    rfl
  | one b =>
    simp only [Save.denotation, Option.bind_eq_bind, Option.bind_eq_some_iff, Option.some_inj] at h
    obtain ⟨argument, hb, rfl⟩ := h
    rw [Save.eval, (b.eval_eq_ok hd).mpr ⟨hn, hb⟩, carveSave]
    cases carveBottom current <;> rfl
  | broken cause => cases h

/-- With all arguments known an operator in a text gives what its use gives, faults included. -/
theorem Expression.eval_apply_eq_lift_operate {left : Expression} {op : Operator} {argument : Argument}
    {halved : Bool} {crit : Crit} {save : Save} {current whole main : Distribution W}
    {top : Option (Nat × Distribution W)} {bottom : Option (Distribution W)}
    (hcurrent : left.eval s depth = .ok current) (hwhole : argument.eval s depth current = .ok whole)
    (hmain : mainArgument halved whole = .ok main) (hn : depth + crit.nesting ≤ s.limits.maxDepth.toNat)
    (htop : crit.denotation s main = some top) (hn' : depth + save.nesting ≤ s.limits.maxDepth.toNat)
    (hbottom : save.denotation s main = some bottom) :
    (Expression.apply left op argument halved crit save).eval s depth =
      lift (operate op current main top bottom) := by
  rw [Expression.eval_apply, hcurrent]
  change (argument.eval s depth current >>= _) = _
  rw [hwhole]
  change (lift (mainArgument halved whole) >>= _) = _
  rw [hmain]
  change (crit.eval s depth main current >>= _) = _
  rw [Crit.eval_of_denotation hd hn htop, operate, carve]
  cases carveCrit current top with
  | error fault => rfl
  | ok out =>
    change (save.eval s depth main out.2 >>= _) = lift ((carveSave out.2 bottom >>= _) >>= _)
    rw [Save.eval_of_denotation hd hn' hbottom]
    cases carveSave out.2 bottom <;> rfl

end Use
end DiceLaw.Notation
