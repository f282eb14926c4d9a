import DiceLaw.Proofs.Notation.Language

/-! How deep a text nests, and what the limit on that decides. A text that has a distribution under some limit has it
under every limit that its nesting keeps to, and under any other fails by the limit alone. No text nests deeper than
it is long. -/
namespace DiceLaw.Notation

/-! ### The limit alone -/

/-- The same setting with another limit on nesting. -/
def Setting.nestingUpTo (s : Setting) (limit : UInt64) : Setting :=
  { s with limits := { s.limits with maxDepth := limit } }

/-- A result for which so many levels have to be open at once. -/
def withinLimit {α : Type} (limit : UInt64) (height : Nat) (a : α) : Except Fault α :=
  if height ≤ limit.toNat then .ok a else .error (.nestingTooDeep limit.toNat)

section Limit
variable {α β : Type} {limit : UInt64} {low height : Nat} {a : α} {b : β}

theorem withinLimit_of_le (h : height ≤ limit.toNat) : withinLimit limit height a = .ok a := if_pos h

theorem deeper_nestingUpTo (s : Setting) (limit : UInt64) (depth : Nat) :
    deeper (s.nestingUpTo limit) depth = withinLimit limit (depth + 1) (depth + 1) := by
  rw [deeper, withinLimit]
  split
  next h => exact (if_neg (Nat.not_le.mpr h)).symm
  next h => exact (if_pos (Nat.not_lt.mp h)).symm

theorem bind_within_of_ok {x : Except Fault α} {f : α → Except Fault β} (hx : x = .ok a)
    (hf : f a = withinLimit limit height b) : x >>= f = withinLimit limit height b := by
  rw [hx]
  exact hf

/-- A part may be within the limit where the whole is not, but not the other way round. -/
theorem bind_within {x : Except Fault α} {f : α → Except Fault β} (hx : x = withinLimit limit low a)
    (hle : low ≤ height) (hf : low ≤ limit.toNat → f a = withinLimit limit height b) :
    x >>= f = withinLimit limit height b := by
  by_cases hlow : low ≤ limit.toNat
  · exact bind_within_of_ok (hx.trans (withinLimit_of_le hlow)) (hf hlow)
  · have hheight : ¬ height ≤ limit.toNat := fun h => hlow (Nat.le_trans hle h)
    rw [hx, withinLimit, withinLimit, if_neg hlow, if_neg hheight]
    rfl

end Limit

variable {W : Type} [Weight W]

mutual

theorem Primary.eval_nestingUpTo {s : Setting} {limit : UInt64} :
    ∀ (p : Primary) {depth depth' : Nat} {d : Distribution W}, p.eval s depth = .ok d → depth' ≤ limit.toNat →
      p.eval (s.nestingUpTo limit) depth' = withinLimit limit (depth' + p.nesting) d
  | .number _, _, _, _, h, hd => by
    rw [Primary.eval] at h ⊢
    exact h.trans (withinLimit_of_le hd).symm
  | .die _, _, _, _, h, hd => by
    rw [Primary.eval] at h ⊢
    exact h.trans (withinLimit_of_le hd).symm
  | .halfDie _, _, _, _, h, hd => by
    rw [Primary.eval] at h ⊢
    exact h.trans (withinLimit_of_le hd).symm
  | .keep _ _ p, _, _, _, h, _ => by
    simp only [Primary.eval, bind_eq_ok, pure_eq_ok] at h
    obtain ⟨m, hm, level, -, inner, hp, rfl⟩ := h
    rw [Primary.eval, Primary.nesting]
    refine bind_within_of_ok hm (bind_within (deeper_nestingUpTo s limit _) (by omega) fun hlevel => ?_)
    exact bind_within (p.eval_nestingUpTo hp hlevel) (by omega) fun hlow => (withinLimit_of_le (by omega)).symm
  | .group e, _, depth', _, h, _ => by
    simp only [Primary.eval, bind_eq_ok] at h
    obtain ⟨level, -, he⟩ := h
    rw [Primary.eval, Primary.nesting, Nat.add_comm e.nesting, ← Nat.add_assoc]
    exact bind_within (deeper_nestingUpTo s limit _) (by omega) fun hlevel => e.eval_nestingUpTo he hlevel
  | .broken _, _, _, _, h, _ => by
    rw [Primary.eval] at h
    cases h

theorem Term.eval_nestingUpTo {s : Setting} {limit : UInt64} :
    ∀ (t : Term) {depth depth' : Nat} {d : Distribution W}, t.eval s depth = .ok d → depth' ≤ limit.toNat →
      t.eval (s.nestingUpTo limit) depth' = withinLimit limit (depth' + t.nesting) d
  | .one p, _, _, _, h, hd => by
    rw [Term.eval] at h ⊢
    exact p.eval_nestingUpTo h hd
  | .copies t p, _, _, _, h, hd => by
    simp only [Term.eval, bind_eq_ok] at h
    obtain ⟨c, hc, die, hdie, h⟩ := h
    rw [Term.eval, Term.nesting]
    refine bind_within (t.eval_nestingUpTo hc hd) (by omega) fun hcounts => ?_
    refine bind_within (p.eval_nestingUpTo hdie hd) (by omega) fun hlow => ?_
    exact h.trans (withinLimit_of_le (by omega)).symm

theorem Branch.eval_nestingUpTo {s : Setting} {limit : UInt64} :
    ∀ (b : Branch) {depth depth' : Nat} {main d : Distribution W}, b.eval s depth main = .ok d →
      depth' ≤ limit.toNat → b.eval (s.nestingUpTo limit) depth' main = withinLimit limit (depth' + b.nesting) d
  | .whole, _, _, _, _, h, hd => by
    rw [Branch.eval] at h ⊢
    exact h.trans (withinLimit_of_le hd).symm
  | .half, _, _, _, _, h, hd => by
    rw [Branch.eval] at h ⊢
    exact h.trans (withinLimit_of_le hd).symm
  | .own t, _, _, _, _, h, hd => by
    rw [Branch.eval] at h ⊢
    exact t.eval_nestingUpTo h hd

theorem Crit.eval_nestingUpTo {s : Setting} {limit : UInt64} :
    ∀ (c : Crit) {depth depth' : Nat} {main current : Distribution W} {out : List (Part W) × Distribution W},
      c.eval s depth main current = .ok out → depth' ≤ limit.toNat →
      c.eval (s.nestingUpTo limit) depth' main current = withinLimit limit (depth' + c.nesting) out
  | .absent, _, _, _, _, _, h, hd => by
    rw [Crit.eval] at h ⊢
    exact h.trans (withinLimit_of_le hd).symm
  | .one b, _, _, _, _, _, h, hd => by
    simp only [Crit.eval, bind_eq_ok, pure_eq_ok] at h
    obtain ⟨carved, hcarved, argument, hb, rfl⟩ := h
    rw [Crit.eval, Crit.nesting]
    refine bind_within_of_ok hcarved (bind_within (b.eval_nestingUpTo hb hd) (by omega) fun hlow => ?_)
    exact (withinLimit_of_le hlow).symm
  | .many _ b, _, _, _, _, _, h, hd => by
    simp only [Crit.eval, bind_eq_ok, pure_eq_ok] at h
    obtain ⟨m, hm, carved, hcarved, argument, hb, rfl⟩ := h
    rw [Crit.eval, Crit.nesting]
    refine bind_within_of_ok hm (bind_within_of_ok hcarved ?_)
    exact bind_within (b.eval_nestingUpTo hb hd) (by omega) fun hlow => (withinLimit_of_le hlow).symm
  | .broken _, _, _, _, _, _, h, _ => by
    rw [Crit.eval] at h
    cases h

theorem Save.eval_nestingUpTo {s : Setting} {limit : UInt64} :
    ∀ (c : Save) {depth depth' : Nat} {main current : Distribution W} {out : List (Part W) × Distribution W},
      c.eval s depth main current = .ok out → depth' ≤ limit.toNat →
      c.eval (s.nestingUpTo limit) depth' main current = withinLimit limit (depth' + c.nesting) out
  | .absent, _, _, _, _, _, h, hd => by
    rw [Save.eval] at h ⊢
    exact h.trans (withinLimit_of_le hd).symm
  | .one b, _, _, _, _, _, h, hd => by
    simp only [Save.eval, bind_eq_ok, pure_eq_ok] at h
    obtain ⟨carved, hcarved, argument, hb, rfl⟩ := h
    rw [Save.eval, Save.nesting]
    refine bind_within_of_ok hcarved (bind_within (b.eval_nestingUpTo hb hd) (by omega) fun hlow => ?_)
    exact (withinLimit_of_le hlow).symm
  | .broken _, _, _, _, _, _, h, _ => by
    rw [Save.eval] at h
    cases h

theorem Argument.eval_nestingUpTo {s : Setting} {limit : UInt64} :
    ∀ (a : Argument) {depth depth' : Nat} {current d : Distribution W}, a.eval s depth current = .ok d →
      depth' ≤ limit.toNat →
      a.eval (s.nestingUpTo limit) depth' current = withinLimit limit (depth' + a.nesting) d
  | .itself, _, _, _, _, h, hd => by
    rw [Argument.eval] at h ⊢
    exact h.trans (withinLimit_of_le hd).symm
  | .own t, _, _, _, _, h, hd => by
    rw [Argument.eval] at h ⊢
    exact t.eval_nestingUpTo h hd

/-- A tree that has a distribution under one limit has it under all that allow its nesting, and only the limit keeps
it from one under the others. -/
theorem Expression.eval_nestingUpTo {s : Setting} {limit : UInt64} :
    ∀ (e : Expression) {depth depth' : Nat} {d : Distribution W}, e.eval s depth = .ok d → depth' ≤ limit.toNat →
      e.eval (s.nestingUpTo limit) depth' = withinLimit limit (depth' + e.nesting) d
  | .term t, _, _, _, h, hd => by
    rw [Expression.eval] at h ⊢
    exact t.eval_nestingUpTo h hd
  | .apply left op argument halved crit save, _, _, _, h, hd => by
    simp only [Expression.eval_apply, bind_eq_ok] at h
    obtain ⟨current, hc, whole, ha, main, hm, top, ht, bottom, hb, h⟩ := h
    rw [Expression.eval_apply, Expression.nesting]
    refine bind_within (left.eval_nestingUpTo hc hd) (by omega) fun hleft => ?_
    refine bind_within (argument.eval_nestingUpTo ha hd) (by omega) fun hargument => bind_within_of_ok hm ?_
    refine bind_within (crit.eval_nestingUpTo ht hd) (by omega) fun hcrit => ?_
    refine bind_within (save.eval_nestingUpTo hb hd) (by omega) fun hsave => ?_
    exact h.trans (withinLimit_of_le (by omega)).symm
  | .broken left cause, _, _, _, h, _ => by
    simp only [Expression.eval, bind_eq_ok, reduceCtorEq, and_false, exists_false] at h

end

/-! ### Nesting and length

A part takes at least one cell for each level that it nests, whether or not it holds a fault. As with soundness, one
bound serves all readers. -/

theorem Reading.shorter_of_pair {α : Type} {bound : Nat} {r : Reading α bound} {a : α} {rest : List Cell}
    (h : r.pair = (a, rest)) : rest.length < bound := by
  cases h
  exact r.shorter

section Inherited
variable {n : Nat} (hP : ∀ s : List Cell, s.length < n → ∀ r, primary? s = some r →
  r.value.nesting + r.rest.length ≤ s.length)
include hP

theorem copies_nesting {s : List Cell} (hs : s.length < n) {size : Nat} {t : Term} (ht : t.nesting + s.length ≤ size)
    {u : Term} {rest : List Cell} (h : (copies t s).pair = (u, rest)) : u.nesting + rest.length ≤ size := by
  induction hl : s.length using Nat.strongRecOn generalizing s t with
  | ind k ih =>
    rw [pair_copies] at h
    split at h
    next r hr =>
      have hlt := r.shorter
      have hr := hP s hs r hr
      have hcopies : (Term.copies t r.value).nesting + r.rest.length ≤ size := by
        rw [Term.nesting]
        omega
      exact ih r.rest.length (by omega) (by omega) hcopies h rfl
    next => cases h; exact ht

theorem term?_nesting {s : List Cell} (hs : s.length < n) {r : Reading Term s.length} (h : term? s = some r) :
    r.value.nesting + r.rest.length ≤ s.length := by
  have hp := pair_term? s
  rw [h] at hp
  cases hf : primary? s with
  | none => rw [hf] at hp; cases hp
  | some first =>
    rw [hf] at hp
    have hlt := first.shorter
    exact copies_nesting hP (by omega) (hP s hs first hf) (Option.some.inj hp).symm

theorem branch_nesting {s : List Cell} (hs : s.length < n) {b : Branch} {rest : List Cell}
    (h : (branch s).pair = (b, rest)) : b.nesting + rest.length ≤ s.length := by
  have hlt := Reading.shorter_of_pair h
  rw [pair_branch] at h
  split at h
  next => cases h; rw [Branch.nesting]; omega
  next =>
    split at h
    next r hr => cases h; exact term?_nesting hP hs hr
    next => cases h; rw [Branch.nesting]; omega

theorem argument_nesting (op : Operator) {s : List Cell} (hs : s.length < n) {a : Argument} {rest : List Cell}
    (h : (argument op s).pair = (a, rest)) : a.nesting + rest.length ≤ s.length := by
  rw [pair_argument] at h
  split at h
  next => cases h; rw [Argument.nesting]; omega
  next =>
    split at h
    next r hr => cases h; exact term?_nesting hP hs hr
    next => cases h; exact Nat.zero_le _

theorem crit_nesting {s : List Cell} (hs : s.length < n) {c : Crit} {rest : List Cell}
    (h : (crit s).pair = (c, rest)) : c.nesting + rest.length ≤ s.length := by
  cases s with
  | nil => rw [crit] at h; cases h; exact Nat.zero_le _
  | cons d s =>
    rw [pair_crit] at h
    split at h
    next =>
      split at h
      next after hw =>
        cases h
        have hlen := length_of_keyword hw
        have hbranch := branch_nesting hP (s := after) (by omega) rfl
        rw [Crit.nesting]
        omega
      next => cases h; exact Nat.zero_le _
    next =>
      split at h
      next =>
        split at h
        next after hw =>
          have hlen := length_of_keyword hw
          split at h
          next count hn =>
            cases h
            have hlt := count.shorter
            have hbranch := branch_nesting hP (s := count.rest) (by omega) rfl
            rw [Crit.nesting]
            omega
          next => cases h; exact Nat.zero_le _
        next => cases h; exact Nat.zero_le _
      next => cases h; rw [Crit.nesting]; omega

theorem save_nesting {s : List Cell} (hs : s.length < n) {c : Save} {rest : List Cell}
    (h : (save s).pair = (c, rest)) : c.nesting + rest.length ≤ s.length := by
  cases s with
  | nil => rw [save] at h; cases h; exact Nat.zero_le _
  | cons d s =>
    rw [pair_save] at h
    split at h
    next =>
      split at h
      next after hw =>
        cases h
        have hlen := length_of_keyword hw
        have hbranch := branch_nesting hP (s := after) (by omega) rfl
        rw [Save.nesting]
        omega
      next => cases h; exact Nat.zero_le _
    next => cases h; rw [Save.nesting]; omega

theorem applications_nesting {s : List Cell} (hs : s.length < n) {size : Nat} {left : Expression}
    (hl : left.nesting + s.length ≤ size) {e : Expression} {rest : List Cell}
    (h : (applications left s).pair = (e, rest)) : e.nesting + rest.length ≤ size := by
  induction hk : s.length using Nat.strongRecOn generalizing s left with
  | ind k ih =>
    rw [pair_applications] at h
    split at h
    next => cases h; exact hl
    next =>
      cases h
      rw [Expression.nesting, List.length_nil]
      omega
    next o ho =>
      have h₁ := o.shorter
      have h₂ := argument_nesting hP o.value (s := o.rest) (by omega) rfl
      have h₃ := (halved (argument o.value o.rest).rest).shorter
      have h₄ := crit_nesting hP (s := (halved (argument o.value o.rest).rest).rest) (by omega) rfl
      have h₅ := save_nesting hP (s := (crit (halved (argument o.value o.rest).rest).rest).rest) (by omega) rfl
      refine ih _ (by omega) (by omega) ?_ h rfl
      rw [Expression.nesting]
      omega

theorem expression_nesting_below {s : List Cell} (hs : s.length < n) {e : Expression} {rest : List Cell}
    (h : (expression s).pair = (e, rest)) : e.nesting + rest.length ≤ s.length := by
  rw [pair_expression] at h
  split at h
  next r hr =>
    have hlt := r.shorter
    exact applications_nesting hP (by omega) (term?_nesting hP hs hr) h
  next => cases h; exact Nat.zero_le _

end Inherited

theorem die?_nesting {s : List Cell} {r : Reading Primary s.length} (h : die? s = some r) : r.value.nesting = 0 := by
  unfold die? at h
  split at h
  next =>
    split at h
    next =>
      split at h
      next => cases h; rfl
      next => cases h
    next =>
      split at h
      next =>
        split at h
        next => cases h; rfl
        next => cases h
      next => cases h
  next => cases h

theorem primary?_nesting {s : List Cell} {p : Primary} {rest : List Cell}
    (h : (primary? s).map Reading.pair = some (p, rest)) : p.nesting + rest.length ≤ s.length := by
  induction hn : s.length using Nat.strongRecOn generalizing s p rest with
  | ind n ih =>
    have hP : ∀ s' : List Cell, s'.length < n → ∀ r, primary? s' = some r →
        r.value.nesting + r.rest.length ≤ s'.length := fun s' hs' r hr => ih s'.length hs' (by rw [hr]; rfl) rfl
    cases s with
    | nil => rw [primary?] at h; cases h
    | cons c s =>
      rw [List.length_cons] at hn
      rw [pair_primary?] at h
      split at h
      next =>
        have hinner := expression_nesting_below hP (s := s) (by omega) rfl
        split at h
        next after hw =>
          cases h
          have hlen := length_of_keyword hw
          rw [Primary.nesting]
          omega
        next =>
          cases h
          rw [Primary.nesting, Expression.nesting, List.length_nil]
          omega
      next =>
        split at h
        next =>
          obtain ⟨r, hr, hpair⟩ := Option.map_eq_some_iff.mp h
          cases hpair
          have hlt : r.rest.length < s.length + 1 := r.shorter
          rw [die?_nesting hr]
          omega
        next =>
          split at h
          next =>
            split at h
            next r hr =>
              have hlt : r.rest.length < s.length + 1 := r.shorter
              split at h
              next target ht =>
                cases h
                have htarget := hP r.rest (by omega) target ht
                rw [Primary.nesting]
                omega
              next =>
                cases h
                rw [Primary.nesting, Primary.nesting, List.length_nil]
                omega
            next => cases h; exact Nat.zero_le _
          next =>
            split at h
            next r hr =>
              cases h
              have hlt : r.rest.length < s.length + 1 := r.shorter
              rw [Primary.nesting]
              omega
            next => cases h

theorem expression_nesting {s : List Cell} {e : Expression} {rest : List Cell} (h : (expression s).pair = (e, rest)) :
    e.nesting + rest.length ≤ s.length :=
  expression_nesting_below (fun _ _ _ hr => primary?_nesting (by rw [hr]; rfl)) (Nat.lt_succ_self _) h

/-- No text nests deeper than it has characters to nest with, whether it makes sense or not. -/
theorem Expression.nesting_ofCells_le (s : List Cell) : (Expression.ofCells s).nesting ≤ s.length := by
  unfold Expression.ofCells
  split
  next e hlt hr => exact Nat.le_of_add_right_le (expression_nesting (by rw [hr]; rfl))
  next e c rest hlt hr =>
    change e.nesting ≤ s.length
    exact Nat.le_of_add_right_le (expression_nesting (by rw [hr]; rfl))

end DiceLaw.Notation
