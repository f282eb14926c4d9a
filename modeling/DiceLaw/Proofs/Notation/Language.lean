import DiceLaw.Proofs.Notation.Completeness

/-! Evaluating a text against its grammar: it has at most one derivation, and a distribution comes out
exactly when there is one that nests within the limit and denotes that distribution. -/
namespace DiceLaw.Notation
variable {W : Type} [Weight W] {s : Setting}

/-! ### What denotes a distribution holds no fault -/

mutual

theorem Primary.intact_of_denotation :
    ∀ (p : Primary) {d : Distribution W}, p.denotation s = some d → p.Intact
  | .number _, _, _ | .die _, _, _ | .halfDie _, _, _ => by rw [Primary.Intact]; trivial
  | .keep _ _ p, _, h => by
    simp only [Primary.denotation, Option.bind_eq_bind, Option.bind_eq_some_iff] at h
    obtain ⟨_, _, _, hp, _⟩ := h
    rw [Primary.Intact]
    exact p.intact_of_denotation hp
  | .group e, _, h => by
    rw [Primary.denotation] at h
    rw [Primary.Intact]
    exact e.intact_of_denotation h
  | .broken _, _, h => by rw [Primary.denotation] at h; cases h

theorem Term.intact_of_denotation : ∀ (t : Term) {d : Distribution W}, t.denotation s = some d → t.Intact
  | .one p, _, h => by
    rw [Term.denotation] at h
    rw [Term.Intact]
    exact p.intact_of_denotation h
  | .copies t p, _, h => by
    simp only [Term.denotation, Option.bind_eq_bind, Option.bind_eq_some_iff] at h
    obtain ⟨_, ht, _, hp, _⟩ := h
    rw [Term.Intact]
    exact ⟨t.intact_of_denotation ht, p.intact_of_denotation hp⟩

theorem Branch.intact_of_denotation :
    ∀ (b : Branch) {main d : Distribution W}, b.denotation s main = some d → b.Intact
  | .whole, _, _, _ | .half, _, _, _ => by rw [Branch.Intact]; trivial
  | .own t, _, _, h => by
    rw [Branch.denotation] at h
    rw [Branch.Intact]
    exact t.intact_of_denotation h

theorem Crit.intact_of_denotation :
    ∀ (c : Crit) {main : Distribution W} {top}, c.denotation s main = some top → c.Intact
  | .absent, _, _, _ => by rw [Crit.Intact]; trivial
  | .one b, _, _, h => by
    simp only [Crit.denotation, Option.bind_eq_bind, Option.bind_eq_some_iff] at h
    obtain ⟨_, hb, _⟩ := h
    rw [Crit.Intact]
    exact b.intact_of_denotation hb
  | .many _ b, _, _, h => by
    simp only [Crit.denotation, Option.bind_eq_bind, Option.bind_eq_some_iff] at h
    obtain ⟨_, _, _, hb, _⟩ := h
    rw [Crit.Intact]
    exact b.intact_of_denotation hb
  | .broken _, _, _, h => by rw [Crit.denotation] at h; cases h

theorem Save.intact_of_denotation :
    ∀ (c : Save) {main : Distribution W} {bottom}, c.denotation s main = some bottom → c.Intact
  | .absent, _, _, _ => by rw [Save.Intact]; trivial
  | .one b, _, _, h => by
    simp only [Save.denotation, Option.bind_eq_bind, Option.bind_eq_some_iff] at h
    obtain ⟨_, hb, _⟩ := h
    rw [Save.Intact]
    exact b.intact_of_denotation hb
  | .broken _, _, _, h => by rw [Save.denotation] at h; cases h

theorem Argument.intact_of_denotation :
    ∀ (a : Argument) {current d : Distribution W}, a.denotation s current = some d → a.Intact
  | .itself, _, _, _ => by rw [Argument.Intact]; trivial
  | .own t, _, _, h => by
    rw [Argument.denotation] at h
    rw [Argument.Intact]
    exact t.intact_of_denotation h

theorem Expression.intact_of_denotation :
    ∀ (e : Expression) {d : Distribution W}, e.denotation s = some d → e.Intact
  | .term t, _, h => by
    rw [Expression.denotation] at h
    rw [Expression.Intact]
    exact t.intact_of_denotation h
  | .apply left _ argument _ crit save, _, h => by
    simp only [Expression.denotation, Option.bind_eq_bind, Option.bind_eq_some_iff] at h
    obtain ⟨_, hl, _, ha, _, _, _, hc, _, hs, _⟩ := h
    rw [Expression.Intact]
    exact ⟨left.intact_of_denotation hl, argument.intact_of_denotation ha, crit.intact_of_denotation hc,
      save.intact_of_denotation hs⟩
  | .broken _ _, _, h => by rw [Expression.denotation] at h; cases h

end

/-! ### Whole texts -/

theorem Expression.eq_of_derives {cells : List Cell} {e f : Expression} (he : e.Derives cells [])
    (hf : f.Derives cells []) : e = f :=
  (Prod.mk.inj ((Expression.pair_of_derives he).symm.trans (Expression.pair_of_derives hf))).1

theorem Expression.ofCells_of_derives {cells : List Cell} {e : Expression} (h : e.Derives cells []) :
    Expression.ofCells cells = e := by
  have hp := Expression.pair_of_derives h
  unfold Expression.ofCells
  split
  next f hlt hr =>
    rw [hr] at hp
    exact (Prod.mk.inj hp).1
  next f c rest hlt hr =>
    rw [hr] at hp
    cases (Prod.mk.inj hp).2

theorem Expression.derives_of_intact {cells : List Cell} (h : (Expression.ofCells cells).Intact) :
    (Expression.ofCells cells).Derives cells [] := by
  unfold Expression.ofCells at h ⊢
  split at h
  next f hlt hr => exact expression_sound (by rw [hr]; rfl) h
  next => exact h.elim

/-- A text has at most one derivation. It evaluates to a distribution exactly when it has one that nests no
deeper than the limit and denotes that distribution. -/
theorem evaluate_eq_ok_iff_derivation (s : Setting) (text : String) :
    (∀ e f : Expression, e.Derives (Cell.ofText text) [] → f.Derives (Cell.ofText text) [] → e = f) ∧
    ∀ d : Distribution W, evaluate s text = .ok d ↔
      ∃ e : Expression, e.Derives (Cell.ofText text) [] ∧ e.nesting ≤ s.limits.maxDepth.toNat ∧
        e.denotation s = some d := by
  refine ⟨fun e f => Expression.eq_of_derives, ?_⟩
  intro d
  rw [evaluate, Expression.ofText, Expression.eval_eq_ok _ (Nat.zero_le _), Nat.zero_add]
  constructor
  · intro hmeaning
    obtain ⟨hn, hd⟩ := hmeaning
    exact ⟨_, Expression.derives_of_intact (Expression.intact_of_denotation _ hd), hn, hd⟩
  · intro hmeaning
    obtain ⟨e, he, hn, hd⟩ := hmeaning
    rw [Expression.ofCells_of_derives he]
    exact ⟨hn, hd⟩

end DiceLaw.Notation
