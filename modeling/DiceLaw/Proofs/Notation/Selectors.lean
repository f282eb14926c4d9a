import DiceLaw.Proofs.Mixture
import DiceLaw.Proofs.Notation.Placement

/-! The keep selector that a die is repeated with. It can be read off the text alone: numbers, dice and everything
that is computed of several parts have none, a selector that is written stands until the next such computation, and a
plain reroll lets it stand. -/
namespace DiceLaw

/-! ### Operations on distributions -/

namespace Distribution
variable {W : Type}

theorem keep?_ofTable (t : Table W) : (ofTable t).keep? = none := rfl

theorem keep?_withKeep (k : Keep) (d : Distribution W) : (d.withKeep k).keep? = some k := rfl

variable [Weight W]

theorem keep?_scale (c : W) (d : Distribution W) : (d.scale c).keep? = d.keep? := rfl

theorem keep?_combine (d e : Distribution W) : (d.combine e).keep? = none := rfl

theorem keep?_reroll (d targets : Distribution W) : (d.reroll targets).keep? = d.keep? := rfl

theorem keep?_repeated {limits : Limits} {counts die r : Distribution W} (h : repeated limits counts die = .ok r) :
    r.keep? = none := by
  obtain ⟨B, -, rfl⟩ := repeated_eq_ok.mp h
  exact keep?_ofTable _

end Distribution

open DiceLaw.Distribution

theorem Operator.keep?_apply {W : Type} [Weight W] {op : Operator} {d e r : Distribution W} (h : op.apply d e = .ok r) :
    r.keep? = if op = .reroll then d.keep? else none := by
  cases op with
  | reroll => cases h; exact keep?_reroll d e
  | combine => cases h; exact keep?_combine d e
  | divideCeil =>
    obtain rfl := eq_pairUp_of_pairUp? (divideCeil_eq_ok.mp h)
    exact keep?_ofTable _
  | divideFloor =>
    obtain rfl := eq_pairUp_of_pairUp? (divideFloor_eq_ok.mp h)
    exact keep?_ofTable _
  | _ => cases h; exact keep?_ofTable _

namespace Notation
variable {W : Type} [Weight W]

theorem keep?_foldlM_join {op : Operator} {share : W} {carved : List (Part W)} {result r : Distribution W}
    (h : carved.foldlM (join op share) result = .ok r) :
    r.keep? = if carved = [] then result.keep? else none := by
  induction carved generalizing result with
  | nil => cases h; rfl
  | cons p carved ih =>
    rw [List.foldlM_cons, bind_eq_ok] at h
    obtain ⟨joined, hjoined, h⟩ := h
    simp only [join, bind_eq_ok, pure_eq_ok] at hjoined
    obtain ⟨applied, -, rfl⟩ := hjoined
    rw [ih h, keep?_combine, if_neg (List.cons_ne_nil p carved), ite_self]

theorem keep?_applyParts {op : Operator} {normal : Part W} {carved : List (Part W)} {r : Distribution W}
    (h : applyParts op normal carved = .ok r) :
    r.keep? = if op = .reroll ∧ carved = [] then normal.carved.keep? else none := by
  simp only [applyParts, bind_eq_ok] at h
  obtain ⟨applied, happlied, h⟩ := h
  rw [keep?_foldlM_join h, keep?_scale, Operator.keep?_apply happlied, ite_and]
  split <;> simp_all

/-! ### Selectors in a text -/

def Crit.carves : Crit → Bool
  | .absent => false
  | _ => true

def Save.carves : Save → Bool
  | .absent => false
  | _ => true

mutual

/-- The selector that is in force for what follows, as the text alone tells. -/
def Primary.selector? (n : Int64) : Primary → Option Keep
  | .keep direction count _ => (count.upTo? 4294967295 n).map (⟨direction, ·⟩)
  | .group inner => inner.selector? n
  | .number _ | .die _ | .halfDie _ | .broken _ => none

def Term.selector? (n : Int64) : Term → Option Keep
  | .one first => first.selector? n
  | .copies _ _ => none

def Expression.selector? (n : Int64) : Expression → Option Keep
  | .term first => first.selector? n
  | .apply left op _ _ crit save =>
    if op = .reroll ∧ crit.carves = false ∧ save.carves = false then left.selector? n else none
  | .broken _ _ => none

end

variable {s : Setting}

theorem Crit.eval_carves {c : Crit} {depth : Nat} {main current : Distribution W}
    {out : List (Part W) × Distribution W} (h : c.eval s depth main current = .ok out) :
    (out.1 = [] ↔ c.carves = false) ∧ (c.carves = false → out.2 = current) := by
  cases c with
  | absent => cases h; exact ⟨iff_of_true rfl rfl, fun _ => rfl⟩
  | one b =>
    simp only [Crit.eval, bind_eq_ok, pure_eq_ok] at h
    obtain ⟨carved, -, argument, -, rfl⟩ := h
    have hcarves : ¬ (Crit.one b).carves = false := by rintro ⟨⟩
    exact ⟨iff_of_false (List.cons_ne_nil _ _) hcarves, fun h => absurd h hcarves⟩
  | many m b =>
    simp only [Crit.eval, bind_eq_ok, pure_eq_ok] at h
    obtain ⟨count, -, carved, -, argument, -, rfl⟩ := h
    have hcarves : ¬ (Crit.many m b).carves = false := by rintro ⟨⟩
    exact ⟨iff_of_false (List.cons_ne_nil _ _) hcarves, fun h => absurd h hcarves⟩
  | broken cause => cases h

theorem Save.eval_carves {c : Save} {depth : Nat} {main current : Distribution W}
    {out : List (Part W) × Distribution W} (h : c.eval s depth main current = .ok out) :
    (out.1 = [] ↔ c.carves = false) ∧ (c.carves = false → out.2 = current) := by
  cases c with
  | absent => cases h; exact ⟨iff_of_true rfl rfl, fun _ => rfl⟩
  | one b =>
    simp only [Save.eval, bind_eq_ok, pure_eq_ok] at h
    obtain ⟨carved, -, argument, -, rfl⟩ := h
    have hcarves : ¬ (Save.one b).carves = false := by rintro ⟨⟩
    exact ⟨iff_of_false (List.cons_ne_nil _ _) hcarves, fun h => absurd h hcarves⟩
  | broken cause => cases h

mutual

theorem Primary.keep?_of_eval : ∀ (p : Primary) {depth : Nat} {d : Distribution W}, p.eval s depth = .ok d →
    d.keep? = p.selector? s.n
  | .number _, _, _, h => by
    simp only [Primary.eval, bind_eq_ok, pure_eq_ok] at h
    obtain ⟨v, -, rfl⟩ := h
    exact keep?_ofTable _
  | .die _, _, _, h => by
    simp only [Primary.eval, bind_eq_ok, pure_eq_ok] at h
    obtain ⟨sides, -, rfl⟩ := h
    exact keep?_ofTable _
  | .halfDie _, _, _, h => by
    simp only [Primary.eval, bind_eq_ok, pure_eq_ok] at h
    obtain ⟨sides, -, rfl⟩ := h
    exact keep?_combine _ _
  | .keep direction count _, _, _, h => by
    simp only [Primary.eval, bind_eq_ok, pure_eq_ok] at h
    obtain ⟨m, hm, level, -, d, -, rfl⟩ := h
    have hcount : count.upTo? 4294967295 s.n = some m := Numeral.count_eq_ok.mp hm
    rw [keep?_withKeep, Primary.selector?, hcount, Option.map_some]
  | .group e, _, _, h => by
    simp only [Primary.eval, bind_eq_ok] at h
    obtain ⟨level, -, h⟩ := h
    rw [Primary.selector?]
    exact e.keep?_of_eval h
  | .broken _, _, _, h => by
    rw [Primary.eval] at h
    cases h

theorem Term.keep?_of_eval : ∀ (t : Term) {depth : Nat} {d : Distribution W}, t.eval s depth = .ok d →
    d.keep? = t.selector? s.n
  | .one p, _, _, h => by
    rw [Term.eval] at h
    rw [Term.selector?]
    exact p.keep?_of_eval h
  | .copies _ _, _, _, h => by
    simp only [Term.eval, bind_eq_ok, lift_eq_ok] at h
    obtain ⟨counts, -, die, -, h⟩ := h
    exact keep?_repeated h

/-- What a tree is computed to carries the selector that the text tells. -/
theorem Expression.keep?_of_eval : ∀ (e : Expression) {depth : Nat} {d : Distribution W}, e.eval s depth = .ok d →
    d.keep? = e.selector? s.n
  | .term t, _, _, h => by
    rw [Expression.eval] at h
    rw [Expression.selector?]
    exact t.keep?_of_eval h
  | .apply left op argument halved crit save, _, _, h => by
    obtain ⟨current, hcurrent, whole, -, main, -, top, htop, bottom, hbottom, h⟩ := Expression.eval_apply_eq_ok.mp h
    obtain ⟨hcrit, hrest⟩ := crit.eval_carves htop
    obtain ⟨hsave, hnormal⟩ := save.eval_carves hbottom
    rw [keep?_applyParts h, Expression.selector?]
    simp only [List.append_eq_nil_iff, hcrit, hsave]
    split
    next hplain =>
      rw [hnormal hplain.2.2, hrest hplain.2.1]
      exact left.keep?_of_eval hcurrent
    next => rfl
  | .broken left cause, _, _, h => by
    simp only [Expression.eval, bind_eq_ok, reduceCtorEq, and_false, exists_false] at h

end

/-! ### Whole texts -/

/-- A part of a text that has a distribution of its own. -/
inductive Piece where
  | primary (p : Primary)
  | term (t : Term)
  | expression (e : Expression)

namespace Piece

def eval (s : Setting) (depth : Nat) : Piece → Except Fault (Distribution W)
  | primary p => p.eval s depth
  | term t => t.eval s depth
  | expression e => e.eval s depth

def selector? (n : Int64) : Piece → Option Keep
  | primary p => p.selector? n
  | term t => t.selector? n
  | expression e => e.selector? n

end Piece

/-- The pieces of an expression, each below so many levels: itself, and what stands in its pieces. -/
inductive Expression.HasPiece (e : Expression) : Nat → Piece → Prop where
  | whole : HasPiece e 0 (.expression e)
  | target {depth direction count p} : HasPiece e depth (.primary (.keep direction count p)) →
      HasPiece e (depth + 1) (.primary p)
  | inner {depth f} : HasPiece e depth (.primary (.group f)) → HasPiece e (depth + 1) (.expression f)
  | one {depth p} : HasPiece e depth (.term (.one p)) → HasPiece e depth (.primary p)
  | counts {depth t p} : HasPiece e depth (.term (.copies t p)) → HasPiece e depth (.term t)
  | die {depth t p} : HasPiece e depth (.term (.copies t p)) → HasPiece e depth (.primary p)
  | first {depth t} : HasPiece e depth (.expression (.term t)) → HasPiece e depth (.term t)
  | left {depth f op argument halved crit save} :
      HasPiece e depth (.expression (.apply f op argument halved crit save)) → HasPiece e depth (.expression f)
  | argument {depth f op t halved crit save} :
      HasPiece e depth (.expression (.apply f op (.own t) halved crit save)) → HasPiece e depth (.term t)
  | crit {depth f op argument halved t save} :
      HasPiece e depth (.expression (.apply f op argument halved (.one (.own t)) save)) → HasPiece e depth (.term t)
  | crits {depth f op argument halved count t save} :
      HasPiece e depth (.expression (.apply f op argument halved (.many count (.own t)) save)) →
      HasPiece e depth (.term t)
  | save {depth f op argument halved crit t} :
      HasPiece e depth (.expression (.apply f op argument halved crit (.one (.own t)))) → HasPiece e depth (.term t)

/-- Where the whole has a distribution every piece has one. -/
theorem Expression.HasPiece.exists_eval {e : Expression} {depth : Nat} {x : Piece} (hx : e.HasPiece depth x)
    {d : Distribution W} (h : e.eval s 0 = .ok d) : ∃ a : Distribution W, x.eval s depth = .ok a := by
  induction hx with
  | whole => exact ⟨d, h⟩
  | target _ ih =>
    obtain ⟨a, ha⟩ := ih
    simp only [Piece.eval, Primary.eval, bind_eq_ok, deeper_eq_ok] at ha
    obtain ⟨_, -, _, ⟨-, rfl⟩, inner, hinner, -⟩ := ha
    exact ⟨inner, hinner⟩
  | inner _ ih =>
    obtain ⟨a, ha⟩ := ih
    simp only [Piece.eval, Primary.eval, bind_eq_ok, deeper_eq_ok] at ha
    obtain ⟨_, ⟨-, rfl⟩, ha⟩ := ha
    exact ⟨a, ha⟩
  | one _ ih =>
    obtain ⟨a, ha⟩ := ih
    exact ⟨a, ha⟩
  | counts _ ih =>
    obtain ⟨a, ha⟩ := ih
    simp only [Piece.eval, Term.eval, bind_eq_ok] at ha
    obtain ⟨c, hc, -⟩ := ha
    exact ⟨c, hc⟩
  | die _ ih =>
    obtain ⟨a, ha⟩ := ih
    simp only [Piece.eval, Term.eval, bind_eq_ok] at ha
    obtain ⟨_, -, b, hb, -⟩ := ha
    exact ⟨b, hb⟩
  | first _ ih =>
    obtain ⟨a, ha⟩ := ih
    exact ⟨a, ha⟩
  | left _ ih =>
    obtain ⟨a, ha⟩ := ih
    obtain ⟨current, hcurrent, -⟩ := Expression.eval_apply_eq_ok.mp ha
    exact ⟨current, hcurrent⟩
  | argument _ ih =>
    obtain ⟨a, ha⟩ := ih
    obtain ⟨_, -, whole, hwhole, -⟩ := Expression.eval_apply_eq_ok.mp ha
    exact ⟨whole, hwhole⟩
  | crit _ ih =>
    obtain ⟨a, ha⟩ := ih
    obtain ⟨_, -, _, -, _, -, top, htop, -⟩ := Expression.eval_apply_eq_ok.mp ha
    simp only [Crit.eval, Branch.eval, bind_eq_ok] at htop
    obtain ⟨_, -, b, hb, -⟩ := htop
    exact ⟨b, hb⟩
  | crits _ ih =>
    obtain ⟨a, ha⟩ := ih
    obtain ⟨_, -, _, -, _, -, top, htop, -⟩ := Expression.eval_apply_eq_ok.mp ha
    simp only [Crit.eval, Branch.eval, bind_eq_ok] at htop
    obtain ⟨_, -, _, -, b, hb, -⟩ := htop
    exact ⟨b, hb⟩
  | save _ ih =>
    obtain ⟨a, ha⟩ := ih
    obtain ⟨_, -, _, -, _, -, _, -, bottom, hbottom, -⟩ := Expression.eval_apply_eq_ok.mp ha
    simp only [Save.eval, Branch.eval, bind_eq_ok] at hbottom
    obtain ⟨_, -, b, hb, -⟩ := hbottom
    exact ⟨b, hb⟩

theorem Piece.keep?_of_eval {x : Piece} {depth : Nat} {a : Distribution W} (h : x.eval s depth = .ok a) :
    a.keep? = x.selector? s.n := by
  cases x with
  | primary p => exact p.keep?_of_eval h
  | term t => exact t.keep?_of_eval h
  | expression e => exact e.keep?_of_eval h

/-- Every piece of a text that has a distribution has one too, with the selector that the text tells of the piece.
Whether copies of a die are summed or the best of them kept is up to that selector, whatever the die weighs. -/
theorem evaluate_selectors {text : String} {d : Distribution W} (h : evaluate s text = .ok d) :
    ∃ e : Expression, e.Derives (Cell.ofText text) [] ∧
      (∀ depth x, e.HasPiece depth x → ∃ a : Distribution W, x.eval s depth = .ok a ∧ a.keep? = x.selector? s.n) ∧
      ∀ depth t p, e.HasPiece depth (.term (.copies t p)) → ∃ counts die : Distribution W,
        t.eval s depth = .ok counts ∧ p.eval s depth = .ok die ∧
          ∀ v ∈ counts.numbers, Distribution.copies s.limits die v.1 = match p.selector? s.n with
            | some k => keepOfCopies v.1.toInt.toNat die k s.limits.maxKeepCombinations
            | none => .ok (sumOfCopies v.1.toInt.toNat die) := by
  refine ⟨_, (Expression.ofText_of_evaluate h).1, fun depth x hx => ?_, fun depth t p hcopies => ?_⟩
  · obtain ⟨a, ha⟩ := hx.exists_eval h
    exact ⟨a, ha, Piece.keep?_of_eval ha⟩
  · obtain ⟨a, ha⟩ := hcopies.exists_eval h
    simp only [Piece.eval, Term.eval, bind_eq_ok, lift_eq_ok] at ha
    obtain ⟨counts, hcounts, die, hdie, hrepeated⟩ := ha
    refine ⟨counts, die, hcounts, hdie, fun v hv => ?_⟩
    obtain ⟨B, hB, -⟩ := repeated_eq_ok.mp hrepeated
    obtain ⟨-, hbranch⟩ := copies_eq_ok.mp (hB v hv)
    have hselector : die.keep? = p.selector? s.n := p.keep?_of_eval hdie
    rw [hB v hv, ← hbranch, Distribution.branch]
    cases hkeep : die.keep? with
    | none => rw [← hselector, hkeep]
    | some k => rw [← hselector, hkeep]

/-- Rerolled in parentheses a die is still marked, so that of two copies the higher is kept. -/
theorem evaluate_selectors_reroll :
    ∃ p : Primary, Expression.ofText "2(kh1d2 reroll 1)" = .term (.copies (.one (.number ⟨['2'], 0⟩)) p) ∧
      ∃ die : Distribution Rat, p.eval {} 0 = .ok die ∧ die.keep? = some ⟨.highest, 1⟩ ∧
        Distribution.copies {} die 2 = keepOfCopies 2 die ⟨.highest, 1⟩ 2000000 := by
  obtain ⟨d, hd⟩ := Option.isSome_iff_exists.mp
    (show (evaluate (W := Rat) {} "2(kh1d2 reroll 1)").toOption.isSome = true by decide +kernel)
  obtain ⟨e, he, hpieces, hcopies⟩ := evaluate_selectors (toOption_eq_some.mp hd)
  obtain ⟨p, htext, hmark⟩ : ∃ p : Primary,
      Expression.ofText "2(kh1d2 reroll 1)" = .term (.copies (.one (.number ⟨['2'], 0⟩)) p) ∧
        p.selector? 0 = some ⟨.highest, 1⟩ :=
    ⟨.group (.apply (.term (.one (.keep .highest ⟨['1'], 4⟩ (.die ⟨['2'], 6⟩)))) .reroll
      (.own (.one (.number ⟨['1'], 15⟩))) false .absent .absent), by with_unfolding_all rfl, by decide +kernel⟩
  obtain rfl := (Expression.ofCells_of_derives he).symm.trans htext
  obtain ⟨counts, die, hcounts, hdie, hcopies⟩ := hcopies 0 _ _ (.first .whole)
  obtain ⟨a, ha, hselector⟩ := hpieces 0 _ (.die (.first .whole))
  obtain rfl := Except.ok.inj (ha.symm.trans hdie)
  have htwo : Term.eval (W := Rat) {} 0 (.one (.number ⟨['2'], 0⟩)) = .ok (scalar 2) := rfl
  obtain rfl := Except.ok.inj (hcounts.symm.trans htwo)
  have hmem : (2, 1) ∈ (scalar 2 : Distribution Rat).numbers := by decide +kernel
  have hkept := hcopies _ hmem
  rw [hmark] at hkept
  exact ⟨p, htext, a, ha, hselector.trans hmark, hkept⟩

end Notation
end DiceLaw
