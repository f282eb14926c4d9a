import Mathlib.Data.Rat.Floor
import DiceLaw.Notation.Carving
import DiceLaw.Proofs.Listing

/-! Division of numbers in range, rounded down or up. What is computed is the quotient cut off towards zero, moved by
one where that was the wrong way; the exact quotient comes in here, and the one computed is shown to be it, rounded.
A step of one never leaves the range, for a quotient with a remainder is at most half as large as its dividend. -/
namespace DiceLaw

namespace Value

/-! ### Whole numbers -/

/-- Also with a divisor below zero. -/
theorem fdiv_eq_floor (a b : Int) : a.fdiv b = ⌊(a : Rat) / b⌋ := by
  have hpos (a : Int) (n : Nat) : a.fdiv n = ⌊(a : Rat) / n⌋ := by
    rw [Int.fdiv_eq_ediv_of_nonneg a (by omega), Rat.floor_intCast_div_natCast]
  obtain ⟨n, rfl | rfl⟩ := b.eq_nat_or_neg
  · exact hpos a n
  · rw [← Int.neg_fdiv_neg, neg_neg, hpos, Int.cast_neg, Int.cast_neg, neg_div, div_neg, Int.cast_natCast]

/-- Cutting off rounds up where the quotient is negative and has a remainder. -/
theorem floor_eq_tdiv {a b : Int} (hb : b ≠ 0) :
    ⌊(a : Rat) / b⌋ = if ¬ b ∣ a ∧ ¬ (a < 0 ↔ b < 0) then a.tdiv b - 1 else a.tdiv b := by
  rw [← fdiv_eq_floor, Int.fdiv_eq_tdiv]
  by_cases hdvd : b ∣ a
  · simp [hdvd]
  · rcases lt_or_gt_of_ne hb with hneg | hpos
    · have hsign : b.sign = -1 := Int.sign_eq_neg_one_of_neg hneg
      by_cases ha : a < 0
      · simp [hdvd, hneg, ha, hsign, not_le.mpr hneg, not_le.mpr ha]
      · simp [hdvd, hneg, ha, not_le.mpr hneg, not_lt.mp ha]
    · have hsign : b.sign = 1 := Int.sign_eq_one_of_pos hpos
      by_cases ha : a < 0
      · simp [hdvd, hpos.le, ha, hsign, not_lt.mpr hpos.le, not_le.mpr ha]
      · simp [hdvd, hpos.le, ha, not_lt.mpr hpos.le, not_lt.mp ha]

theorem ceil_eq_floor {a b : Int} (hb : b ≠ 0) :
    ⌈(a : Rat) / b⌉ = if b ∣ a then ⌊(a : Rat) / b⌋ else ⌊(a : Rat) / b⌋ + 1 := by
  have hcast : (b : Rat) ≠ 0 := Int.cast_ne_zero.mpr hb
  split
  next hdvd =>
    obtain ⟨c, rfl⟩ := hdvd
    rw [Int.cast_mul, mul_div_cancel_left₀ _ hcast, Int.ceil_intCast, Int.floor_intCast]
  next hdvd =>
    refine (Int.ceil_eq_floor_add_one_iff_notMem _).mpr ?_
    rintro ⟨c, hc⟩
    rw [eq_div_iff hcast] at hc
    exact hdvd ⟨c, by rw [mul_comm]; exact_mod_cast hc.symm⟩

/-! ### Steps of one -/

section Words
variable {a b q : Int64}

theorem mod_eq_zero_iff : a % b = 0 ↔ b.toInt ∣ a.toInt := by
  rw [← Int64.toInt_inj, Int64.toInt_mod, Int.dvd_iff_tmod_eq_zero]
  rfl

theorem lt_zero_iff : a < 0 ↔ a.toInt < 0 := Int64.lt_iff_toInt_lt

/-- Only a divisor of one or minus one makes no quotient smaller, and these leave no remainder. -/
theorem two_mul_natAbs_div_le (h : a % b ≠ 0) : 2 * (a / b).toInt.natAbs ≤ 2 ^ 63 := by
  have hdvd : ¬ b.toInt ∣ a.toInt := fun hdvd => h (mod_eq_zero_iff.mpr hdvd)
  have hone : b.toInt.natAbs ≠ 1 := fun hone => hdvd (Int.natAbs_dvd_natAbs.mp (hone ▸ one_dvd _))
  have hexact : (a / b).toInt = a.toInt.tdiv b.toInt := Int64.toInt_div_of_ne_right a b (by rintro rfl; exact hone rfl)
  have hlow := a.le_toInt
  have hhigh := a.toInt_lt
  have hhalf : 2 * (a.toInt.natAbs / b.toInt.natAbs) ≤ a.toInt.natAbs := by
    rcases Nat.eq_zero_or_pos b.toInt.natAbs with hzero | hpos
    · simp [hzero]
    · calc
        _ ≤ b.toInt.natAbs * (a.toInt.natAbs / b.toInt.natAbs) := Nat.mul_le_mul_right _ (by omega)
        _ ≤ _ := Nat.mul_div_le ..
  rw [hexact, Int.natAbs_tdiv]
  exact hhalf.trans (by omega)

theorem toInt_sub_one (h : -2 ^ 63 < q.toInt) : (q - 1).toInt = q.toInt - 1 := by
  have hhigh := q.toInt_lt
  rw [Int64.toInt_sub, show Int64.toInt 1 = 1 from rfl]
  exact Int.bmod_eq_of_le (by omega) (by omega)

theorem toInt_add_one (h : q.toInt < 2 ^ 63 - 1) : (q + 1).toInt = q.toInt + 1 := by
  have hlow := q.le_toInt
  rw [Int64.toInt_add, show Int64.toInt 1 = 1 from rfl]
  exact Int.bmod_eq_of_le (by omega) (by omega)

/-! ### Rounding -/

theorem floorQuotient?_eq_some (h : floorQuotient? a b = some q) :
    b ≠ 0 ∧ q = if ¬ b.toInt ∣ a.toInt ∧ ¬ (a.toInt < 0 ↔ b.toInt < 0) then a / b - 1 else a / b := by
  rw [floorQuotient?] at h
  split at h
  · cases h
  · next hb =>
    simp only [ne_eq, mod_eq_zero_iff, lt_zero_iff] at h
    exact ⟨hb, (Option.some.inj h).symm⟩

theorem ceilQuotient?_eq_some (h : ceilQuotient? a b = some q) :
    ∃ p, floorQuotient? a b = some p ∧ q = if b.toInt ∣ a.toInt then p else p + 1 := by
  obtain ⟨p, hp, rfl⟩ := Option.map_eq_some_iff.mp h
  refine ⟨p, hp, ?_⟩
  simp only [ne_eq, mod_eq_zero_iff, ite_not]

theorem toInt_div_sub_one (h : ¬ b.toInt ∣ a.toInt) : (a / b - 1).toInt = (a / b).toInt - 1 := by
  have hhalf := two_mul_natAbs_div_le fun hmod => h (mod_eq_zero_iff.mp hmod)
  exact toInt_sub_one (by omega)

/-- The step down is taken within the range. -/
theorem step_of_floorQuotient? (h : floorQuotient? a b = some q) :
    q = a / b ∨ q = a / b - 1 ∧ q.toInt = (a / b).toInt - 1 := by
  obtain ⟨-, hq⟩ := floorQuotient?_eq_some h
  split at hq
  next hstep => exact .inr ⟨hq, hq ▸ toInt_div_sub_one hstep.1⟩
  next => exact .inl hq

theorem toInt_floorQuotient?_add_one (h : floorQuotient? a b = some q) (hdvd : ¬ b.toInt ∣ a.toInt) :
    (q + 1).toInt = q.toInt + 1 := by
  have hhalf := two_mul_natAbs_div_le fun hmod => hdvd (mod_eq_zero_iff.mp hmod)
  refine toInt_add_one ?_
  rcases step_of_floorQuotient? h with rfl | ⟨-, hq⟩
  · omega
  · omega

/-- The step up is taken within the range. -/
theorem step_of_ceilQuotient? (h : ceilQuotient? a b = some q) :
    ∃ p, floorQuotient? a b = some p ∧ (q = p ∨ q = p + 1 ∧ q.toInt = p.toInt + 1) := by
  obtain ⟨p, hp, hq⟩ := ceilQuotient?_eq_some h
  refine ⟨p, hp, ?_⟩
  split at hq
  next => exact .inl hq
  next hdvd => exact .inr ⟨hq, hq ▸ toInt_floorQuotient?_add_one hp hdvd⟩

/-- The quotient lies outside the range. -/
def Wraps (a b : Int64) : Prop := a = Int64.minValue ∧ b = -1

instance (a b : Int64) : Decidable (Wraps a b) := inferInstanceAs (Decidable (a = Int64.minValue ∧ b = -1))

theorem toInt_div_of_not_wraps (h : ¬ Wraps a b) : (a / b).toInt = a.toInt.tdiv b.toInt := by
  by_cases ha : a = Int64.minValue
  · exact Int64.toInt_div_of_ne_right a b fun hb => h ⟨ha, hb⟩
  · exact Int64.toInt_div_of_ne_left a b ha

theorem toInt_ne_zero (h : b ≠ 0) : b.toInt ≠ 0 := fun hzero => h (Int64.toInt_inj.mp hzero)

theorem toInt_of_floorQuotient? (h : floorQuotient? a b = some q) (hin : ¬ Wraps a b) :
    q.toInt = ⌊(a.toInt : Rat) / b.toInt⌋ := by
  obtain ⟨hb, rfl⟩ := floorQuotient?_eq_some h
  rw [floor_eq_tdiv (toInt_ne_zero hb), ← toInt_div_of_not_wraps hin]
  split
  next hstep => exact toInt_div_sub_one hstep.1
  next => rfl

theorem toInt_of_ceilQuotient? (h : ceilQuotient? a b = some q) (hin : ¬ Wraps a b) :
    q.toInt = ⌈(a.toInt : Rat) / b.toInt⌉ := by
  obtain ⟨p, hp, rfl⟩ := ceilQuotient?_eq_some h
  obtain ⟨hb, -⟩ := floorQuotient?_eq_some hp
  rw [ceil_eq_floor (toInt_ne_zero hb), ← toInt_of_floorQuotient? hp hin]
  split
  next => rfl
  next hdvd => exact toInt_floorQuotient?_add_one hp hdvd

/-- Rounding up is rounding down the other way round. -/
theorem floorQuotient?_neg (h : ceilQuotient? a b = some q) (ha : a ≠ Int64.minValue) :
    floorQuotient? (-a) b = some (-q) := by
  have hlow := a.le_toInt
  have hhigh := a.toInt_lt
  have hmin : a.toInt ≠ -2 ^ 63 := fun hmin => ha (Int64.toInt_inj.mp hmin)
  have hneg : (-a).toInt = -a.toInt := by
    rw [Int64.toInt_neg]
    exact Int.bmod_eq_of_le (by omega) (by omega)
  obtain ⟨p, hp⟩ : ∃ p, floorQuotient? (-a) b = some p := by
    refine Option.ne_none_iff_exists'.mp fun hnone => ?_
    rw [ceilQuotient?_eq_none.mpr (floorQuotient?_eq_none.mp hnone)] at h
    cases h
  have hnegIn : ¬ Wraps (-a) b := fun hwraps => by
    have hleast : (-a).toInt = -2 ^ 63 := congrArg Int64.toInt hwraps.1
    omega
  have hpq : p.toInt = -q.toInt := by
    rw [toInt_of_floorQuotient? hp hnegIn, toInt_of_ceilQuotient? h fun hwraps => ha hwraps.1, hneg, Int.cast_neg,
      neg_div, Int.floor_neg]
  rw [hp]
  refine congrArg some (Int64.toInt_inj.mp ?_)
  have hpLow := p.le_toInt
  have hpHigh := p.toInt_lt
  rw [Int64.toInt_neg, ← hpq]
  exact (Int.bmod_eq_of_le (by omega) (by omega)).symm

/-- A partial function is division rounded by `round`: undefined for a divisor of zero, else exact, with the single
wrap. -/
structure IsQuotient (round : Rat → Int) (quotient? : Int64 → Int64 → Option Int64) : Prop where
  undefined : ∀ {v w}, quotient? v w = none ↔ w = 0
  exact : ∀ {v w q}, quotient? v w = some q → ¬ Wraps v w → q.toInt = round (v.toInt / w.toInt)
  wraps : quotient? Int64.minValue (-1) = some Int64.minValue

theorem isQuotient_floor : IsQuotient Int.floor floorQuotient? :=
  ⟨floorQuotient?_eq_none, toInt_of_floorQuotient?, by decide⟩

theorem isQuotient_ceil : IsQuotient Int.ceil ceilQuotient? :=
  ⟨ceilQuotient?_eq_none, toInt_of_ceilQuotient?, by decide⟩

/-- Brought back into the range, the rounded quotient is the one computed even where it wraps. -/
theorem IsQuotient.ofInt_eq {round : Rat → Int} {quotient? : Int64 → Int64 → Option Int64}
    (h : IsQuotient round quotient?) (hround : ∀ n : Int, round n = n) (hq : quotient? a b = some q) :
    .ofInt (round (a.toInt / b.toInt)) = q := by
  by_cases hin : Wraps a b
  · obtain ⟨rfl, rfl⟩ := hin
    obtain rfl := Option.some.inj (h.wraps.symm.trans hq)
    have hquotient : (Int64.minValue.toInt : Rat) / (-1 : Int64).toInt = (2 ^ 63 : Int) := by
      rw [Int64.toInt_minValue, show (-1 : Int64).toInt = -1 from rfl]
      norm_num
    rw [hquotient, hround]
    rfl
  · rw [← h.exact hq hin]
    exact Int64.ofInt_toInt q

end Words
end Value

namespace Distribution
open Table
variable {W : Type} [Weight W]

/-! ### Distributions -/

theorem isSome_pairUp?_iff {f : Int64 → Int64 → Option Int64} {d e : Distribution W} :
    (pairUp? f d e).isSome = true ↔
      ∀ v w, .number v ∈ d.table.faces → .number w ∈ e.table.faces → (f v w).isSome = true := by
  have hall : (d.numbers.all fun a => e.numbers.all fun b => (f a.1 b.1).isSome) = true ↔
      ∀ v w, .number v ∈ d.table.faces → .number w ∈ e.table.faces → (f v w).isSome = true := by
    simp only [List.all_eq_true, number_mem_faces_iff, Prod.forall, forall_exists_index, numbers]
    exact ⟨fun h v w x hv y hw => h v x hv w y hw, fun h v x hv w y hw => h v w x hv y hw⟩
  rw [← hall, pairUp?]
  split
  next h => simp [h]
  next h => simp [h]

theorem pairUp_eq_ofFaces (f : Int64 → Int64 → Int64) (d e : Distribution W) :
    pairUp f d e = ofFaces (pairEntries f d.table e.table) := by
  rw [pairUp, collectPairs_eq_addAll]
  rfl

/-- A number meets a zero in the divisor, be it of weight zero. -/
def DividesByZero (d e : Distribution W) : Prop := (∃ v, .number v ∈ d.table.faces) ∧ .number 0 ∈ e.table.faces

/-- What division comes to. Each pair of entries counts at the quotient of its numbers, rounded, and at the least number
for the single wrap. -/
structure Divides (round : Rat → Int) (d e : Distribution W) (result : Except Fault (Distribution W)) : Prop where
  refused : result = .error .divisionByZero ↔ d.DividesByZero e
  pairs : ¬ d.DividesByZero e → ∃ g, result = .ok (ofFaces (pairEntries g d.table e.table)) ∧
    ∀ v w, .number v ∈ d.table.faces → .number w ∈ e.table.faces →
      if Value.Wraps v w then g v w = Int64.minValue else (g v w).toInt = round (v.toInt / w.toInt)

theorem isSome_pairUp?_quotient_iff {round : Rat → Int} {quotient? : Int64 → Int64 → Option Int64}
    (h : Value.IsQuotient round quotient?) {d e : Distribution W} :
    (pairUp? quotient? d e).isSome = true ↔ ¬ d.DividesByZero e := by
  rw [isSome_pairUp?_iff]
  constructor
  · rintro hsome ⟨⟨v, hv⟩, hzero⟩
    have hquotient := hsome v 0 hv hzero
    rw [h.undefined.mpr rfl] at hquotient
    cases hquotient
  · intro hzero v w hv hw
    refine Option.isSome_iff_ne_none.mpr fun hnone => hzero ⟨⟨v, hv⟩, ?_⟩
    exact h.undefined.mp hnone ▸ hw

theorem divides_of_isQuotient {round : Rat → Int} {quotient? : Int64 → Int64 → Option Int64}
    (h : Value.IsQuotient round quotient?) {d e : Distribution W} {result : Except Fault (Distribution W)}
    (hresult : result = match pairUp? quotient? d e with
      | some r => .ok r
      | none => .error .divisionByZero) : Divides round d e result := by
  have hdefined := isSome_pairUp?_quotient_iff h (d := d) (e := e)
  cases hr : pairUp? quotient? d e with
  | none =>
    rw [hr] at hdefined hresult
    have hzero : d.DividesByZero e := not_not.mp fun hzero => by cases hdefined.mpr hzero
    exact ⟨⟨fun _ => hzero, fun _ => hresult⟩, fun hne => absurd hzero hne⟩
  | some r =>
    rw [hr] at hdefined hresult
    have hzero : ¬ d.DividesByZero e := hdefined.mp rfl
    refine ⟨⟨fun herror => ?_, fun h => absurd h hzero⟩,
      fun _ => ⟨fun v w => (quotient? v w).getD 0, ?_, fun v w hv hw => ?_⟩⟩
    · rw [hresult] at herror
      cases herror
    · rw [hresult, eq_pairUp_of_pairUp? hr, pairUp_eq_ofFaces]
    · have hsome := isSome_pairUp?_iff.mp (Option.isSome_of_eq_some hr) v w hv hw
      obtain ⟨q, hq⟩ := Option.isSome_iff_exists.mp hsome
      simp only [hq, Option.getD_some]
      split
      next hwraps =>
        obtain ⟨rfl, rfl⟩ := hwraps
        exact Option.some.inj (hq.symm.trans h.wraps)
      next hin => exact h.exact hq hin

/-- Division fails just where a number meets a listed zero, and counts every other pair at the exact quotient of its
numbers, rounded down or up; the least number over minus one wraps to itself. Neither step of one that corrects the
quotient cut off leaves the range, so rounding up is rounding down the other way round, and a half is the quotient by
two rounded down. -/
theorem division_rounds (d e : Distribution W) :
    Divides Int.floor d e (d.divideFloor e) ∧ Divides Int.ceil d e (d.divideCeil e) ∧
    (∀ v w q, Value.floorQuotient? v w = some q → q = v / w ∨ q = v / w - 1 ∧ q.toInt = (v / w).toInt - 1) ∧
    (∀ v w q, Value.ceilQuotient? v w = some q →
      ∃ p, Value.floorQuotient? v w = some p ∧ (q = p ∨ q = p + 1 ∧ q.toInt = p.toInt + 1)) ∧
    (∀ v w q, Value.ceilQuotient? v w = some q → ¬ Value.Wraps v w →
      q.toInt = -⌊-(v.toInt : Rat) / w.toInt⌋ ∧
      (v ≠ Int64.minValue → Value.floorQuotient? (-v) w = some (-q))) ∧
    ∃ g, Notation.halve d = .ok (ofFaces (pairEntries g d.table (scalar 2 : Distribution W).table)) ∧
      ∀ v, .number v ∈ d.table.faces → (g v 2).toInt = ⌊(v.toInt : Rat) / 2⌋ := by
  refine ⟨divides_of_isQuotient Value.isQuotient_floor rfl, divides_of_isQuotient Value.isQuotient_ceil rfl,
    fun _ _ _ => Value.step_of_floorQuotient?, fun _ _ _ => Value.step_of_ceilQuotient?, ?_, ?_⟩
  · intro v w q hq hin
    refine ⟨?_, Value.floorQuotient?_neg hq⟩
    rw [Value.toInt_of_ceilQuotient? hq hin, neg_div, Int.floor_neg, neg_neg]
  · have hfaces : (scalar 2 : Distribution W).table.faces = [.number 2] := rfl
    have hhalf : Divides Int.floor d (scalar 2) (Notation.halve d) := divides_of_isQuotient Value.isQuotient_floor rfl
    have hnonzero : ¬ d.DividesByZero (scalar 2) := fun h => by
      have hzero := h.2
      rw [hfaces] at hzero
      exact absurd hzero (by decide)
    obtain ⟨g, hresult, hg⟩ := hhalf.pairs hnonzero
    refine ⟨g, hresult, fun v hv => ?_⟩
    have hin : ¬ Value.Wraps v 2 := fun h => absurd h.2 (by decide)
    have hquotient := hg v 2 hv (by rw [hfaces]; simp)
    rw [if_neg hin] at hquotient
    exact_mod_cast hquotient

/-- The least number over minus one beside other pairs, a divisor whose zero weighs nothing, and nothing but a label to
divide. -/
theorem division_rounds_least : ∃ d e zero label : Distribution Rat,
    (∃ down up, d.divideFloor e = .ok down ∧ d.divideCeil e = .ok up ∧
      down.weight (.number Int64.minValue) = 2 ∧ up.weight (.number Int64.minValue) = 2 ∧
      down.weight (.number (-4)) = 15 ∧ up.weight (.number (-3)) = 15) ∧
    d.divideFloor zero = .error .divisionByZero ∧ d.divideCeil zero = .error .divisionByZero ∧
    ∃ r, label.divideFloor zero = .ok r := by
  let d : Distribution Rat := ofFaces [(.label "fumble", 1), (.number Int64.minValue, 2), (.number (-7), 3)]
  let e : Distribution Rat := ofFaces [(.number (-1), 1), (.number 2, 5)]
  let zero : Distribution Rat := ofFaces [(.number 0, 0), (.number 1, 1)]
  let label : Distribution Rat := ofFaces [(.label "fumble", 1)]
  have hzero : d.DividesByZero zero := ⟨⟨-7, by decide +kernel⟩, by decide +kernel⟩
  have hnonzero : ¬ d.DividesByZero e := fun h => absurd h.2 (by decide +kernel)
  have hlabel : ¬ label.DividesByZero zero := by
    rintro ⟨⟨v, hv⟩, -⟩
    have hfaces : label.table.faces = [.label "fumble"] := by decide +kernel
    simp [hfaces] at hv
  have hweights : ((d.divideFloor e).toOption.map fun r =>
      (r.weight (.number Int64.minValue), r.weight (.number (-4)))) = some (2, 15) := by decide +kernel
  have hweightsUp : ((d.divideCeil e).toOption.map fun r =>
      (r.weight (.number Int64.minValue), r.weight (.number (-3)))) = some (2, 15) := by decide +kernel
  obtain ⟨hfloor, hceil, -⟩ := division_rounds d e
  obtain ⟨hfloorZero, hceilZero, -⟩ := division_rounds d zero
  obtain ⟨_, hdown, -⟩ := hfloor.pairs hnonzero
  obtain ⟨_, hup, -⟩ := hceil.pairs hnonzero
  obtain ⟨_, hr, -⟩ := (division_rounds label zero).1.pairs hlabel
  rw [hdown] at hweights
  rw [hup] at hweightsUp
  obtain ⟨hleast, hfour⟩ := Prod.mk.inj (Option.some.inj hweights)
  obtain ⟨hleastUp, hthree⟩ := Prod.mk.inj (Option.some.inj hweightsUp)
  exact ⟨d, e, zero, label, ⟨_, _, hdown, hup, hleast, hleastUp, hfour, hthree⟩, hfloorZero.refused.mpr hzero,
    hceilZero.refused.mpr hzero, _, hr⟩

end Distribution
end DiceLaw
