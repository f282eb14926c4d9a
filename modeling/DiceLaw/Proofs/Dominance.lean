import DiceLaw.Proofs.KeptSums

/-! More copies for the same number kept. Each roll of one copy more is compared with what it shows without that
copy: the best from the top come to no less, and the best from the bottom to no more. So no number is reached less
often, or more often, and the averages follow. -/
namespace DiceLaw

/-- Whether a face shows a number of at least `t`. -/
def Face.reaches (t : Int) : Face → Bool
  | number v => t ≤ v.toInt
  | label _ => false

namespace Distribution
open Table

/-! ### Dominance -/

/-- The chance of a number of at least `t`. -/
def chanceAtLeast (t : Int) (d : Distribution Rat) : Rat :=
  ((d.outcomes.filter fun e => e.1.reaches t).map (·.2)).sum

/-- Every number is reached with no less than the other's chance, and the average is no less than the other's. -/
structure Dominates (d e : Distribution Rat) : Prop where
  chance : ∀ t, e.chanceAtLeast t ≤ d.chanceAtLeast t
  average : e.average ≤ d.average

theorem Dominates.refl (d : Distribution Rat) : d.Dominates d := ⟨fun _ => le_rfl, le_rfl⟩

theorem Dominates.trans {d e r : Distribution Rat} (h : d.Dominates e) (k : e.Dominates r) : d.Dominates r :=
  ⟨fun t => (k.chance t).trans (h.chance t), k.average.trans h.average⟩

theorem chanceAtLeast_eq_mean (t : Int) (d : Distribution Rat) :
    d.chanceAtLeast t = d.mean fun f => if f.reaches t then 1 else 0 := by
  have hfilter : d.chanceAtLeast t = (d.shares.table.filter (Face.reaches t)).integral fun _ => 1 := by
    simp only [chanceAtLeast, outcomes, integral, filter, one_mul]
  rw [hfilter, integral_filter, shares_table, integral_mapWeights_mul, mean, div_eq_mul_inv]

/-- Larger numbers are worth no less. -/
def Rising (φ : Face → Rat) : Prop := ∀ v w : Int64, v ≤ w → φ (.number v) ≤ φ (.number w)

theorem rising_amount : Rising Face.amount := by
  intro v w h
  rw [Face.amount_number, Face.amount_number]
  exact_mod_cast Int64.le_iff_toInt_le.mp h

theorem rising_reaches (t : Int) : Rising fun f => if f.reaches t then 1 else 0 := by
  intro v w h
  have hle := Int64.le_iff_toInt_le.mp h
  simp only [Face.reaches, decide_eq_true_eq]
  split
  next hv => rw [if_pos (hv.trans hle)]
  next => split <;> norm_num

theorem dominates_of_mean {d e : Distribution Rat} (h : ∀ φ, Rising φ → e.mean φ ≤ d.mean φ) : d.Dominates e where
  chance := by
    intro t
    rw [chanceAtLeast_eq_mean, chanceAtLeast_eq_mean]
    exact h _ (rising_reaches t)
  average := by
    rw [average_eq_mean, average_eq_mean]
    exact h _ rising_amount

/-! ### One more copy -/

section Copies
variable {die : Distribution Rat}

theorem ofIntClamp_mono {x y : Int} (h : x ≤ y) : Int64.ofIntClamp x ≤ Int64.ofIntClamp y := by
  rw [Int64.le_iff_toInt_le, Value.toInt_ofIntClamp, Value.toInt_ofIntClamp]
  omega

/-- What is kept of one copy more may stand before what is kept without it. -/
theorem Numeric.ahead_kept_append (h : die.Numeric) {k : Keep} {n : Nat} (hk : k.count ≤ n) {fs : List Face}
    (hfs : die.table.Shows n fs) {f : Face} (hf : f ∈ die.table.faces) :
    ∃ u w, Face.kept k fs = .number u ∧ Face.kept k (fs ++ [f]) = .number w ∧ k.ahead w u = true := by
  obtain ⟨v, rfl⟩ := h f hf
  obtain ⟨last, hlast, hscore⟩ := k.score_append_singleton (hk.trans_eq (h.length_values hfs).symm) v
  have happend : Face.values (fs ++ [.number v]) = Face.values fs ++ [v] := Face.values_append ..
  refine ⟨_, _, rfl, rfl, ?_⟩
  rw [happend]
  change k.ahead (.ofIntClamp (k.score (Face.values fs ++ [v]))) (.ofIntClamp (k.score (Face.values fs))) = true
  rw [hscore]
  rw [Keep.ahead] at hlast ⊢
  cases hd : k.direction with
  | highest =>
    simp only [hd, decide_eq_true_eq, Int64.le_iff_toInt_le] at hlast
    simpa using ofIntClamp_mono (by omega)
  | lowest =>
    simp only [hd, decide_eq_true_eq, Int64.le_iff_toInt_le] at hlast
    simpa using ofIntClamp_mono (by omega)

/-- The same rolls, read with their last copy and without it. -/
theorem Numeric.mean_keptCopies_take (h : die.Numeric) (hpos : 0 < die.total) (copies : Nat) (k : Keep)
    (φ : Face → Rat) : (keptCopies copies die k).mean φ =
      die.table.rollsMean (copies + 1) fun fs => φ (Face.kept k (fs.take copies)) := by
  rw [(h.resultOf_keptCopies copies k).mean_eq]
  exact (rollsMean_take hpos copies fun fs => φ (Face.kept k fs)).symm

variable (hdie : die.Plain) (hpos : 0 < die.total) {m copies : Nat}
include hdie hpos

theorem dominates_keptCopies_succ (hm : m ≤ copies) :
    (keptCopies (copies + 1) die ⟨.highest, m⟩).Dominates (keptCopies copies die ⟨.highest, m⟩) ∧
      (keptCopies copies die ⟨.lowest, m⟩).Dominates (keptCopies (copies + 1) die ⟨.lowest, m⟩) := by
  have hnumeric : die.Numeric := hdie.numeric
  have hroll (direction : Direction) {fs : List Face} (hfs : die.table.Shows (copies + 1) fs) :
      ∃ u w, Face.kept ⟨direction, m⟩ (fs.take copies) = .number u ∧ Face.kept ⟨direction, m⟩ fs = .number w ∧
        Keep.ahead ⟨direction, m⟩ w u = true := by
    obtain ⟨gs, hs, hgs, hhs, rfl⟩ := hfs.exists_append
    obtain ⟨f, rest, hf, hrest, rfl⟩ := shows_succ.mp hhs
    rw [hrest.eq_nil, ← hgs.1, List.take_left]
    exact hnumeric.ahead_kept_append (k := ⟨direction, m⟩) hm hgs hf
  refine ⟨dominates_of_mean fun φ hφ => ?_, dominates_of_mean fun φ hφ => ?_⟩
  · rw [hnumeric.mean_keptCopies_take hpos copies, (hnumeric.resultOf_keptCopies (copies + 1) _).mean_eq]
    refine rollsMean_mono hdie.nonneg hpos fun fs hfs => ?_
    obtain ⟨u, w, hu, hw, hahead⟩ := hroll .highest hfs
    rw [hu, hw]
    exact hφ u w (by simpa [Keep.ahead] using hahead)
  · rw [hnumeric.mean_keptCopies_take hpos copies, (hnumeric.resultOf_keptCopies (copies + 1) _).mean_eq]
    refine rollsMean_mono hdie.nonneg hpos fun fs hfs => ?_
    obtain ⟨u, w, hu, hw, hahead⟩ := hroll .lowest hfs
    rw [hu, hw]
    exact hφ w u (by simpa [Keep.ahead] using hahead)

theorem dominates_keptCopies (hm : m ≤ copies) :
    (keptCopies copies die ⟨.highest, m⟩).Dominates (keptCopies m die ⟨.highest, m⟩) ∧
      (keptCopies m die ⟨.lowest, m⟩).Dominates (keptCopies copies die ⟨.lowest, m⟩) := by
  induction copies, hm using Nat.le_induction with
  | base => exact ⟨.refl _, .refl _⟩
  | succ copies hm ih =>
    obtain ⟨hhighest, hlowest⟩ := dominates_keptCopies_succ hdie hpos hm
    exact ⟨hhighest.trans ih.1, ih.2.trans hlowest⟩

/-- Rolling more dice for the same number kept never hurts. As many as are kept are summed; more of them, kept from
the top, reach every number with no less a chance than that sum, and no less again with each further copy, and so
for the averages. Kept from the bottom it is the other way round. Nothing is asked of the range but that no sum of as
many numbers as are kept leaves it. -/
theorem keepOfCopies_more_copies (hm : m ≤ copies) {limit : UInt64}
    (hlimit : die.numbers.length ^ copies ≤ limit.toNat) (hrange : Fits m die.table) :
    ∃ high low, keepOfCopies copies die ⟨.highest, m⟩ limit = .ok high ∧
      keepOfCopies copies die ⟨.lowest, m⟩ limit = .ok low ∧
      (copies = m → high = sumOfCopies m die ∧ low = sumOfCopies m die) ∧
      high.Dominates (sumOfCopies m die) ∧ (sumOfCopies m die).Dominates low ∧
      (die.numbers.length ^ (copies + 1) ≤ limit.toNat → ∃ higher lower,
        keepOfCopies (copies + 1) die ⟨.highest, m⟩ limit = .ok higher ∧
        keepOfCopies (copies + 1) die ⟨.lowest, m⟩ limit = .ok lower ∧
        higher.Dominates high ∧ low.Dominates lower) := by
  have hsum (direction : Direction) : keptCopies m die ⟨direction, m⟩ = sumOfCopies m die :=
    Numeric.keptCopies_eq_sumOfCopies hdie.numeric hrange.heldInParts (k := ⟨direction, m⟩) le_rfl
  obtain ⟨hhighest, hlowest⟩ := dominates_keptCopies hdie hpos hm
  obtain ⟨hhigher, hlower⟩ := dominates_keptCopies_succ hdie hpos hm
  rw [hsum] at hhighest hlowest
  have hkept (direction : Direction) {n : Nat} (hfew : die.numbers.length ^ n ≤ limit.toNat) :
      keepOfCopies n die ⟨direction, m⟩ limit = .ok (keptCopies n die ⟨direction, m⟩) :=
    keepOfCopies_eq_ok.mpr ⟨⟨hfew, hrange.drawsInRange (.inl le_rfl)⟩, rfl⟩
  refine ⟨_, _, hkept _ hlimit, hkept _ hlimit, ?_, hhighest, hlowest, fun hmore => ?_⟩
  · rintro rfl
    exact ⟨hsum .highest, hsum .lowest⟩
  · exact ⟨_, _, hkept _ hmore, hkept _ hmore, hhigher, hlower⟩

end Copies

/-- Of two copies and of three the best or the worst, of a die with a negative number and one of weight zero. -/
theorem keepOfCopies_more_copies_two : ∃ die high low : Distribution Rat, die.Plain ∧ 0 < die.total ∧ 1 ≤ 2 ∧
    die.numbers.length ^ 2 ≤ (27 : UInt64).toNat ∧ die.numbers.length ^ (2 + 1) ≤ (27 : UInt64).toNat ∧
    Fits 1 die.table ∧ keepOfCopies 2 die ⟨.highest, 1⟩ 27 = .ok high ∧ keepOfCopies 2 die ⟨.lowest, 1⟩ 27 = .ok low ∧
    high.Dominates (sumOfCopies 1 die) ∧ (sumOfCopies 1 die).Dominates low ∧
    ∃ higher lower, keepOfCopies (2 + 1) die ⟨.highest, 1⟩ 27 = .ok higher ∧
      keepOfCopies (2 + 1) die ⟨.lowest, 1⟩ 27 = .ok lower ∧ higher.Dominates high ∧ low.Dominates lower := by
  let die : Distribution Rat := ofWeights [(-2, 1 / 2), (0, 0), (3, 1)]
  have hfaces : die.table.faces = [.number (-2), .number 0, .number 3] := by decide +kernel
  have hplain : die.Plain := plain_ofWeights (by norm_num)
  have hpos : 0 < die.total := by decide +kernel
  have hlimit : die.numbers.length ^ 2 ≤ (27 : UInt64).toNat := by decide +kernel
  have hmore : die.numbers.length ^ (2 + 1) ≤ (27 : UInt64).toNat := by decide +kernel
  have hrange : Fits 1 die.table := by
    intro v hv
    rw [hfaces] at hv
    obtain rfl | rfl | rfl : v = -2 ∨ v = 0 ∨ v = 3 := by simpa using hv
    all_goals exact ⟨by decide, by decide⟩
  obtain ⟨high, low, hhigh, hlow, -, habove, hbelow, hthree⟩ :=
    keepOfCopies_more_copies hplain hpos (show 1 ≤ 2 by decide) hlimit hrange
  exact ⟨die, high, low, hplain, hpos, by decide, hlimit, hmore, hrange, hhigh, hlow, habove, hbelow, hthree hmore⟩

end Distribution
end DiceLaw
