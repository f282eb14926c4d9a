import DiceLaw.Proofs.Average

/-! What is kept of a roll and what is dropped. The numbers dropped from the top are those kept from the bottom, and
one more number can only take the place of the last one kept. So much holds of every single roll, and from there it
passes to averages. -/
namespace DiceLaw

/-! ### Single rolls -/

namespace Keep

/-- Sorted for the lowest, numbers stand the other way round. -/
theorem mergeSort_lowest (m n : Nat) (vs : List Int64) :
    vs.mergeSort (ahead ⟨.lowest, m⟩) = (vs.mergeSort (ahead ⟨.highest, n⟩)).reverse := by
  refine (eq_mergeSort ⟨.lowest, m⟩ ?_ ((List.reverse_perm _).trans (List.mergeSort_perm vs _))).symm
  rw [List.pairwise_reverse]
  exact List.pairwise_mergeSort (ahead_trans ⟨.highest, n⟩) (ahead_total _) vs

/-- What is not kept from the top is kept from the bottom. -/
theorem score_highest_add_lowest {m : Nat} {vs : List Int64} (h : m ≤ vs.length) :
    score ⟨.highest, m⟩ vs + score ⟨.lowest, vs.length - m⟩ vs = (vs.map Int64.toInt).sum := by
  let sorted := vs.mergeSort (ahead ⟨.highest, m⟩)
  have hlength : sorted.length = vs.length := List.length_mergeSort _
  have hdropped : best ⟨.lowest, vs.length - m⟩ vs = (sorted.drop m).reverse := by
    rw [best, mergeSort_lowest _ m, List.take_reverse, hlength, Nat.sub_sub_self h]
  have hkept : best ⟨.highest, m⟩ vs = sorted.take m := rfl
  rw [score, score, hkept, hdropped, List.map_reverse, List.sum_reverse, ← List.sum_append, ← List.map_append,
    List.take_append_drop]
  exact ((List.mergeSort_perm vs _).map _).sum_eq

/-- Where enough numbers are there, one more takes the place of the last, which it may stand before. -/
theorem score_append_singleton (k : Keep) {vs : List Int64} (h : k.count ≤ vs.length) (v : Int64) :
    ∃ last, k.ahead v last = true ∧ k.score (vs ++ [v]) = k.score vs + v.toInt - last.toInt := by
  have hlength : (k.insert (k.best vs) v).length = k.count + 1 := by
    rw [(k.insert_perm _ v).length_eq, List.length_cons, length_best, Nat.min_eq_left h]
  have hbest : k.best (vs ++ [v]) = (k.insert (k.best vs) v).take k.count := by
    rw [← select_best, select_eq_take]
  have hsorted : (k.insert (k.best vs) v).Pairwise (k.ahead · · = true) :=
    k.insert_pairwise v (k.best_pairwise vs)
  obtain ⟨last, hlast⟩ : ∃ last, (k.insert (k.best vs) v).drop k.count = [last] :=
    List.length_eq_one_iff.mp (by rw [List.length_drop, hlength]; omega)
  have hsplit : k.insert (k.best vs) v = k.best (vs ++ [v]) ++ [last] := by
    rw [hbest, ← hlast, List.take_append_drop]
  refine ⟨last, ?_, ?_⟩
  · have hv : v ∈ k.best (vs ++ [v]) ++ [last] := hsplit ▸ (k.insert_perm _ v).mem_iff.mpr (by simp)
    rw [hsplit] at hsorted
    rcases List.mem_append.mp hv with hv | hv
    · exact (List.pairwise_append.mp hsorted).2.2 v hv last (by simp)
    · rw [List.mem_singleton.mp hv]
      simpa using k.ahead_total last last
  · have hsum := ((k.insert_perm (k.best vs) v).map Int64.toInt).sum_eq
    rw [hsplit, List.map_append, List.sum_append, List.map_cons, List.sum_cons] at hsum
    simp only [List.map_cons, List.map_nil, List.sum_cons, List.sum_nil] at hsum
    rw [score, score]
    omega

end Keep

namespace Distribution
open Table
variable {die : Distribution Rat}

theorem Numeric.length_values (h : die.Numeric) {n : Nat} {fs : List Face} (hfs : die.table.Shows n fs) :
    (Face.values fs).length = n := by
  rw [Face.values, List.filterMap_length_eq_length.mpr, hfs.1]
  intro f hf
  obtain ⟨v, rfl⟩ := h f (hfs.2 f hf)
  rfl

/-! ### Averages -/

theorem Fits.amount_kept {n : Nat} (h : Fits n die.table) {fs : List Face} (hfs : die.table.Shows n fs) (k : Keep) :
    (Face.kept k fs).amount = k.score (Face.values fs) := by
  have hlength : (k.best (Face.values fs)).length ≤ n := by
    rw [Keep.length_best]
    exact (Nat.min_le_right ..).trans ((List.length_filterMap_le ..).trans_eq hfs.1)
  have hrange := h.inRange_sum hlength fun v hv => hfs.2 _ (Face.mem_values.mp (Keep.mem_of_mem_best hv))
  rw [Face.kept, Face.amount_number, hrange.toInt_ofIntClamp, Keep.score]

theorem Numeric.average_keptCopies (hdie : die.Numeric) {copies : Nat} (h : Fits copies die.table) (k : Keep) :
    (keptCopies copies die k).average =
      die.table.rollsMean copies fun fs => (k.score (Face.values fs) : Rat) := by
  rw [average_eq_mean, (hdie.resultOf_keptCopies copies k).mean_eq]
  exact rollsMean_congr fun fs hfs => h.amount_kept hfs k

/-- The average of what is kept of several copies from the top and the average of the rest, kept from the bottom, are
together the average of all: as many times that of one. -/
theorem average_kept_add_dropped (hdie : die.Numeric) (hpos : 0 < die.total) {copies m : Nat} (hm : m ≤ copies)
    {limit : UInt64} (hlimit : die.numbers.length ^ copies ≤ limit.toNat)
    (hrange : ∀ v, .number v ∈ die.table.faces → |v.toInt| * copies ≤ Int64.maxValue.toInt) :
    ∃ kept dropped, keepOfCopies copies die ⟨.highest, m⟩ limit = .ok kept ∧
      keepOfCopies copies die ⟨.lowest, copies - m⟩ limit = .ok dropped ∧
      kept.average + dropped.average = copies * die.average ∧
      copies * die.average = (sumOfCopies copies die).average := by
  have hfits := fits_of_abs hrange
  have hkept (k : Keep) : keepOfCopies copies die k limit = .ok (keptCopies copies die k) :=
    keepOfCopies_eq_ok.mpr ⟨⟨hlimit, hfits.drawsInRange (.inr le_rfl)⟩, rfl⟩
  refine ⟨_, _, hkept _, hkept _, ?_, (average_sumOfCopies hdie hpos hfits).symm⟩
  rw [hdie.average_keptCopies hfits, hdie.average_keptCopies hfits, ← rollsMean_add,
    ← rollsMean_sum_eq_average hpos]
  refine rollsMean_congr fun fs hfs => ?_
  have hvalues := hdie.length_values hfs
  have hscores := Keep.score_highest_add_lowest (hvalues.symm ▸ hm)
  rw [hvalues] at hscores
  exact_mod_cast hscores

/-- Three copies of a die with a negative number and one of weight zero, of which the best is kept. -/
theorem average_kept_add_dropped_three : ∃ die kept dropped : Distribution Rat,
    die.Numeric ∧ 0 < die.total ∧ die.numbers.length ^ 3 ≤ (27 : UInt64).toNat ∧
    (∀ v, .number v ∈ die.table.faces → |v.toInt| * (3 : Nat) ≤ Int64.maxValue.toInt) ∧
    keepOfCopies 3 die ⟨.highest, 1⟩ 27 = .ok kept ∧ keepOfCopies 3 die ⟨.lowest, 3 - 1⟩ 27 = .ok dropped ∧
    die.average = 4 / 3 ∧ kept.average + dropped.average = (3 : Nat) * die.average ∧
    (3 : Nat) * die.average = (sumOfCopies 3 die).average := by
  let die : Distribution Rat := ofWeights [(-2, 1 / 2), (0, 0), (3, 1)]
  have hfaces : die.table.faces = [.number (-2), .number 0, .number 3] := by decide +kernel
  have hnumeric : die.Numeric := (plain_ofWeights (by norm_num)).numeric
  have hlimit : die.numbers.length ^ 3 ≤ (27 : UInt64).toNat := by decide +kernel
  have hrange : ∀ v, .number v ∈ die.table.faces → |v.toInt| * (3 : Nat) ≤ Int64.maxValue.toInt := by
    intro v hv
    rw [hfaces] at hv
    obtain rfl | rfl | rfl : v = -2 ∨ v = 0 ∨ v = 3 := by simpa using hv
    all_goals decide
  have hpos : 0 < die.total := by decide +kernel
  obtain ⟨kept, dropped, hkept, hdropped, hsplit, hall⟩ :=
    average_kept_add_dropped hnumeric hpos (show 1 ≤ 3 by decide) hlimit hrange
  exact ⟨die, kept, dropped, hnumeric, hpos, hlimit, hrange, hkept, hdropped, by decide +kernel, hsplit, hall⟩

end Distribution
end DiceLaw
