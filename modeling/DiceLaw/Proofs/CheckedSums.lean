import Mathlib.Algebra.BigOperators.Fin
import DiceLaw.Proofs.Selection

/-! Sums that are checked number by number. One may leave the range on its way and come back, so it is not enough that
the true sum is within it. But what is kept of a roll is sorted, and once its sum has left the range, a roll that goes
on with the same number stays outside. So over all rolls of some numbers it is enough to look at true sums. -/
namespace DiceLaw

namespace Value

theorem InRange.toInt_ofIntClamp {x : Int} (h : InRange x) : (Int64.ofIntClamp x).toInt = x :=
  Int64.toInt_ofIntClamp h.1 h.2

theorem inRange_toInt (v : Int64) : InRange v.toInt := ⟨v.minValue_le_toInt, v.toInt_le⟩

theorem add?_eq_some_iff {a b v : Int64} :
    add? a b = some v ↔ InRange (a.toInt + b.toInt) ∧ v.toInt = a.toInt + b.toInt := by
  have hsum (h : InRange (a.toInt + b.toInt)) : (a + b).toInt = a.toInt + b.toInt := by
    have hmin : Int64.minValue.toInt = -9223372036854775808 := by decide
    have hmax : Int64.maxValue.toInt = 9223372036854775807 := by decide
    rw [InRange, hmin, hmax] at h
    rw [Int64.toInt_add]
    exact Int.bmod_eq_of_le (by omega) (by omega)
  rw [add?]
  split
  next h => rw [Option.some_inj, ← Int64.toInt_inj, hsum h, and_iff_right h, eq_comm]
  next h => simp [h]

/-- A sum that stays within the range on its way is the true one. -/
theorem foldlM_add?_eq_some_iff {vs : List Int64} {start v : Int64} :
    vs.foldlM add? start = some v ↔
      (∀ us, us <+: vs → InRange (start.toInt + (us.map Int64.toInt).sum)) ∧
        v.toInt = start.toInt + (vs.map Int64.toInt).sum := by
  induction vs generalizing start with
  | nil =>
    simp [inRange_toInt, ← Int64.toInt_inj, eq_comm]
  | cons b vs ih =>
    simp only [List.foldlM_cons, Option.bind_eq_bind, Option.bind_eq_some_iff, add?_eq_some_iff, ih,
      List.prefix_cons_iff]
    constructor
    · rintro ⟨c, ⟨hc, hsum⟩, hall, hv⟩
      rw [hsum] at hall hv
      refine ⟨?_, by rw [hv, List.map_cons, List.sum_cons, add_assoc]⟩
      rintro us (rfl | ⟨us, rfl, hus⟩)
      · simpa using inRange_toInt start
      · rw [List.map_cons, List.sum_cons, ← add_assoc]
        exact hall us hus
    · rintro ⟨hall, hv⟩
      have hone : InRange (start.toInt + b.toInt) := by
        simpa using hall [b] (.inr ⟨[], rfl, List.nil_prefix⟩)
      obtain ⟨c, hc⟩ : ∃ c, add? start b = some c := ⟨_, if_pos hone⟩
      obtain ⟨-, hsum⟩ := add?_eq_some_iff.mp hc
      refine ⟨c, ⟨hone, hsum⟩, fun us hus => ?_, ?_⟩
      · rw [hsum, add_assoc, ← List.sum_cons, ← List.map_cons]
        exact hall (b :: us) (.inr ⟨us, rfl, hus⟩)
      · rw [hsum, hv, List.map_cons, List.sum_cons, add_assoc]

theorem sum?_eq_some_iff {vs : List Int64} {v : Int64} :
    sum? vs = some v ↔ (∀ us, us <+: vs → InRange (us.map Int64.toInt).sum) ∧ v.toInt = (vs.map Int64.toInt).sum := by
  rw [sum?, foldlM_add?_eq_some_iff]
  simp only [Int64.toInt_zero, zero_add]

theorem sum?_of_inRange {vs : List Int64} (h : ∀ us, us <+: vs → InRange (us.map Int64.toInt).sum) :
    sum? vs = some (.ofIntClamp (vs.map Int64.toInt).sum) :=
  sum?_eq_some_iff.mpr ⟨h, (h vs (List.prefix_refl vs)).toInt_ofIntClamp⟩

/-- The first number that takes a sum out of the range. -/
theorem exists_append_of_not_inRange {us : List Int64} (h : ¬ InRange (us.map Int64.toInt).sum) :
    ∃ ws v, ws ++ [v] <+: us ∧ InRange (ws.map Int64.toInt).sum ∧ ¬ InRange ((ws.map Int64.toInt).sum + v.toInt) := by
  induction us using List.reverseRecOn with
  | nil => exact absurd (by decide) h
  | append_singleton us v ih =>
    by_cases hus : InRange (us.map Int64.toInt).sum
    · exact ⟨us, v, List.prefix_refl _, hus, by simpa using h⟩
    · obtain ⟨ws, w, hprefix, hws⟩ := ih hus
      exact ⟨ws, w, hprefix.trans (List.prefix_append us [v]), hws⟩

/-- Further out than the number that left the range there is none within it. -/
theorem not_inRange_add_mul {s v : Int} (hs : InRange s) (h : ¬ InRange (s + v)) {n : Nat} (hn : 0 < n) :
    ¬ InRange (s + n * v) := by
  have hone : (1 : Int) ≤ n := by exact_mod_cast hn
  simp only [InRange, not_and_or, not_le] at hs h ⊢
  rcases h with h | h
  · have hv : n * v ≤ 1 * v := Int.mul_le_mul_of_nonpos_right hone (by omega)
    omega
  · have hv : 1 * v ≤ n * v := Int.mul_le_mul_of_nonneg_right hone (by omega)
    omega

end Value

namespace Keep

/-- The sum of the best numbers, however large. -/
def score (k : Keep) (vs : List Int64) : Int := ((k.best vs).map Int64.toInt).sum

theorem mem_of_mem_best {k : Keep} {vs : List Int64} {v : Int64} (h : v ∈ k.best vs) : v ∈ vs :=
  List.mem_mergeSort.mp (List.mem_of_mem_take h)

theorem best_pairwise (k : Keep) (vs : List Int64) : (k.best vs).Pairwise (k.ahead · · = true) :=
  (List.pairwise_mergeSort k.ahead_trans k.ahead_total vs).sublist (List.take_sublist ..)

theorem best_eq_take_of_pairwise (k : Keep) {vs : List Int64} (h : vs.Pairwise (k.ahead · · = true)) :
    k.best vs = vs.take k.count := by
  rw [best, ← k.eq_mergeSort h (.refl vs)]

/-- Where the sum of the best leaves the range on its way, some roll of the same numbers ends outside of it: the one
that goes on with the number at which the range was left. -/
theorem exists_not_inRange_score (k : Keep) {vs : List Int64} (h : Value.sum? (k.best vs) = none) :
    ∃ ws : List Int64, ws.length = vs.length ∧ (∀ w ∈ ws, w ∈ vs) ∧ ¬ Value.InRange (k.score ws) := by
  obtain ⟨us, hus, hout⟩ : ∃ us, us <+: k.best vs ∧ ¬ Value.InRange (us.map Int64.toInt).sum := by
    by_contra hall
    push Not at hall
    rw [Value.sum?_of_inRange hall] at h
    cases h
  obtain ⟨front, v, hprefix, hin, hout⟩ := Value.exists_append_of_not_inRange hout
  have hbest : front ++ [v] <+: k.best vs := hprefix.trans hus
  have hroom : front.length < min k.count vs.length := by
    have := hbest.length_le
    rw [length_best, List.length_append, List.length_singleton] at this
    omega
  let ws := front ++ List.replicate (vs.length - front.length) v
  have hsorted : ws.Pairwise (k.ahead · · = true) := by
    obtain ⟨hfront, -, hv⟩ := List.pairwise_append.mp ((k.best_pairwise vs).sublist hbest.sublist)
    have hself : k.ahead v v = true := by simpa using k.ahead_total v v
    refine List.pairwise_append.mpr ⟨hfront, List.pairwise_replicate.mpr (.inr hself), fun a ha b hb => ?_⟩
    rw [List.eq_of_mem_replicate hb]
    exact hv a ha v (List.mem_singleton_self v)
  have hscore : k.score ws = (front.map Int64.toInt).sum + (min k.count vs.length - front.length : Nat) * v.toInt := by
    rw [score, k.best_eq_take_of_pairwise hsorted, List.take_append, List.take_of_length_le (by omega),
      List.take_replicate, List.map_append, List.sum_append, List.map_replicate, List.sum_replicate, nsmul_eq_mul]
    congr 3
    omega
  refine ⟨ws, ?_, fun w hw => ?_, ?_⟩
  · rw [List.length_append, List.length_replicate]
    omega
  · refine mem_of_mem_best (hbest.subset ?_)
    rcases List.mem_append.mp hw with hw | hw
    · exact List.mem_append_left _ hw
    · rw [List.eq_of_mem_replicate hw]
      simp
  · rw [hscore]
    exact Value.not_inRange_add_mul hin hout (by omega)

/-- A single number is always within the range. -/
theorem inRange_score_of_count_le_one {k : Keep} (h : k.count ≤ 1) (vs : List Int64) : Value.InRange (k.score vs) := by
  have hlength : (k.best vs).length ≤ 1 := by
    rw [length_best]
    exact (Nat.min_le_left ..).trans h
  rw [score]
  match k.best vs, hlength with
  | [], _ => decide
  | [v], _ => simpa using Value.inRange_toInt v

end Keep
end DiceLaw
