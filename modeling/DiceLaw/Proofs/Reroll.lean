import Mathlib.Algebra.BigOperators.Field
import DiceLaw.Proofs.Average

/-! Rerolling in closed form. Faces are counted and not weighed: every face keeps one copy of those that are no
targets, and every target adds a copy of all. On a fair die this is one roll, made once more after a target. -/
namespace DiceLaw.Distribution
open Table

/-! ### Targets met -/

theorem length_faces (t : Table Rat) : t.faces.length = t.size := List.length_map _

/-- The faces that are rerolled. -/
def hits (d targets : Distribution Rat) : Finset Face := d.table.faces.toFinset.filter (· ∈ targets.table.faces)

theorem length_filter_contains (d targets : Distribution Rat) :
    (d.table.faces.filter targets.table.contains).length = (d.hits targets).card := by
  rw [← List.toFinset_card_of_nodup (d.table.nodup_faces.filter _)]
  apply congrArg Finset.card
  ext f
  simp only [hits, List.mem_toFinset, List.mem_filter, Finset.mem_filter, contains_iff]

/-- The sum of a function of the faces over those that are rerolled. -/
theorem integral_hits (d targets : Distribution Rat) (φ : Face → Rat) :
    (d.table.integral fun f => if f ∈ targets.table.faces then φ f else 0) =
      ∑ f ∈ d.hits targets, φ f * d.weight f := by
  rw [d.table.integral_eq_sum _ (s := d.table.faces.toFinset) (by simp), hits, Finset.sum_filter]
  exact Finset.sum_congr rfl fun f _ => by rw [ite_mul, zero_mul]; rfl

/-- Those that stay are all but the targets. -/
theorem integral_without_targets (d targets : Distribution Rat) (φ : Face → Rat) :
    (d.table.without targets.table).integral φ =
      d.table.integral φ - ∑ f ∈ d.hits targets, φ f * d.weight f := by
  rw [eq_sub_iff_add_eq, ← integral_hits, integral_without, ← integral_add]
  apply congrArg d.table.integral
  funext f
  by_cases hf : f ∈ targets.table.faces
  · rw [if_pos (contains_iff.mpr hf), if_pos hf, zero_add]
  · rw [if_neg (mt contains_iff.mp hf), if_neg hf, add_zero]

/-! ### The closed form -/

theorem weight_reroll (d targets : Distribution Rat) (f : Face) :
    (d.reroll targets).weight f =
      (d.table.size * (if f ∈ targets.table.faces then 0 else 1) + (d.hits targets).card) * d.weight f := by
  have hkept : (d.table.without targets.table).weight f =
      (if f ∈ targets.table.faces then 0 else 1) * d.weight f := by
    rw [weight_without, ite_mul, zero_mul, one_mul]
    exact if_congr contains_iff rfl rfl
  rw [weight_eq_integral, integral_reroll, ← Table.weight_eq_integral, ← Table.weight_eq_integral, hkept,
    length_filter_contains, length_faces, add_mul, mul_assoc]
  rfl

theorem total_reroll (d targets : Distribution Rat) :
    (d.reroll targets).total =
      d.table.size * (d.total - ∑ f ∈ d.hits targets, d.weight f) + (d.hits targets).card * d.total := by
  rw [total_eq_integral, integral_reroll, integral_without_targets, length_filter_contains, ← total_eq_integral,
    length_faces]
  simp only [one_mul]

/-! ### One roll, made once more after a target -/

/-- The chance of a face if one roll is made, and another one in its place after a target. -/
def chanceRolledAgain (d targets : Distribution Rat) (f : Face) : Rat :=
  d.mean fun g => if g ∈ targets.table.faces then d.chance f else if g = f then 1 else 0

theorem chanceRolledAgain_eq (d targets : Distribution Rat) (f : Face) :
    d.chanceRolledAgain targets f = d.chance f * (if f ∈ targets.table.faces then 0 else 1) +
      (∑ g ∈ d.hits targets, d.chance g) * d.chance f := by
  have hsplit : (fun g => if g ∈ targets.table.faces then d.chance f else if g = f then 1 else 0) =
      fun g => (if g ∈ targets.table.faces then d.chance f else 0) +
        if g = f then (if f ∈ targets.table.faces then 0 else 1) else 0 := by
    funext g
    by_cases hg : g = f
    · subst hg
      split <;> simp
    · simp [hg]
  have hfirst (g : Face) : d.chance f * d.weight g / d.total = d.chance g * d.chance f := by
    rw [chance_eq d g]
    ring
  rw [chanceRolledAgain, mean, hsplit, integral_add, integral_ite_eq, integral_hits, add_div, Finset.sum_div,
    Finset.sum_congr rfl fun g _ => hfirst g, ← Finset.sum_mul, mul_div_assoc, add_comm, mul_comm]
  rw [show d.table.weight f / d.total = d.chance f from (chance_eq d f).symm]

section Fair
variable {d : Distribution Rat} {w : Rat} (hfair : ∀ f ∈ d.table.faces, d.weight f = w)
include hfair

theorem total_of_fair : d.total = d.table.size * w := by
  have hsum : (d.table.faces.map fun f => d.weight f).sum = d.total := by
    rw [total, Table.total, Weight.sum_eq_sum, faces, List.map_map]
    exact congrArg List.sum (List.map_congr_left fun e he => weight_of_mem he)
  rw [← hsum, List.map_congr_left hfair, List.map_const', List.sum_replicate, nsmul_eq_mul,
    length_faces]

theorem sum_hits_of_fair (targets : Distribution Rat) :
    ∑ f ∈ d.hits targets, d.weight f = (d.hits targets).card * w := by
  have hmember : ∀ f ∈ d.hits targets, d.weight f = w := by
    intro f hf
    exact hfair f (List.mem_toFinset.mp (Finset.mem_filter.mp hf).1)
  rw [Finset.sum_congr rfl hmember, Finset.sum_const, nsmul_eq_mul]

/-- As many faces as the die has, counted for each of them. -/
theorem total_reroll_of_fair (targets : Distribution Rat) :
    (d.reroll targets).total = d.table.size * d.total := by
  rw [total_reroll, sum_hits_of_fair hfair, total_of_fair hfair]
  ring

theorem chance_reroll_of_fair (hw : 0 < w) (targets : Distribution Rat) (f : Face) :
    (d.reroll targets).chance f = d.chanceRolledAgain targets f := by
  have hhits : ∑ g ∈ d.hits targets, d.chance g = (d.hits targets).card * w / d.total := by
    simp only [chance_eq]
    rw [← Finset.sum_div, sum_hits_of_fair hfair]
  rw [chanceRolledAgain_eq, hhits, chance_eq, chance_eq, weight_reroll, total_reroll_of_fair hfair,
    total_of_fair hfair]
  by_cases hempty : (d.table.size : Rat) = 0
  · rw [hempty]
    simp
  · field_simp

end Fair

/-- Where no face is a target, all are counted alike. -/
theorem chance_reroll_of_disjoint {d targets : Distribution Rat}
    (h : ∀ f ∈ d.table.faces, f ∉ targets.table.faces) (f : Face) :
    (d.reroll targets).chance f = d.chance f := by
  have hnone : d.hits targets = ∅ := Finset.filter_eq_empty_iff.mpr fun g hg => h g (List.mem_toFinset.mp hg)
  rw [chance_eq, chance_eq, weight_reroll, total_reroll, hnone, Finset.sum_empty, Finset.card_empty, Nat.cast_zero,
    zero_mul, add_zero, add_zero, sub_zero]
  by_cases hf : f ∈ d.table.faces
  · have hsize : (d.table.size : Rat) ≠ 0 := by
      have hlength := List.length_pos_of_mem hf
      rw [length_faces] at hlength
      exact Nat.cast_ne_zero.mpr hlength.ne'
    rw [if_neg (h f hf), mul_one, mul_div_mul_left _ _ hsize]
  · have hzero : d.weight f = 0 := weight_eq_zero hf
    rw [hzero, mul_zero, zero_div, zero_div]

/-- A reroll keeps the faces and the note, and weighs a face as often as the die has faces unless it is a target,
and once more for each face that is one. On a fair die this is the law of one roll, made once more after a target;
on any die it changes no chance if no face is a target. -/
theorem reroll_closed_form (d targets : Distribution Rat) :
    ((d.reroll targets).table.faces = d.table.faces ∧ (d.reroll targets).note = d.note ∧
      ∀ f, (d.reroll targets).weight f =
        (d.table.size * (if f ∈ targets.table.faces then 0 else 1) + (d.hits targets).card) * d.weight f) ∧
    (∀ w, 0 < w → (∀ f ∈ d.table.faces, d.weight f = w) → ∀ f,
      (d.reroll targets).chance f = d.chanceRolledAgain targets f ∧
      (d.reroll targets).chance f = d.chance f * (if f ∈ targets.table.faces then 0 else 1) +
        (∑ g ∈ d.hits targets, d.chance g) * d.chance f) ∧
    ((∀ f ∈ d.table.faces, f ∉ targets.table.faces) → ∀ f, (d.reroll targets).chance f = d.chance f) := by
  refine ⟨⟨?_, rfl, weight_reroll d targets⟩, ?_, chance_reroll_of_disjoint⟩
  · exact faces_eq_of_mem_iff (mem_faces_reroll d targets)
  · intro w hw hfair f
    have hagain := chance_reroll_of_fair hfair hw targets f
    exact ⟨hagain, hagain.trans (chanceRolledAgain_eq d targets f)⟩

/-- A die with a label among its four faces: a one is made again, and a seven is none of its faces. -/
theorem reroll_closed_form_four_faces :
    ∃ d : Distribution Rat, d.table.size = 4 ∧ (∀ f ∈ d.table.faces, d.weight f = 2) ∧
      (∀ f ∈ d.table.faces, f ∉ (scalar 7 : Distribution Rat).table.faces) ∧
      (d.reroll (scalar 1)).chance (.number 1) = 1 / 16 ∧
      (d.reroll (scalar 1)).chance (.label "fumble") = 5 / 16 ∧
      (d.reroll (scalar 7)).chance (.number 1) = 1 / 4 := by
  let d : Distribution Rat := ofFaces [(.label "fumble", 2), (.number 1, 2), (.number 2, 2), (.number 3, 2)]
  have hfair : ∀ f ∈ d.table.faces, d.weight f = 2 := by decide +kernel
  have hdisjoint : ∀ f ∈ d.table.faces, f ∉ (scalar 7 : Distribution Rat).table.faces := by decide +kernel
  have hlaw (f : Face) := ((reroll_closed_form d (scalar 1)).2.1 2 (by norm_num) hfair f).1
  refine ⟨d, rfl, hfair, hdisjoint, ?_, ?_, ?_⟩
  · exact (hlaw _).trans (by decide +kernel)
  · exact (hlaw _).trans (by decide +kernel)
  · exact ((reroll_closed_form d (scalar 7)).2.2 hdisjoint _).trans (by decide +kernel)

end DiceLaw.Distribution
