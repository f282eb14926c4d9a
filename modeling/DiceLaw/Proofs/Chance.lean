import Mathlib.Algebra.Order.BigOperators.Group.Finset
import Mathlib.Algebra.Order.Field.Rat
import Mathlib.Tactic.FieldSimp
import Mathlib.Tactic.Linarith
import Mathlib.Tactic.Positivity
import DiceLaw.Distribution.Readout
import DiceLaw.Operator
import DiceLaw.Proofs.Integral

/-! Distributions with exact weights: the chance of a face, and what each operation does to sums over the
faces. Two rolls joined by a function of their numbers are an integral over an integral. -/
namespace DiceLaw
open Table

namespace Distribution

/-! ### Chances -/

/-- The share of a face in the total, zero when that is. -/
def chance (d : Distribution Rat) (f : Face) : Rat := d.shares.weight f

/-- No face has a weight below zero. -/
def Nonneg (d : Distribution Rat) : Prop := ∀ f, 0 ≤ d.weight f

theorem shares_table (d : Distribution Rat) : d.shares.table = d.table.mapWeights (· * (d.total)⁻¹) := by
  have h : (fun w => if d.total == 0 then 0 else w / d.total) = (· * (d.total)⁻¹) := by
    funext w
    by_cases ht : d.total = 0 <;> simp [ht, div_eq_mul_inv]
  rw [shares]
  simp only [h]

theorem chance_eq (d : Distribution Rat) (f : Face) : d.chance f = d.weight f / d.total := by
  rw [chance, weight, shares_table, weight_mapWeights_mul, div_eq_mul_inv]
  rfl

theorem total_eq_integral (d : Distribution Rat) : d.total = d.table.integral fun _ => 1 :=
  d.table.total_eq_integral

theorem weight_eq_integral (d : Distribution Rat) (f : Face) :
    d.weight f = d.table.integral fun g => if g = f then 1 else 0 := Table.weight_eq_integral d.table f

theorem Nonneg.integral_nonneg {d : Distribution Rat} (h : d.Nonneg) {φ : Face → Rat} (hφ : ∀ f, 0 ≤ φ f) :
    0 ≤ d.table.integral φ := by
  rw [d.table.integral_eq_sum φ (s := d.table.faces.toFinset) (by simp)]
  exact Finset.sum_nonneg fun f _ => mul_nonneg (hφ f) (h f)

theorem Nonneg.total_nonneg {d : Distribution Rat} (h : d.Nonneg) : 0 ≤ d.total := by
  rw [total_eq_integral]
  exact h.integral_nonneg fun _ => zero_le_one

theorem nonneg_of_entries {d : Distribution Rat} (h : ∀ e ∈ d.table.entries, 0 ≤ e.2) : d.Nonneg := by
  intro f
  by_cases hf : f ∈ d.table.faces
  · obtain ⟨e, he, rfl⟩ := List.mem_map.mp hf
    rw [weight, Table.weight_of_mem he]
    exact h e he
  · exact (Table.weight_eq_zero hf).ge

/-- Without weight in total no face has any. -/
theorem Nonneg.weight_eq_zero {d : Distribution Rat} (h : d.Nonneg) (ht : d.total = 0) (f : Face) :
    d.weight f = 0 := by
  by_cases hf : f ∈ d.table.faces
  · rw [total_eq_integral, d.table.integral_eq_sum _ (s := d.table.faces.toFinset) (by simp)] at ht
    have hz := (Finset.sum_eq_zero_iff_of_nonneg fun g _ => mul_nonneg zero_le_one (h g)).mp ht f (by simpa using hf)
    simpa using hz
  · exact Table.weight_eq_zero hf

theorem integral_eq_zero {d : Distribution Rat} (h : ∀ f, d.weight f = 0) (φ : Face → Rat) :
    d.table.integral φ = 0 := by
  rw [← integral_empty φ]
  exact integral_congr φ h

/-! ### Structural changes -/

@[simp] theorem weight_scale (d : Distribution Rat) (c : Rat) (f : Face) : (d.scale c).weight f = d.weight f * c :=
  weight_mapWeights_mul d.table c f

@[simp] theorem total_scale (d : Distribution Rat) (c : Rat) : (d.scale c).total = d.total * c := by
  rw [total_eq_integral, total_eq_integral]
  exact integral_mapWeights_mul _ d.table c

@[simp] theorem weight_combine (d e : Distribution Rat) (f : Face) :
    (d.combine e).weight f = e.weight f + d.weight f := weight_absorb e.table d.table f

theorem Nonneg.scale {d : Distribution Rat} (h : d.Nonneg) {c : Rat} (hc : 0 ≤ c) : (d.scale c).Nonneg :=
  fun f => weight_scale d c f ▸ mul_nonneg (h f) hc

theorem Nonneg.combine {d e : Distribution Rat} (h : d.Nonneg) (k : e.Nonneg) : (d.combine e).Nonneg :=
  fun f => weight_combine d e f ▸ add_nonneg (k f) (h f)

/-! ### Two rolls joined -/

theorem integral_comm (φ : Face → Face → Rat) (t u : Table Rat) :
    (t.integral fun a => u.integral (φ a)) = u.integral fun b => t.integral fun a => φ a b := by
  have ht (ψ : Face → Rat) := t.integral_eq_sum ψ (s := t.faces.toFinset) (by simp)
  have hu (ψ : Face → Rat) := u.integral_eq_sum ψ (s := u.faces.toFinset) (by simp)
  simp only [ht, hu, Finset.sum_mul]
  rw [Finset.sum_comm]
  exact Finset.sum_congr rfl fun b _ => Finset.sum_congr rfl fun a _ => by ring

private theorem sum_pairEntries (f : Int64 → Int64 → Int64) (φ : Face → Rat) (t u : Table Rat) :
    ((pairEntries f t u).map fun e => φ e.1 * e.2).sum =
      t.integral fun a => u.integral fun b => φ (pairFace f a b) := by
  rw [pairEntries]
  split
  · rw [Weight.sum_map_flatMap, integral]
    apply congrArg List.sum
    apply List.map_congr_left
    intro a _
    rw [List.map_map, integral, ← List.sum_map_mul_right]
    apply congrArg List.sum
    apply List.map_congr_left
    intro b _
    simp only [Function.comp_apply, pairEntry]
    ring
  · rw [integral_comm, Weight.sum_map_flatMap, integral]
    apply congrArg List.sum
    apply List.map_congr_left
    intro b _
    rw [List.map_map, integral, ← List.sum_map_mul_right]
    apply congrArg List.sum
    apply List.map_congr_left
    intro a _
    simp only [Function.comp_apply, pairEntry]
    ring

theorem integral_pairUp (f : Int64 → Int64 → Int64) (φ : Face → Rat) (d e : Distribution Rat) :
    (pairUp f d e).table.integral φ =
      d.table.integral fun a => e.table.integral fun b => φ (pairFace f a b) := by
  rw [pairUp, ofTable, collectPairs_eq_addAll, integral_ofTally_addAll, sum_pairEntries]
  exact zero_add _

/-- The faces listed with weight zero add nothing. -/
theorem integral_pairUpSeeded (f : Int64 → Int64 → Int64) (φ : Face → Rat) (d e : Distribution Rat) :
    (pairUpSeeded f d e).table.integral φ =
      d.table.integral fun a => e.table.integral fun b => φ (pairFace f a b) := by
  rw [pairUpSeeded, ofTable, collectPairs_eq_addAll, integral_ofTally_addAll, sum_pairEntries,
    integral_ofTally_addAll]
  have hseed : (ofTally (Tally.empty : Tally Rat)).integral φ = 0 := rfl
  simp [hseed]

section Quotients
variable {W : Type} [Weight W] {d e r : Distribution W}

theorem eq_pairUp_of_pairUp? {f : Int64 → Int64 → Option Int64}
    (h : pairUp? f d e = some r) : r = pairUp (fun a b => (f a b).getD 0) d e := by
  rw [pairUp?] at h
  split at h
  · exact (Option.some.inj h).symm
  · cases h

theorem divideFloor_eq_ok :
    d.divideFloor e = .ok r ↔ pairUp? Value.floorQuotient? d e = some r := by
  rw [divideFloor]
  split
  · next q hq => simp [hq]
  · next hq => simp [hq]

theorem divideCeil_eq_ok :
    d.divideCeil e = .ok r ↔ pairUp? Value.ceilQuotient? d e = some r := by
  rw [divideCeil]
  split
  · next q hq => simp [hq]
  · next hq => simp [hq]

end Quotients

/-! ### Rerolling -/

theorem integral_reroll (φ : Face → Rat) (d targets : Distribution Rat) :
    (d.reroll targets).table.integral φ =
      d.table.faces.length * (d.table.without targets.table).integral φ +
        (d.table.faces.filter targets.table.contains).length * d.table.integral φ := by
  have key (l : List Face) (t : Table Rat) :
      (l.foldl (fun t f =>
        let t := t.absorb (d.table.without targets.table)
        if targets.table.contains f then t.absorb d.table else t) t).integral φ =
        t.integral φ + l.length * (d.table.without targets.table).integral φ +
          (l.filter targets.table.contains).length * d.table.integral φ := by
    induction l generalizing t with
    | nil => simp
    | cons f l ih =>
      rw [List.foldl_cons, ih, List.filter_cons]
      split
      · simp only [integral_absorb, List.length_cons, Nat.cast_add, Nat.cast_one]
        ring
      · simp only [integral_absorb, List.length_cons, Nat.cast_add, Nat.cast_one]
        ring
  rw [reroll]
  simp only
  rw [key, integral_empty, zero_add]

end Distribution

/-! ### Operators -/

namespace Operator
open DiceLaw.Distribution

/-- Apart from the union and the reroll an operator joins two independent rolls by a function of their
numbers; a unary one joins two of the same. -/
theorem integral_apply {op : Operator} (hc : op ≠ .combine) (hr : op ≠ .reroll) {d e r : Distribution Rat}
    (h : op.apply d e = .ok r) :
    ∃ f : Int64 → Int64 → Int64, ∀ φ : Face → Rat, r.table.integral φ =
      d.table.integral fun a => (if op.isUnary then d else e).table.integral fun b => φ (pairFace f a b) := by
  cases op with
  | combine => exact absurd rfl hc
  | reroll => exact absurd rfl hr
  | divideCeil =>
    rw [eq_pairUp_of_pairUp? (divideCeil_eq_ok.mp h)]
    exact ⟨_, fun φ => integral_pairUp _ φ d e⟩
  | divideFloor =>
    rw [eq_pairUp_of_pairUp? (divideFloor_eq_ok.mp h)]
    exact ⟨_, fun φ => integral_pairUp _ φ d e⟩
  | armor => cases h; exact ⟨_, fun φ => integral_pairUpSeeded _ φ d e⟩
  | difficulty => cases h; exact ⟨_, fun φ => integral_pairUpSeeded _ φ d e⟩
  | advantage => cases h; exact ⟨_, fun φ => integral_pairUp _ φ d d⟩
  | _ => cases h; exact ⟨_, fun φ => integral_pairUp _ φ d e⟩

/-- No operator makes a weight negative. -/
theorem apply_nonneg {op : Operator} {d e r : Distribution Rat} (hd : d.Nonneg) (he : e.Nonneg)
    (h : op.apply d e = .ok r) : r.Nonneg := by
  have hstep (f g : Face) : (0 : Rat) ≤ if g = f then 1 else 0 := by split <;> norm_num
  by_cases hc : op = .combine
  · subst hc
    cases h
    exact hd.combine he
  by_cases hr : op = .reroll
  · subst hr
    cases h
    intro f
    have hkept : Nonneg ⟨d.table.without e.table, .unmarked⟩ := fun g => by
      rw [Distribution.weight, weight_without]
      split
      · exact le_rfl
      · exact hd g
    rw [Distribution.weight_eq_integral, integral_reroll]
    exact add_nonneg (mul_nonneg (Nat.cast_nonneg _) (hkept.integral_nonneg (hstep f)))
      (mul_nonneg (Nat.cast_nonneg _) (hd.integral_nonneg (hstep f)))
  · obtain ⟨k, hk⟩ := integral_apply hc hr h
    have hpartner : (if op.isUnary then d else e).Nonneg := by split <;> assumption
    intro f
    rw [Distribution.weight_eq_integral, hk]
    exact hd.integral_nonneg fun a => hpartner.integral_nonneg fun b => hstep f _

/-- Of no weight an operator other than the union makes none. -/
theorem weight_apply_eq_zero {op : Operator} (hc : op ≠ .combine) {d e r : Distribution Rat}
    (hd : ∀ f, d.weight f = 0) (h : op.apply d e = .ok r) (f : Face) : r.weight f = 0 := by
  rw [Distribution.weight_eq_integral]
  by_cases hr : op = .reroll
  · subst hr
    cases h
    rw [integral_reroll, integral_without, integral_eq_zero hd, integral_eq_zero hd]
    simp
  · obtain ⟨k, hk⟩ := integral_apply hc hr h
    rw [hk]
    exact integral_eq_zero hd _

end Operator
end DiceLaw
