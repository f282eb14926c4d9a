import Mathlib.Algebra.Order.BigOperators.Ring.Finset
import DiceLaw.Proofs.Listing
import DiceLaw.Proofs.Mixture

/-! Where weight comes from and where it goes. What is made of numbers with weights of zero or more stays so,
and what is made of distributions that weigh something weighs something. -/
namespace DiceLaw

namespace Table

theorem integral_const (c : Rat) (t : Table Rat) : (t.integral fun _ => c) = c * t.total := by
  rw [total_eq_integral, integral, integral, ← List.sum_map_mul_left]
  simp

end Table

namespace Distribution

/-- Only numbers are listed. -/
def Numeric (d : Distribution Rat) : Prop := ∀ f ∈ d.table.faces, ∃ v, f = .number v

theorem Numeric.entries {d : Distribution Rat} (h : d.Numeric) :
    d.table.entries = d.numbers.map fun e => (.number e.1, e.2) := by
  have key (l : List (Face × Rat)) (hl : ∀ e ∈ l, ∃ v, e.1 = .number v) :
      l = (l.filterMap fun e => e.1.value?.map (·, e.2)).map fun e => (.number e.1, e.2) := by
    induction l with
    | nil => rfl
    | cons e l ih =>
      obtain ⟨f, w⟩ := e
      obtain ⟨v, rfl⟩ : ∃ v, f = .number v := hl (f, w) (by simp)
      simpa [Face.value?] using ih fun e he => hl e (by simp [he])
  exact key _ fun e he => h e.1 (List.mem_map_of_mem he)

/-- All weight stands on numbers. -/
theorem Numeric.sum_numbers {d : Distribution Rat} (h : d.Numeric) : (d.numbers.map (·.2)).sum = d.total := by
  rw [total, Table.total, Weight.sum_eq_sum, h.entries, List.map_map]
  rfl

/-- Only numbers are listed, and no weight is below zero. -/
structure Plain (d : Distribution Rat) : Prop where
  numeric : ∀ f ∈ d.table.faces, ∃ v, f = .number v
  nonneg : d.Nonneg

/-! ### Construction -/

theorem total_ofWeights (entries : List (Int64 × Rat)) :
    (ofWeights entries).total = (entries.map (·.2)).sum := by
  rw [total_eq_integral, ofWeights, ofFaces, ofTable, Table.integral_ofList, List.map_map]
  simp [Function.comp_def]

theorem plain_ofWeights {entries : List (Int64 × Rat)} (h : ∀ e ∈ entries, 0 ≤ e.2) : (ofWeights entries).Plain where
  numeric := by
    intro f hf
    obtain ⟨e, he, rfl⟩ := (Table.mem_faces_ofList _ f).mp hf
    obtain ⟨a, -, rfl⟩ := List.mem_map.mp he
    exact ⟨a.1, rfl⟩
  nonneg := by
    intro f
    rw [weight, ofWeights, ofFaces, ofTable, Table.weight_ofList, List.map_map]
    apply List.sum_nonneg
    intro w hw
    obtain ⟨e, he, rfl⟩ := List.mem_map.mp hw
    simp only [Function.comp_apply]
    split
    · exact h e he
    · exact le_rfl

theorem plain_scalar (v : Int64) : (scalar v : Distribution Rat).Plain :=
  plain_ofWeights fun e he => by
    rw [List.mem_singleton.mp he]
    exact zero_le_one

@[simp] theorem total_scalar (v : Int64) : (scalar v : Distribution Rat).total = 1 := by
  rw [scalar, total_ofWeights]
  simp

theorem plain_uniform (sides : Nat) : (uniform sides : Distribution Rat).Plain :=
  plain_ofWeights fun e he => by
    obtain ⟨i, -, rfl⟩ := List.mem_map.mp he
    exact zero_le_one

@[simp] theorem total_uniform (sides : Nat) : (uniform sides : Distribution Rat).total = sides := by
  rw [uniform, total_ofWeights, List.map_map]
  simp [Function.comp_def]

/-! ### Read-out -/

theorem chance_of_mem_outcomes {d : Distribution Rat} {e : Face × Rat} (he : e ∈ d.outcomes) :
    e.2 = d.chance e.1 := (Table.weight_of_mem he).symm

theorem sum_outcomes {d : Distribution Rat} (h : d.total ≠ 0) : (d.outcomes.map (·.2)).sum = 1 := by
  rw [outcomes, ← Weight.sum_eq_sum]
  change d.shares.table.total = 1
  rw [Table.total_eq_integral, shares_table, Table.integral_mapWeights_mul, ← total_eq_integral]
  exact mul_inv_cancel₀ h

namespace Nonneg
variable {d : Distribution Rat} (h : d.Nonneg)
include h

theorem integral_mono {φ ψ : Face → Rat} (hle : ∀ f, φ f ≤ ψ f) : d.table.integral φ ≤ d.table.integral ψ := by
  rw [d.table.integral_eq_sum φ (s := d.table.faces.toFinset) (by simp),
    d.table.integral_eq_sum ψ (s := d.table.faces.toFinset) (by simp)]
  exact Finset.sum_le_sum fun f _ => mul_le_mul_of_nonneg_right (hle f) (h f)

theorem weight_le_total (f : Face) : d.weight f ≤ d.total := by
  rw [weight_eq_integral, total_eq_integral]
  exact h.integral_mono fun g => by split <;> norm_num

theorem chance_nonneg (f : Face) : 0 ≤ d.chance f := by
  rw [chance_eq]
  exact div_nonneg (h f) h.total_nonneg

theorem chance_le_one (f : Face) : d.chance f ≤ 1 := by
  rw [chance_eq]
  exact div_le_one_of_le₀ (h.weight_le_total f) h.total_nonneg

end Nonneg

/-! ### Structural changes -/

@[simp] theorem total_combine (d e : Distribution Rat) : (d.combine e).total = e.total + d.total := by
  simp only [total_eq_integral]
  exact Table.integral_absorb _ e.table d.table

namespace Plain
variable {d e : Distribution Rat}

theorem scale (h : d.Plain) {c : Rat} (hc : 0 ≤ c) : (d.scale c).Plain :=
  ⟨by rw [faces_scale]; exact h.numeric, h.nonneg.scale hc⟩

theorem combine (h : d.Plain) (k : e.Plain) : (d.combine e).Plain where
  numeric := by
    intro f hf
    rcases (mem_faces_combine d e f).mp hf with hf | hf
    · exact k.numeric f hf
    · exact h.numeric f hf
  nonneg := h.nonneg.combine k.nonneg

theorem filter (h : d.Plain) (keep : Face → Bool) (note : Note) : Plain ⟨d.table.filter keep, note⟩ where
  numeric := fun f hf => h.numeric f ((Table.mem_faces_filter ..).mp hf).1
  nonneg := by
    intro f
    rw [weight, Table.weight_filter]
    split
    · exact h.nonneg f
    · exact le_rfl

theorem numeric_pairFace (h : d.Plain) (k : e.Plain) (g : Int64 → Int64 → Int64) {f : Face}
    (hf : ∃ a ∈ d.table.faces, ∃ b ∈ e.table.faces, pairFace g a b = f) : ∃ v, f = .number v := by
  obtain ⟨a, ha, b, hb, rfl⟩ := hf
  obtain ⟨v, rfl⟩ := h.numeric a ha
  obtain ⟨w, rfl⟩ := k.numeric b hb
  exact ⟨g v w, rfl⟩

theorem sum_numbers (h : d.Plain) : (d.numbers.map (·.2)).sum = d.total := Numeric.sum_numbers h.numeric

end Plain
end Distribution

/-! ### Operators -/

namespace Operator
open DiceLaw.Distribution
variable {op : Operator} {d e r : Distribution Rat}

theorem apply_plain (hd : d.Plain) (he : e.Plain) (h : op.apply d e = .ok r) : r.Plain := by
  refine ⟨fun f hf => ?_, apply_nonneg hd.nonneg he.nonneg h⟩
  have hzero : f = .number 0 ∨ f = .number 1 → ∃ v, f = .number v := by
    rintro (rfl | rfl)
    · exact ⟨0, rfl⟩
    · exact ⟨1, rfl⟩
  cases op with
  | combine => cases h; exact (hd.combine he).numeric f hf
  | reroll => cases h; exact hd.numeric f ((mem_faces_reroll d e f).mp hf)
  | divideCeil =>
    rw [eq_pairUp_of_pairUp? (divideCeil_eq_ok.mp h), mem_faces_pairUp] at hf
    exact hd.numeric_pairFace he _ hf
  | divideFloor =>
    rw [eq_pairUp_of_pairUp? (divideFloor_eq_ok.mp h), mem_faces_pairUp] at hf
    exact hd.numeric_pairFace he _ hf
  | armor => cases h; exact ((mem_faces_pairUpSeeded _ d e f).mp hf).elim hzero (hd.numeric_pairFace he _)
  | difficulty => cases h; exact ((mem_faces_pairUpSeeded _ d e f).mp hf).elim hzero (hd.numeric_pairFace he _)
  | advantage => cases h; exact hd.numeric_pairFace hd _ ((mem_faces_pairUp _ d d f).mp hf)
  | _ => cases h; exact hd.numeric_pairFace he _ ((mem_faces_pairUp _ d e f).mp hf)

/-- Where every face is a target nothing is kept, but then every face is rolled again. -/
theorem total_reroll_pos (hd : d.Nonneg) (hpos : 0 < d.total) (targets : Distribution Rat) :
    0 < (d.reroll targets).total := by
  rw [total_eq_integral, integral_reroll]
  have hkept : 0 ≤ (d.table.without targets.table).integral fun _ => 1 := by
    rw [Table.integral_without]
    exact hd.integral_nonneg fun f => by split <;> norm_num
  by_cases htarget : ∃ f ∈ d.table.faces, targets.table.contains f = true
  · obtain ⟨f, hf, hc⟩ := htarget
    have hsome : 0 < (d.table.faces.filter targets.table.contains).length :=
      List.length_pos_of_mem (List.mem_filter.mpr ⟨hf, hc⟩)
    rw [← total_eq_integral]
    positivity
  · have hall : (d.table.without targets.table).integral (fun _ => 1) = d.total := by
      rw [total_eq_integral, Table.without_eq, Table.filter]
      simp only [Table.integral]
      rw [List.filter_eq_self.mpr]
      intro a ha
      simpa using fun hc => htarget ⟨a.1, List.mem_map_of_mem ha, hc⟩
    have hsome : 0 < d.table.faces.length := by
      refine List.length_pos_of_ne_nil fun hnil => hpos.ne' ?_
      rw [total_eq_integral, Table.integral, List.map_eq_nil_iff.mp hnil]
      rfl
    rw [hall, ← total_eq_integral]
    positivity

/-- An operator leaves no weight behind where both sides have some. -/
theorem total_apply_pos (hd : d.Nonneg) (hdpos : 0 < d.total) (hepos : 0 < e.total) (h : op.apply d e = .ok r) :
    0 < r.total := by
  by_cases hc : op = .combine
  · subst hc
    cases h
    rw [total_combine]
    positivity
  by_cases hr : op = .reroll
  · subst hr
    cases h
    exact total_reroll_pos hd hdpos e
  · obtain ⟨g, hg⟩ := integral_apply hc hr h
    have hpartner : 0 < (if op.isUnary then d else e).total := by split <;> assumption
    rw [total_eq_integral, hg, Table.integral_const, ← total_eq_integral]
    exact mul_pos hpartner hdpos

end Operator

/-! ### Repetition -/

namespace Distribution
variable {die : Distribution Rat}

theorem total_pairUp (g : Int64 → Int64 → Int64) (d e : Distribution Rat) :
    (pairUp g d e).total = e.total * d.total := by
  rw [total_eq_integral, integral_pairUp, ← total_eq_integral, Table.integral_const]
  rfl

theorem total_add (d e : Distribution Rat) : (d.add e).total = e.total * d.total := total_pairUp Value.add d e

theorem Plain.pairUp {d e : Distribution Rat} (h : d.Plain) (k : e.Plain) (g : Int64 → Int64 → Int64) :
    (pairUp g d e).Plain where
  numeric := fun f hf => h.numeric_pairFace k g ((mem_faces_pairUp g d e f).mp hf)
  nonneg := by
    intro f
    rw [weight_eq_integral, integral_pairUp]
    exact h.nonneg.integral_nonneg fun a => k.nonneg.integral_nonneg fun b => by split <;> norm_num

theorem Plain.sumOfCopies (h : die.Plain) (count : Nat) : (sumOfCopies count die).Plain := by
  induction count using Nat.strongRecOn with
  | ind count ih =>
    rw [Distribution.sumOfCopies]
    split
    · exact plain_scalar 0
    · split
      · exact ⟨h.numeric, h.nonneg⟩
      · have hhalf := ih (count / 2) (by omega)
        simp only
        split
        · exact (hhalf.pairUp hhalf _).pairUp h _
        · exact hhalf.pairUp hhalf _

theorem total_sumOfCopies (count : Nat) (die : Distribution Rat) :
    (sumOfCopies count die).total = die.total ^ count := by
  induction count using Nat.strongRecOn with
  | ind count ih =>
    rw [sumOfCopies]
    split
    next h => rw [h, total_scalar, pow_zero]
    next h =>
      split
      next h => rw [h, pow_one]; rfl
      next h' =>
        have hhalf := ih (count / 2) (by omega)
        simp only
        split
        next hodd =>
          have hcount : count = count / 2 + count / 2 + 1 := by omega
          rw [total_add, total_add, hhalf, ← pow_add, ← pow_succ', ← hcount]
        next heven =>
          have hcount : count = count / 2 + count / 2 := by omega
          rw [total_add, hhalf, ← pow_add, ← hcount]

theorem Plain.keptCopies (h : die.Plain) (copies : Nat) (k : Keep) : (keptCopies copies die k).Plain where
  numeric := by
    intro f hf
    obtain ⟨r, rfl⟩ := mem_faces_keptCopies.mp hf
    exact ⟨_, rfl⟩
  nonneg := by
    intro f
    rw [weight_keptCopies]
    refine Finset.sum_nonneg fun r _ => ?_
    split
    · exact Finset.prod_nonneg fun i _ => nonneg_of_mem_numbers h.nonneg (List.get_mem ..)
    · exact le_rfl

theorem total_keptCopies (copies : Nat) (die : Distribution Rat) (k : Keep) :
    (keptCopies copies die k).total = ((die.numbers.map (·.2)).sum) ^ copies := by
  have hentry (r : Fin copies → Fin die.numbers.length) :
      (drawEntry k [] 1 (List.ofFn fun i => die.numbers.get (r i))).2 = ∏ i, (die.numbers.get (r i)).2 := by
    rw [drawEntry_eq]
  rw [total_eq_integral, keptCopies, ofTable, Table.integral_ofList, List.map_map, sum_map_draws]
  simp only [Function.comp_apply, one_mul, hentry]
  rw [← Fin.sum_univ_fun_getElem, Fintype.sum_pow]
  rfl

theorem Plain.branch {limits : Limits} {v : Int64} {b : Distribution Rat} (h : die.Plain)
    (hb : branch limits die v = .ok b) : b.Plain ∧ b.total = die.total ^ v.toInt.toNat := by
  rw [Distribution.branch] at hb
  split at hb
  next k hk =>
    obtain ⟨-, rfl⟩ := keepOfCopies_eq_ok.mp hb
    exact ⟨h.keptCopies .., by rw [total_keptCopies, h.sum_numbers]⟩
  next =>
    cases hb
    exact ⟨h.sumOfCopies _, total_sumOfCopies ..⟩

section Repeated
variable {limits : Limits} {counts r : Distribution Rat} (hcounts : counts.Plain) (hdie : die.Plain)
  (h : repeated limits counts die = .ok r)
include hcounts hdie h

theorem Plain.repeated : r.Plain := by
  obtain ⟨B, hB, rfl⟩ := repeated_eq_ok.mp h
  have hplain (e : Int64 × Rat) (he : e ∈ counts.numbers) : (B e.1).Plain :=
    (hdie.branch (copies_eq_ok.mp (hB e he)).2).1
  constructor
  · intro f hf
    obtain ⟨b, hb, -, hf⟩ := (mem_faces_mixture ..).mp hf
    obtain ⟨e, he, rfl⟩ := List.mem_map.mp hb
    exact (hplain e he).numeric f hf
  · intro f
    rw [weight_mixture_counts]
    refine List.sum_nonneg fun w hw => ?_
    obtain ⟨e, he, rfl⟩ := List.mem_map.mp hw
    obtain ⟨he, hlives⟩ := List.mem_filter.mp he
    have hcount := nonneg_of_mem_numbers hcounts.nonneg he
    have hcommon := commonTotal_pos B counts
    have hweight := (hplain e he).nonneg f
    have hlives : 0 < (B e.1).total := by simpa using hlives
    positivity

/-- No count is without weight if the die is not. -/
theorem total_repeated_pos (hcountsPos : 0 < counts.total) (hdiePos : 0 < die.total) : 0 < r.total := by
  obtain ⟨B, hB, rfl⟩ := repeated_eq_ok.mp h
  have hlives : living B counts = counts.numbers := by
    refine List.filter_eq_self.mpr fun e he => decide_eq_true ?_
    rw [(hdie.branch (copies_eq_ok.mp (hB e he)).2).2]
    positivity
  rw [total_mixture_counts, hlives, hcounts.sum_numbers]
  exact mul_pos (commonTotal_pos B counts) hcountsPos

end Repeated
end Distribution
end DiceLaw
