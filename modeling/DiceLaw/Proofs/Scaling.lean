import DiceLaw.Proofs.Listing
import DiceLaw.Proofs.Mixture

/-! Weights on another scale. What is made of distributions is made of scaled ones on a scale that the operation
alone decides, so that no chance depends on the scales of what went in. -/
namespace DiceLaw

namespace Table

theorem integral_mul_right (φ : Face → Rat) (c : Rat) (t : Table Rat) :
    (t.integral fun f => φ f * c) = t.integral φ * c := by
  rw [integral, integral, ← List.sum_map_mul_right]
  simp only [mul_right_comm]

section Listed
variable {V W : Type}

theorem contains_mapWeights (g : W → V) (t : Table W) (f : Face) : (t.mapWeights g).contains f = t.contains f := by
  rw [Bool.eq_iff_iff, contains_iff, contains_iff, faces_mapWeights]

theorem filter_mapWeights (g : W → V) (t : Table W) (keep : Face → Bool) :
    (t.mapWeights g).filter keep = (t.filter keep).mapWeights g := by
  refine ext_entries ?_
  simp only [filter, mapWeights, List.filter_map]
  rfl

theorem without_mapWeights {X : Type} (g : W → V) (k : X → V) (t : Table W) (u : Table X) :
    (t.mapWeights g).without (u.mapWeights k) = (t.filter fun f => !u.contains f).mapWeights g := by
  rw [without_eq, filter_mapWeights]
  simp only [contains_mapWeights]

end Listed

theorem ofList_map_mul (c : Rat) (l : List (Face × Rat)) :
    ofList (l.map fun e => (e.1, e.2 * c)) = (ofList l).mapWeights (· * c) := by
  refine ext_faces (fun f => ?_) fun f => ?_
  · rw [faces_mapWeights, mem_faces_ofList, mem_faces_ofList]
    simp
  · rw [weight_mapWeights_mul, weight_ofList, weight_ofList, List.map_map, ← List.sum_map_mul_right]
    simp only [Function.comp_def, ite_mul, zero_mul]

end Table

namespace Distribution
open Table
variable {c : Rat}

/-! ### Structural changes -/

theorem integral_scale (φ : Face → Rat) (d : Distribution Rat) (c : Rat) :
    (d.scale c).table.integral φ = d.table.integral φ * c := integral_mapWeights_mul φ d.table c

@[simp] theorem scale_one (d : Distribution Rat) : d.scale 1 = d :=
  ext_faces (fun f => by rw [faces_scale]) (fun f => by rw [weight_scale, mul_one]) rfl

@[simp] theorem scale_scale (d : Distribution Rat) (a b : Rat) : (d.scale a).scale b = d.scale (a * b) :=
  ext_faces (fun f => by simp only [faces_scale]) (fun f => by simp only [weight_scale, mul_assoc]) rfl

/-- Where nothing weighs anything all scales are the same. -/
theorem scale_congr_of_weightless {d : Distribution Rat} (h : ∀ f, d.weight f = 0) (a b : Rat) :
    d.scale a = d.scale b :=
  ext_faces (fun f => by simp only [faces_scale]) (fun f => by simp only [weight_scale, h, zero_mul]) rfl

theorem chance_scale (d : Distribution Rat) (hc : 0 < c) (f : Face) : (d.scale c).chance f = d.chance f := by
  rw [chance_eq, chance_eq, weight_scale, total_scale, mul_div_mul_right _ _ hc.ne']

/-- The same faces are listed, with the same chances. -/
structure SameChances (d e : Distribution Rat) : Prop where
  faces : e.table.faces = d.table.faces
  chance : ∀ f, e.chance f = d.chance f

theorem sameChances_scale (d : Distribution Rat) (hc : 0 < c) : d.SameChances (d.scale c) :=
  ⟨faces_scale d c, chance_scale d hc⟩

theorem numbers_scale (d : Distribution Rat) (c : Rat) :
    (d.scale c).numbers = d.numbers.map fun e => (e.1, e.2 * c) := by
  rw [numbers, Table.numbers, scale, mapWeights, List.filterMap_map, numbers, Table.numbers, List.map_filterMap]
  simp [Function.comp_def]

theorem ofWeights_scale (l : List (Int64 × Rat)) (c : Rat) :
    ofWeights (l.map fun e => (e.1, e.2 * c)) = (ofWeights l).scale c := by
  rw [ofWeights, ofFaces, List.map_map]
  exact congrArg ofTable (by rw [ofWeights, ofFaces, ofTable, ← ofList_map_mul, List.map_map]; rfl)

theorem combine_scale (d e : Distribution Rat) (c : Rat) :
    (d.scale c).combine (e.scale c) = (d.combine e).scale c := by
  refine ext_faces (fun f => ?_) (fun f => ?_) ?_
  · simp only [mem_faces_combine, faces_scale]
  · simp only [weight_combine, weight_scale, add_mul]
  · rw [combine, scale, scale, without_mapWeights, faces_mapWeights, scale, combine, without_eq]

/-! ### Two rolls joined -/

theorem pairUp_scale (g : Int64 → Int64 → Int64) (d e : Distribution Rat) (a b : Rat) :
    pairUp g (d.scale a) (e.scale b) = (pairUp g d e).scale (a * b) := by
  refine ext_faces (fun f => ?_) (fun f => ?_) rfl
  · simp only [faces_scale, mem_faces_pairUp]
  · rw [weight_scale, weight_eq_integral, weight_eq_integral, integral_pairUp, integral_pairUp, integral_scale]
    simp only [integral_scale, integral_mul_right]
    ring

theorem pairUpSeeded_scale (g : Int64 → Int64 → Int64) (d e : Distribution Rat) (a b : Rat) :
    pairUpSeeded g (d.scale a) (e.scale b) = (pairUpSeeded g d e).scale (a * b) := by
  refine ext_faces (fun f => ?_) (fun f => ?_) rfl
  · simp only [faces_scale, mem_faces_pairUpSeeded]
  · rw [weight_scale, weight_eq_integral, weight_eq_integral, integral_pairUpSeeded, integral_pairUpSeeded,
      integral_scale]
    simp only [integral_scale, integral_mul_right]
    ring

theorem pairUp?_scale (g : Int64 → Int64 → Option Int64) (d e : Distribution Rat) (a b : Rat) :
    pairUp? g (d.scale a) (e.scale b) = (pairUp? g d e).map (·.scale (a * b)) := by
  rw [pairUp?, pairUp?, numbers_scale, numbers_scale, pairUp_scale]
  simp only [List.all_map, Function.comp_def]
  split <;> rfl

/-! ### Rerolling -/

theorem reroll_scale (d targets : Distribution Rat) (a b : Rat) :
    (d.scale a).reroll (targets.scale b) = (d.reroll targets).scale a := by
  refine ext_faces (fun f => ?_) (fun f => ?_) rfl
  · simp only [faces_scale, mem_faces_reroll]
  · have hcontains : (targets.scale b).table.contains = targets.table.contains :=
      funext fun f => contains_mapWeights (· * b) targets.table f
    rw [weight_scale, weight_eq_integral, weight_eq_integral, integral_reroll, integral_reroll, integral_without,
      integral_without, hcontains, integral_scale, integral_scale, faces_scale]
    ring

end Distribution

/-! ### Operators -/

namespace Operator
open DiceLaw.Distribution

/-- The scale of the result when the sides are scaled. -/
def factor (op : Operator) (a b : Rat) : Rat :=
  match op with
  | .reroll => a
  | .advantage => a * a
  | _ => a * b

theorem factor_pos (op : Operator) {a b : Rat} (ha : 0 < a) (hb : 0 < b) : 0 < op.factor a b := by
  cases op with
  | reroll => exact ha
  | advantage => exact mul_pos ha ha
  | _ => exact mul_pos ha hb

theorem apply_scale {op : Operator} (hop : op ≠ .combine) (d e : Distribution Rat) (a b : Rat) :
    op.apply (d.scale a) (e.scale b) = (op.apply d e).map (·.scale (op.factor a b)) := by
  cases op with
  | combine => exact absurd rfl hop
  | reroll => exact congrArg Except.ok (reroll_scale d e a b)
  | advantage => exact congrArg Except.ok (pairUp_scale _ d d a a)
  | divideCeil =>
    simp only [apply, Distribution.divideCeil, pairUp?_scale]
    cases pairUp? Value.ceilQuotient? d e <;> rfl
  | divideFloor =>
    simp only [apply, Distribution.divideFloor, pairUp?_scale]
    cases pairUp? Value.floorQuotient? d e <;> rfl
  | armor => exact congrArg Except.ok (pairUpSeeded_scale _ d e a b)
  | difficulty => exact congrArg Except.ok (pairUpSeeded_scale _ d e a b)
  | _ => exact congrArg Except.ok (pairUp_scale _ d e a b)

end Operator

/-! ### Repetition -/

namespace Distribution

theorem add_scale (d e : Distribution Rat) (a b : Rat) : (d.scale a).add (e.scale b) = (d.add e).scale (a * b) :=
  pairUp_scale Value.add d e a b

theorem sumOfCopies_scale (count : Nat) (die : Distribution Rat) (c : Rat) :
    sumOfCopies count (die.scale c) = (sumOfCopies count die).scale (c ^ count) := by
  induction count using Nat.strongRecOn with
  | ind count ih =>
    rw [sumOfCopies, sumOfCopies.eq_def count die]
    split
    next h => rw [h, pow_zero, scale_one]
    next h =>
      split
      next h =>
        rw [h, pow_one]
        rfl
      next h' =>
        have hhalf := ih (count / 2) (by omega)
        simp only [hhalf]
        split
        next hodd =>
          have hcount : count = count / 2 + count / 2 + 1 := by omega
          rw [add_scale, add_scale, ← pow_add, ← pow_succ, ← hcount]
        next heven =>
          have hcount : count = count / 2 + count / 2 := by omega
          rw [add_scale, ← pow_add, ← hcount]

theorem draws_map {V W : Type} (g : Int64 × V → Int64 × W) (numbers : List (Int64 × V)) (copies : Nat) :
    draws (numbers.map g) copies = (draws numbers copies).map (List.map g) := by
  induction copies with
  | zero => rfl
  | succ copies ih =>
    rw [draws, ih, draws, List.flatMap_map, List.map_flatMap]
    simp only [List.map_map, Function.comp_def, List.map_cons]

theorem keptCopies_scale (copies : Nat) (die : Distribution Rat) (k : Keep) (c : Rat) :
    keptCopies copies (die.scale c) k = (keptCopies copies die k).scale (c ^ copies) := by
  have hdraws : (draws (die.scale c).numbers copies).map (drawEntry k [] 1) =
      ((draws die.numbers copies).map (drawEntry k [] 1)).map fun e => (e.1, e.2 * c ^ copies) := by
    rw [numbers_scale, draws_map, List.map_map, List.map_map]
    refine List.map_congr_left fun draw hdraw => ?_
    obtain ⟨r, rfl⟩ := mem_draws.mp hdraw
    simp only [Function.comp_apply, drawEntry, foldl_mul, List.map_map]
    simp [Function.comp_def, List.prod_ofFn, Finset.prod_mul_distrib]
  rw [keptCopies, hdraws, Table.ofList_map_mul]
  rfl

theorem drawsInRange_scale {copies : Nat} {die : Distribution Rat} {k : Keep} {c : Rat} :
    DrawsInRange (die.scale c).numbers copies k ↔ DrawsInRange die.numbers copies k := by
  rw [numbers_scale, DrawsInRange, draws_map, List.forall_mem_map]
  simp only [List.map_map, Function.comp_def]
  rfl

theorem keepOfCopies_scale (copies : Nat) (die : Distribution Rat) (k : Keep) (limit : UInt64) (c : Rat) :
    keepOfCopies copies (die.scale c) k limit = (keepOfCopies copies die k limit).map (·.scale (c ^ copies)) := by
  have hlength : (die.scale c).numbers.length = die.numbers.length := by rw [numbers_scale, List.length_map]
  rw [keepOfCopies_eq, keepOfCopies_eq, hlength]
  simp only [drawsInRange_scale, keptCopies_scale]
  split
  · rfl
  · split <;> rfl

theorem copies_scale (limits : Limits) (die : Distribution Rat) (v : Int64) (c : Rat) :
    copies limits (die.scale c) v = (copies limits die v).map (·.scale (c ^ v.toInt.toNat)) := by
  have hkeep : (die.scale c).keep? = die.keep? := rfl
  rw [copies, copies, hkeep]
  split
  · rfl
  · split
    · rfl
    · split
      · exact keepOfCopies_scale ..
      · exact congrArg Except.ok (sumOfCopies_scale ..)

/-! ### Mixing -/

/-- The branch of a count on another scale: `c` for its weight, and a scale of its own for the copies. -/
def Resolved.Scaled (c : Rat) (b b' : Resolved Rat) : Prop :=
  ∃ t : Rat, 0 < t ∧ b' = ⟨b.weight * c, b.total * t, b.copies.scale t⟩

section Mixing
variable {c : Rat} {branches scaled : List (Resolved Rat)} (h : List.Forall₂ (Resolved.Scaled c) branches scaled)
include h

theorem prod_total_scaled : ∃ ρ : Rat, 0 < ρ ∧
    (scaled.map (·.total)).prod = (branches.map (·.total)).prod * ρ := by
  induction h with
  | nil => exact ⟨1, zero_lt_one, (mul_one _).symm⟩
  | cons hb _ ih =>
    obtain ⟨t, ht, rfl⟩ := hb
    obtain ⟨ρ, hρ, ih⟩ := ih
    refine ⟨t * ρ, mul_pos ht hρ, ?_⟩
    rw [List.map_cons, List.prod_cons, List.map_cons, List.prod_cons, ih]
    ring

/-- The own scales of the copies cancel. -/
theorem sum_scaled (factor ρ : Rat) (φ : Face → Rat) :
    (scaled.map fun b => b.weight * (factor * ρ / b.total) * b.copies.table.integral φ).sum =
      (branches.map fun b => b.weight * (factor / b.total) * b.copies.table.integral φ).sum * (c * ρ) := by
  induction h with
  | nil => simp
  | cons hb _ ih =>
    obtain ⟨t, ht, rfl⟩ := hb
    rw [List.map_cons, List.sum_cons, List.map_cons, List.sum_cons, ih, integral_scale]
    field_simp

/-- Scaled copies weigh something where the copies do. -/
theorem living_scaled : List.Forall₂ (Resolved.Scaled c) (branches.filter fun b => 0 < b.total)
    (scaled.filter fun b => 0 < b.total) := by
  refine List.rel_filter ?_ h
  rintro b _ ⟨t, ht, rfl⟩
  simp only [decide_eq_true_eq, mul_pos_iff_of_pos_right ht]

theorem mem_faces_mixture_scaled (f : Face) :
    f ∈ (mixture scaled).table.faces ↔ f ∈ (mixture branches).table.faces := by
  rw [mem_faces_mixture, mem_faces_mixture]
  induction h with
  | nil => rfl
  | @cons b b' bs bs' hb _ ih =>
    obtain ⟨t, ht, rfl⟩ := hb
    rw [List.exists_mem_cons_iff, List.exists_mem_cons_iff, ih, faces_scale, mul_pos_iff_of_pos_right ht]

theorem mixture_scaled (hc : 0 < c) : ∃ μ : Rat, 0 < μ ∧ mixture scaled = (mixture branches).scale μ := by
  obtain ⟨ρ, hρ, hfactor⟩ := prod_total_scaled (living_scaled h)
  rw [← commonFactor_eq, ← commonFactor_eq] at hfactor
  refine ⟨c * ρ, mul_pos hc hρ, ext_faces (fun f => ?_) (fun f => ?_) rfl⟩
  · rw [faces_scale, mem_faces_mixture_scaled h]
  · rw [weight_scale, weight_eq_integral, weight_eq_integral, integral_mixture, integral_mixture, hfactor,
      sum_scaled (living_scaled h)]

end Mixing

/-- Copies of a scaled die in a scaled number fail as before or come out scaled. -/
theorem repeated_scale (limits : Limits) (counts die : Distribution Rat) {c d : Rat} (hc : 0 < c) (hd : 0 < d) :
    Alike (fun r r' => ∃ μ : Rat, 0 < μ ∧ r' = r.scale μ) (repeated limits counts die)
      (repeated limits (counts.scale c) (die.scale d)) := by
  have hcount (e : Int64 × Rat) : Alike (Resolved.Scaled c)
      (do let b ← copies limits die e.1; return ⟨e.2, b.total, b⟩)
      (do let b ← copies limits (die.scale d) e.1; return ⟨e.2 * c, b.total, b⟩) := by
    refine (Parallel.of_eq_map (copies_scale limits die e.1 d)).bind ?_
    rintro b _ rfl
    exact .ok ⟨d ^ e.1.toInt.toNat, pow_pos hd _, by rw [total_scale]⟩
  rw [repeated, repeated, numbers_scale]
  exact (Parallel.mapM hcount counts.numbers).bind fun branches scaled h => .ok (mixture_scaled h hc)

end Distribution
end DiceLaw
