import Mathlib.Algebra.Order.BigOperators.GroupWithZero.List
import DiceLaw.Proofs.Chance
import DiceLaw.Proofs.KeptCopies
import DiceLaw.Proofs.Results

/-! Copies of a die in a number that is itself rolled. Every count is resolved on its own, and the results are
mixed with the weights of the counts, whatever their own totals. -/
namespace DiceLaw.Distribution

/-! ### One count -/

section Counts
variable {W : Type} [Weight W]

/-- As many copies as a number says: the best of them if the die is marked so, else their sum. -/
def branch (limits : Limits) (die : Distribution W) (v : Int64) : Except Fault (Distribution W) :=
  match die.keep? with
  | some k => keepOfCopies v.toInt.toNat die k limits.maxKeepCombinations
  | none => .ok (sumOfCopies v.toInt.toNat die)

theorem copies_eq_ok {limits : Limits} {die b : Distribution W} {v : Int64} :
    copies limits die v = .ok b ↔
      (0 ≤ v.toInt ∧ v.toInt.toNat ≤ limits.maxRepeat.toNat) ∧ branch limits die v = .ok b := by
  have hneg : v < 0 ↔ v.toInt < 0 := Int64.lt_iff_toInt_lt
  rw [copies, branch]
  split
  next h => simp [hneg.mp h]
  next h =>
    have hv : 0 ≤ v.toInt := not_lt.mp fun hv => h (hneg.mpr hv)
    split
    next hm =>
      constructor
      · rintro ⟨⟩
      · intro hok
        obtain ⟨⟨-, hle⟩, -⟩ := hok
        exact absurd hm (not_lt.mpr hle)
    next hm => exact (and_iff_right ⟨hv, not_lt.mp hm⟩).symm

/-- All counts have copies, which are then mixed. -/
theorem repeated_eq_ok {limits : Limits} {counts die r : Distribution W} :
    repeated limits counts die = .ok r ↔ ∃ B : Int64 → Distribution W,
      (∀ e ∈ counts.numbers, copies limits die e.1 = .ok (B e.1)) ∧
        mixture (counts.numbers.map fun e => ⟨e.2, (B e.1).total, B e.1⟩) = r := by
  simp only [repeated, bind_eq_ok, pure_eq_ok, mapM_eq_ok]
  constructor
  · intro hok
    obtain ⟨branches, hall, rfl⟩ := hok
    have hcopies (e : Int64 × W) (he : e ∈ counts.numbers) :
        copies limits die e.1 = .ok ((copies limits die e.1).toOption.getD empty) := by
      obtain ⟨x, -, hx⟩ := List.mem_map.mp (hall ▸ List.mem_map_of_mem he)
      obtain ⟨b, hb, -⟩ := bind_eq_ok.mp hx.symm
      rw [hb]
      rfl
    refine ⟨fun v => (copies limits die v).toOption.getD empty, hcopies, congrArg mixture ?_⟩
    refine List.map_injective_iff.mpr (fun _ _ h => Except.ok.inj h) (Eq.trans ?_ hall)
    rw [List.map_map]
    exact List.map_congr_left fun e he => by rw [hcopies e he]; rfl
  · intro hok
    obtain ⟨B, hB, rfl⟩ := hok
    refine ⟨_, ?_, rfl⟩
    rw [List.map_map]
    exact List.map_congr_left fun e he => by rw [hB e he]; rfl

theorem note_sumOfCopies (count : Nat) (die : Distribution W) : (sumOfCopies count die).note = .unmarked := by
  rw [sumOfCopies]
  split
  · rfl
  · split
    · rfl
    · simp only
      split <;> rfl

theorem note_branch {limits : Limits} {die b : Distribution W} {v : Int64} (h : branch limits die v = .ok b) :
    b.note = .unmarked := by
  rw [branch] at h
  split at h
  · obtain ⟨-, rfl⟩ := keepOfCopies_eq_ok.mp h
    rfl
  · cases h
    exact note_sumOfCopies ..

end Counts

/-! ### Mixing -/

theorem commonFactor_eq (branches : List (Resolved Rat)) :
    commonFactor branches = ((branches.filter fun b => 0 < b.total).map (·.total)).prod := by
  have key (l : List (Resolved Rat)) (p : Rat) :
      l.foldl (fun p b => if 0 < b.total then p * b.total else p) p =
        p * ((l.filter fun b => 0 < b.total).map (·.total)).prod := by
    induction l generalizing p with
    | nil => simp
    | cons b l ih =>
      rw [List.foldl_cons, ih]
      by_cases h : 0 < b.total
      · rw [if_pos h, List.filter_cons_of_pos (by simpa using h), List.map_cons, List.prod_cons, mul_assoc]
      · rw [if_neg h, List.filter_cons_of_neg (by simpa using h)]
  rw [commonFactor, key, one_mul]
  rfl

theorem integral_mixture (φ : Face → Rat) (branches : List (Resolved Rat)) :
    (mixture branches).table.integral φ = ((branches.filter fun b => 0 < b.total).map fun b =>
      b.weight * (commonFactor branches / b.total) * b.copies.table.integral φ).sum := by
  have key (factor : Rat) (l : List (Resolved Rat)) (t : Table Rat) :
      (l.foldl (fun t b =>
        if 0 < b.total then t.absorb (b.copies.scale (b.weight * (factor / b.total))).table else t) t).integral φ =
        t.integral φ + ((l.filter fun b => 0 < b.total).map fun b =>
          b.weight * (factor / b.total) * b.copies.table.integral φ).sum := by
    induction l generalizing t with
    | nil => simp
    | cons b l ih =>
      rw [List.foldl_cons, ih]
      by_cases h : 0 < b.total
      · rw [if_pos h, List.filter_cons_of_pos (by simpa using h), Table.integral_absorb, List.map_cons,
          List.sum_cons, scale, Table.integral_mapWeights_mul]
        ring
      · rw [if_neg h, List.filter_cons_of_neg (by simpa using h)]
  rw [mixture, ofTable, key, Table.integral_empty, zero_add]

/-- A single branch of positive total is mixed into itself. -/
theorem mixture_single {b : Distribution Rat} (h : 0 < b.total) (hnote : b.note = .unmarked) :
    mixture [⟨1, b.total, b⟩] = b := by
  have hfactor : commonFactor [(⟨1, b.total, b⟩ : Resolved Rat)] / b.total = 1 := by
    rw [commonFactor_eq]
    simp [h, h.ne']
  have htable : Table.empty.absorb (b.scale 1).table = b.table := by
    refine Table.ext_entries ?_
    rw [Table.absorb, scale, Table.mapWeights]
    have hfresh (e : Face × Rat) : Table.fresh e = e := by rw [Table.fresh, zero_add]
    simp [Table.empty, funext hfresh]
  rw [mixture]
  simp only [List.foldl_cons, List.foldl_nil, if_pos h, hfactor, mul_one]
  rw [htable, ofTable, ← hnote]

/-! ### The mixture over counts -/

/-- The counts whose copies weigh something. -/
def living (B : Int64 → Distribution Rat) (counts : Distribution Rat) : List (Int64 × Rat) :=
  counts.numbers.filter fun e => 0 < (B e.1).total

/-- The product of the totals of all copies that weigh something. -/
def commonTotal (B : Int64 → Distribution Rat) (counts : Distribution Rat) : Rat :=
  ((living B counts).map fun e => (B e.1).total).prod

theorem commonTotal_pos (B : Int64 → Distribution Rat) (counts : Distribution Rat) : 0 < commonTotal B counts := by
  apply List.prod_pos
  intro t ht
  obtain ⟨e, he, rfl⟩ := List.mem_map.mp ht
  simpa using (List.mem_filter.mp he).2

theorem integral_mixture_counts (B : Int64 → Distribution Rat) (counts : Distribution Rat) (φ : Face → Rat) :
    (mixture (counts.numbers.map fun e => ⟨e.2, (B e.1).total, B e.1⟩)).table.integral φ =
      ((living B counts).map fun e =>
        e.2 * (commonTotal B counts / (B e.1).total) * (B e.1).table.integral φ).sum := by
  rw [integral_mixture, commonFactor_eq, List.filter_map, List.map_map, List.map_map]
  rfl

theorem total_mixture_counts (B : Int64 → Distribution Rat) (counts : Distribution Rat) :
    (mixture (counts.numbers.map fun e => ⟨e.2, (B e.1).total, B e.1⟩)).total =
      commonTotal B counts * ((living B counts).map (·.2)).sum := by
  rw [total_eq_integral, integral_mixture_counts, ← List.sum_map_mul_left]
  apply congrArg List.sum
  apply List.map_congr_left
  intro e he
  have hpos : 0 < (B e.1).total := by simpa using (List.mem_filter.mp he).2
  rw [← total_eq_integral]
  field_simp

theorem weight_mixture_counts (B : Int64 → Distribution Rat) (counts : Distribution Rat) (f : Face) :
    (mixture (counts.numbers.map fun e => ⟨e.2, (B e.1).total, B e.1⟩)).weight f =
      ((living B counts).map fun e => e.2 * (commonTotal B counts / (B e.1).total) * (B e.1).weight f).sum := by
  simp only [Distribution.weight_eq_integral]
  exact integral_mixture_counts B counts _

/-- A mixture over counts has the average of the chances of its copies. -/
theorem chance_mixture_counts (B : Int64 → Distribution Rat) (counts : Distribution Rat) (f : Face) :
    (mixture (counts.numbers.map fun e => ⟨e.2, (B e.1).total, B e.1⟩)).chance f =
      ((living B counts).map fun e => e.2 * ((B e.1).weight f / (B e.1).total)).sum /
        ((living B counts).map (·.2)).sum := by
  have htotal := commonTotal_pos B counts
  have hfactor : ((living B counts).map fun e =>
      e.2 * (commonTotal B counts / (B e.1).total) * (B e.1).weight f).sum =
        commonTotal B counts * ((living B counts).map fun e => e.2 * ((B e.1).weight f / (B e.1).total)).sum := by
    rw [← List.sum_map_mul_left]
    exact congrArg List.sum (List.map_congr_left fun e _ => by ring)
  rw [chance_eq, weight_mixture_counts, total_mixture_counts, hfactor, mul_div_mul_left _ _ htotal.ne']

theorem nonneg_of_mem_numbers {d : Distribution Rat} (h : d.Nonneg) {e : Int64 × Rat} (he : e ∈ d.numbers) :
    0 ≤ e.2 := by
  have hentry : (Face.number e.1, e.2) ∈ d.table.entries :=
    d.table.map_numbers_sublist.subset (List.mem_map_of_mem he)
  exact Table.weight_of_mem hentry ▸ h (.number e.1)

theorem sum_living_pos {B : Int64 → Distribution Rat} {counts : Distribution Rat} (h : counts.Nonneg)
    {e : Int64 × Rat} (he : e ∈ living B counts) (hpos : 0 < e.2) : 0 < ((living B counts).map (·.2)).sum := by
  refine hpos.trans_le (List.single_le_sum ?_ _ (List.mem_map_of_mem he))
  intro w hw
  obtain ⟨a, ha, rfl⟩ := List.mem_map.mp hw
  exact nonneg_of_mem_numbers h (List.mem_of_mem_filter ha)

theorem numbers_scalar (v : Int64) : (scalar v : Distribution Rat).numbers = [(v, 1)] := by
  have hone : (0 + 1 : Rat) = 1 := zero_add 1
  change [(v, (0 + 1 : Rat))] = [(v, 1)]
  rw [hone]

/-- Copies in a rolled number are the mixture over the counts. Those whose copies weigh nothing are left out,
and each other one gives its copies, brought to the total they all have in common, its own weight. A count that
is certain gives its copies as they are. Copies of a marked die there are as long as the rolls are not too many and
no sum of kept numbers leaves the 64-bit range. -/
theorem repeated_mixture (limits : Limits) (counts die : Distribution Rat) :
    (∀ r, repeated limits counts die = .ok r → ∃ B : Int64 → Distribution Rat,
      (∀ e ∈ counts.numbers, branch limits die e.1 = .ok (B e.1)) ∧ r.note = .unmarked ∧
      (∀ f, r.weight f = ((living B counts).map fun e =>
        e.2 * (commonTotal B counts / (B e.1).total) * (B e.1).weight f).sum) ∧
      (counts.Nonneg → (∃ e ∈ living B counts, 0 < e.2) → 0 < r.total ∧ ∀ f, r.chance f =
        ((living B counts).map fun e => e.2 * ((B e.1).weight f / (B e.1).total)).sum /
          ((living B counts).map (·.2)).sum)) ∧
    ∀ v : Int64, 0 ≤ v.toInt → v.toInt.toNat ≤ limits.maxRepeat.toNat →
      (∀ b, branch limits die v = .ok b → 0 < b.total → repeated limits (scalar v) die = .ok b) ∧
      ((∀ k, die.keep? = some k → die.numbers.length ^ v.toInt.toNat ≤ limits.maxKeepCombinations.toNat ∧
          ∀ r : Fin v.toInt.toNat → Fin die.numbers.length, Value.InRange (bestSum k die r)) →
        ∃ b, branch limits die v = .ok b) := by
  constructor
  · intro r hr
    obtain ⟨B, hB, rfl⟩ := repeated_eq_ok.mp hr
    refine ⟨B, fun e he => (copies_eq_ok.mp (hB e he)).2, rfl, weight_mixture_counts B counts, ?_⟩
    rintro hcounts ⟨e, he, hpos⟩
    refine ⟨?_, chance_mixture_counts B counts⟩
    rw [total_mixture_counts]
    exact mul_pos (commonTotal_pos B counts) (sum_living_pos hcounts he hpos)
  · intro v hv hmost
    refine ⟨fun b hb hpos => repeated_eq_ok.mpr ⟨fun _ => b, ?_, ?_⟩, fun hlimit => ?_⟩
    · intro e he
      rw [numbers_scalar, List.mem_singleton] at he
      rw [he]
      exact copies_eq_ok.mpr ⟨⟨hv, hmost⟩, hb⟩
    · rw [numbers_scalar]
      exact mixture_single hpos (note_branch hb)
    · rw [branch]
      split
      next k hk =>
        obtain ⟨hfew, hrange⟩ := hlimit k hk
        exact ⟨_, keepOfCopies_eq_ok.mpr ⟨⟨hfew, drawsInRange_iff.mpr hrange⟩, rfl⟩⟩
      next => exact ⟨_, rfl⟩

/-- No dice or two, one time in four none: their totals of one and four leave the shares as they are. -/
example : ((repeated {} (ofWeights [(0, 1), (2, 3)]) (uniform 2)).toOption.map fun r => r.chance (.number 0)) =
    some (1 / 4 : Rat) := by decide +kernel

end DiceLaw.Distribution
