import DiceLaw.Proofs.KeepEnds
import DiceLaw.Proofs.Scaling

/-! Averages. What several rolls come to is, on average, the average over all ways they can come out, and a sum of
rolls is as many times the average of one. So it is with a number of copies that is rolled itself, however much
weight the copies for one count have and those for another. -/
namespace DiceLaw

namespace Face

/-- What a face counts for in an average: its number, and nothing for a label. -/
def amount : Face → Rat
  | number v => v.toInt
  | label _ => 0

@[simp] theorem amount_number (v : Int64) : (number v).amount = v.toInt := rfl
@[simp] theorem amount_label (name : String) : (label name).amount = 0 := rfl

theorem sum_cons (f : Face) (fs : List Face) : (sum (f :: fs) : Rat) = f.amount + sum fs := by
  cases f with
  | number v =>
    have hsum : sum (number v :: fs) = v.toInt + sum fs := List.sum_cons
    rw [hsum, Int.cast_add, amount_number]
  | label name =>
    have hsum : sum (label name :: fs) = sum fs := rfl
    rw [hsum, amount_label, zero_add]

end Face

namespace Table
variable {t : Table Rat}

/-! ### Over several rolls -/

theorem rollsIntegral_const (n : Nat) (c : Rat) : (t.rollsIntegral n fun _ => c) = c * t.total ^ n := by
  induction n with
  | zero => rw [pow_zero, mul_one]; rfl
  | succ n ih => rw [rollsIntegral, ih, integral_const, pow_succ, mul_assoc]

theorem rollsIntegral_add_fun (n : Nat) (φ ψ : List Face → Rat) :
    (t.rollsIntegral n fun fs => φ fs + ψ fs) = t.rollsIntegral n φ + t.rollsIntegral n ψ := by
  induction n generalizing φ ψ with
  | zero => rfl
  | succ n ih =>
    simp only [rollsIntegral, ih]
    exact integral_add _ _ t

theorem rollsIntegral_mul_right (n : Nat) (φ : List Face → Rat) (c : Rat) :
    (t.rollsIntegral n fun fs => φ fs * c) = t.rollsIntegral n φ * c := by
  induction n generalizing φ with
  | zero => rfl
  | succ n ih =>
    simp only [rollsIntegral, ih]
    exact integral_mul_right _ c t

theorem integral_le_of_faces {φ ψ : Face → Rat} (ht : ∀ f, 0 ≤ t.weight f) (h : ∀ f ∈ t.faces, φ f ≤ ψ f) :
    t.integral φ ≤ t.integral ψ := by
  refine List.sum_le_sum fun e he => ?_
  have hweight : 0 ≤ e.2 := weight_of_mem he ▸ ht e.1
  exact mul_le_mul_of_nonneg_right (h e.1 (List.mem_map_of_mem he)) hweight

theorem rollsIntegral_mono {n : Nat} {φ ψ : List Face → Rat} (ht : ∀ f, 0 ≤ t.weight f)
    (h : ∀ fs, t.Shows n fs → φ fs ≤ ψ fs) : t.rollsIntegral n φ ≤ t.rollsIntegral n ψ := by
  induction n generalizing φ ψ with
  | zero => exact h [] shows_nil
  | succ n ih =>
    refine integral_le_of_faces ht fun f hf => ih fun fs hfs => ?_
    exact h _ (shows_succ.mpr ⟨f, fs, hf, hfs, rfl⟩)

/-- The average of a function of what several rolls show. -/
def rollsMean (t : Table Rat) (n : Nat) (φ : List Face → Rat) : Rat := t.rollsIntegral n φ / t.total ^ n

theorem rollsMean_congr {n : Nat} {φ ψ : List Face → Rat} (h : ∀ fs, t.Shows n fs → φ fs = ψ fs) :
    t.rollsMean n φ = t.rollsMean n ψ := by
  rw [rollsMean, rollsMean, rollsIntegral_congr h]

theorem rollsMean_add (n : Nat) (φ ψ : List Face → Rat) :
    (t.rollsMean n fun fs => φ fs + ψ fs) = t.rollsMean n φ + t.rollsMean n ψ := by
  rw [rollsMean, rollsIntegral_add_fun, add_div]
  rfl

theorem rollsMean_mono {n : Nat} {φ ψ : List Face → Rat} (ht : ∀ f, 0 ≤ t.weight f) (hpos : 0 < t.total)
    (h : ∀ fs, t.Shows n fs → φ fs ≤ ψ fs) : t.rollsMean n φ ≤ t.rollsMean n ψ :=
  div_le_div_of_nonneg_right (rollsIntegral_mono ht h) (pow_pos hpos n).le

/-- One more roll does not matter to what is read off those before it. -/
theorem rollsMean_take (hpos : 0 < t.total) (n : Nat) (φ : List Face → Rat) :
    (t.rollsMean (n + 1) fun fs => φ (fs.take n)) = t.rollsMean n φ := by
  have hsplit : (t.rollsIntegral (n + 1) fun fs => φ (fs.take n)) = t.rollsIntegral n fun fs => φ fs * t.total := by
    rw [rollsIntegral_add]
    refine rollsIntegral_congr fun fs hfs => ?_
    rw [rollsIntegral_one, ← integral_const]
    simp only [← hfs.1, List.take_left]
  rw [rollsMean, hsplit, rollsIntegral_mul_right, rollsMean, pow_succ, mul_div_mul_right _ _ hpos.ne']

/-- Several rolls sum, on average, to as many times the average of one. -/
theorem rollsMean_sum (hpos : 0 < t.total) (n : Nat) :
    (t.rollsMean n fun fs => (Face.sum fs : Rat)) = n * (t.integral Face.amount / t.total) := by
  induction n with
  | zero => simp [rollsMean, rollsIntegral, Face.sum, Face.values]
  | succ n ih =>
    have hstep : (t.rollsIntegral (n + 1) fun fs => (Face.sum fs : Rat)) =
        t.integral Face.amount * t.total ^ n + (t.rollsIntegral n fun fs => (Face.sum fs : Rat)) * t.total := by
      simp only [rollsIntegral, Face.sum_cons, rollsIntegral_add_fun, rollsIntegral_const]
      rw [integral_add, integral_const, integral_mul_right]
    rw [rollsMean, div_eq_iff (pow_pos hpos n).ne'] at ih
    rw [rollsMean, div_eq_iff (pow_pos hpos (n + 1)).ne', hstep, ih]
    push_cast
    field_simp
    ring

end Table

namespace Distribution
open Table
variable {die : Distribution Rat}

/-! ### Over one distribution -/

/-- The average of a function of the face that comes up. -/
def mean (φ : Face → Rat) (d : Distribution Rat) : Rat := d.table.integral φ / d.total

theorem sum_numbers_eq_integral (d : Distribution Rat) :
    (d.numbers.map fun e => (e.1.toInt : Rat) * e.2).sum = d.table.integral Face.amount := by
  have key (l : List (Face × Rat)) :
      ((l.filterMap fun e => e.1.value?.map (·, e.2)).map fun e => (e.1.toInt : Rat) * e.2).sum =
        (l.map fun e => e.1.amount * e.2).sum := by
    induction l with
    | nil => rfl
    | cons e l ih =>
      obtain ⟨f, w⟩ := e
      rw [List.map_cons, List.sum_cons, ← ih]
      cases f with
      | number v => exact List.sum_cons
      | label name =>
        rw [Face.amount_label, zero_mul, zero_add]
        rfl
  exact key d.table.entries

theorem average_eq_mean (d : Distribution Rat) : d.average = d.mean Face.amount := by
  rw [average, mean, Weight.sum_eq_sum, ← sum_numbers_eq_integral]
  by_cases h : d.total = 0
  · simp [h]
  · simp [h]
    rfl

theorem rollsMean_sum_eq_average (hpos : 0 < die.total) (n : Nat) :
    (die.table.rollsMean n fun fs => (Face.sum fs : Rat)) = n * die.average := by
  rw [Table.rollsMean_sum hpos, average_eq_mean]
  rfl

namespace ResultOf
variable {d : Distribution Rat} {t : Table Rat} {n : Nat} {out : List Face → Face}

theorem total_eq (h : ResultOf d t n out) : d.total = t.total ^ n := by
  rw [total_eq_integral, h.integral, rollsIntegral_const, one_mul]

theorem mean_eq (h : ResultOf d t n out) (φ : Face → Rat) : d.mean φ = t.rollsMean n fun fs => φ (out fs) := by
  rw [mean, h.integral, h.total_eq, rollsMean]

end ResultOf

/-! ### Sums of copies -/

theorem Fits.amount_together (hdie : die.Numeric) {n : Nat} (h : Fits n die.table) {fs : List Face}
    (hfs : die.table.Shows n fs) : (Face.together fs).amount = Face.sum fs := by
  rw [hdie.together_eq hfs, Face.amount_number, (h.inRange_sum_of_shows le_rfl hfs).toInt_ofIntClamp]

theorem average_sumOfCopies (hdie : die.Numeric) (hpos : 0 < die.total) {count : Nat} (h : Fits count die.table) :
    (sumOfCopies count die).average = count * die.average := by
  rw [average_eq_mean, h.heldInParts.resultOf_sumOfCopies.mean_eq, ← rollsMean_sum_eq_average hpos]
  exact rollsMean_congr fun fs hfs => h.amount_together hdie hfs

/-! ### Copies in a rolled number -/

/-- A mixture over counts has the average of the averages of its copies. -/
theorem mean_mixture_counts (φ : Face → Rat) (B : Int64 → Distribution Rat) (counts : Distribution Rat) :
    (mixture (counts.numbers.map fun e => ⟨e.2, (B e.1).total, B e.1⟩)).mean φ =
      ((living B counts).map fun e => e.2 * (B e.1).mean φ).sum / ((living B counts).map (·.2)).sum := by
  have hfactor : ((living B counts).map fun e =>
      e.2 * (commonTotal B counts / (B e.1).total) * (B e.1).table.integral φ).sum =
        commonTotal B counts * ((living B counts).map fun e => e.2 * (B e.1).mean φ).sum := by
    rw [← List.sum_map_mul_left]
    refine congrArg List.sum (List.map_congr_left fun e _ => ?_)
    rw [mean]
    ring
  rw [mean, integral_mixture_counts, hfactor, total_mixture_counts,
    mul_div_mul_left _ _ (commonTotal_pos B counts).ne']

/-- Without a keep selector the copies for a count are summed, so none of them are without weight if the die is not. -/
theorem living_sums {limits : Limits} {counts : Distribution Rat} {B : Int64 → Distribution Rat} (hpos : 0 < die.total)
    (hkeep : die.keep? = none) (hB : ∀ e ∈ counts.numbers, copies limits die e.1 = .ok (B e.1)) :
    living B counts = counts.numbers ∧
      ∀ e ∈ counts.numbers, 0 ≤ e.1.toInt ∧ B e.1 = sumOfCopies e.1.toInt.toNat die := by
  have hsums (e : Int64 × Rat) (he : e ∈ counts.numbers) :
      0 ≤ e.1.toInt ∧ B e.1 = sumOfCopies e.1.toInt.toNat die := by
    obtain ⟨⟨hcount, -⟩, hbranch⟩ := copies_eq_ok.mp (hB e he)
    rw [branch, hkeep] at hbranch
    exact ⟨hcount, (Except.ok.inj hbranch).symm⟩
  refine ⟨List.filter_eq_self.mpr fun e he => decide_eq_true ?_, hsums⟩
  rw [(hsums e he).2, total_sumOfCopies]
  exact pow_pos hpos _

/-- The average of copies in a rolled number is the average of the number times that of the die. Labels among the
counts are left out of both; without any, the number is averaged as it stands. A number that is certain counts as it
is. -/
theorem average_repeated {limits : Limits} {counts r : Distribution Rat} (hdie : die.Numeric) (hpos : 0 < die.total)
    (hkeep : die.keep? = none) (h : repeated limits counts die = .ok r)
    (hrange : ∀ e ∈ counts.numbers, ∀ v, .number v ∈ die.table.faces →
      |v.toInt| * e.1.toInt ≤ Int64.maxValue.toInt) :
    r.average = (ofWeights counts.numbers).average * die.average ∧
    (counts.Numeric → r.average = counts.average * die.average) ∧
    ∀ k : Nat, (∀ v, .number v ∈ die.table.faces → |v.toInt| * k ≤ Int64.maxValue.toInt) →
      (sumOfCopies k die).average = k * die.average := by
  obtain ⟨B, hB, rfl⟩ := repeated_eq_ok.mp h
  obtain ⟨hliving, hsums⟩ := living_sums hpos hkeep hB
  have hcopies (e : Int64 × Rat) (he : e ∈ counts.numbers) :
      e.2 * (B e.1).mean Face.amount = e.1.toInt * e.2 * die.average := by
    obtain ⟨hcount, hsum⟩ := hsums e he
    have hcast : (e.1.toInt.toNat : Int) = e.1.toInt := Int.toNat_of_nonneg hcount
    have hfits : Fits e.1.toInt.toNat die.table := fits_of_abs fun v hv => by
      rw [hcast]
      exact hrange e he v hv
    have hrat : (e.1.toInt.toNat : Rat) = e.1.toInt := by exact_mod_cast hcast
    rw [← average_eq_mean, hsum, average_sumOfCopies hdie hpos hfits, hrat]
    ring
  have hnumbers : (mixture (counts.numbers.map fun e => ⟨e.2, (B e.1).total, B e.1⟩)).average =
      (counts.numbers.map fun e => (e.1.toInt : Rat) * e.2).sum / (counts.numbers.map (·.2)).sum * die.average := by
    rw [average_eq_mean, mean_mixture_counts, hliving, List.map_congr_left hcopies, List.sum_map_mul_right,
      div_mul_eq_mul_div]
  refine ⟨?_, fun hcounts => ?_, fun k hk => average_sumOfCopies hdie hpos (fits_of_abs hk)⟩
  · have hamount : (ofWeights counts.numbers).table.integral Face.amount =
        (counts.numbers.map fun e => (e.1.toInt : Rat) * e.2).sum := by
      rw [ofWeights, ofFaces, ofTable, integral_ofList, List.map_map]
      rfl
    rw [hnumbers, average_eq_mean (ofWeights counts.numbers), mean, hamount, total_ofWeights]
  · rw [hnumbers, average_eq_mean counts, mean, sum_numbers_eq_integral, hcounts.sum_numbers]

/-- None, two or five dice, five of them with weight zero: one and a half dice on average, of two thirds each. -/
theorem average_repeated_two_thirds : ∃ counts die r : Distribution Rat, die.Numeric ∧ 0 < die.total ∧
    die.keep? = none ∧ counts.Numeric ∧ repeated {} counts die = .ok r ∧
    (∀ e ∈ counts.numbers, ∀ v, .number v ∈ die.table.faces → |v.toInt| * e.1.toInt ≤ Int64.maxValue.toInt) ∧
    counts.average = 3 / 2 ∧ die.average = 2 / 3 ∧ r.average = counts.average * die.average ∧
    (sumOfCopies 5 die).average = (5 : Nat) * die.average := by
  let counts : Distribution Rat := ofWeights [(0, 1), (2, 3), (5, 0)]
  let die : Distribution Rat := ofWeights [(-1, 1 / 2), (4, 1 / 4)]
  have hdie : die.table.faces = [.number (-1), .number 4] := by decide +kernel
  have hfive : ∀ e ∈ counts.numbers, e.1.toInt ≤ 5 := by decide +kernel
  have hsmall (v : Int64) (hv : .number v ∈ die.table.faces) (k : Int) (hk : k ≤ 5) :
      |v.toInt| * k ≤ Int64.maxValue.toInt := by
    have hfour : |v.toInt| ≤ 4 := by
      rw [hdie] at hv
      obtain rfl | rfl : v = -1 ∨ v = 4 := by simpa using hv
      · decide
      · decide
    calc
      _ ≤ |v.toInt| * 5 := mul_le_mul_of_nonneg_left hk (abs_nonneg _)
      _ ≤ 4 * 5 := mul_le_mul_of_nonneg_right hfour (by decide)
      _ ≤ _ := by decide
  have hrange : ∀ e ∈ counts.numbers, ∀ v, .number v ∈ die.table.faces →
      |v.toInt| * e.1.toInt ≤ Int64.maxValue.toInt := fun e he v hv => hsmall v hv _ (hfive e he)
  have hsome : (repeated {} counts die).toOption.isSome = true := by decide +kernel
  obtain ⟨r, hr⟩ := Option.isSome_iff_exists.mp hsome
  have hr := toOption_eq_some.mp hr
  have hpos : 0 < die.total := by decide +kernel
  have hdieNumeric : die.Numeric := (plain_ofWeights (by norm_num)).numeric
  have hcountsNumeric : counts.Numeric := (plain_ofWeights (by norm_num)).numeric
  obtain ⟨-, haverage, hsums⟩ := average_repeated hdieNumeric hpos rfl hr hrange
  exact ⟨counts, die, r, hdieNumeric, hpos, rfl, hcountsNumeric, hr, hrange, by decide +kernel, by decide +kernel,
    haverage hcountsNumeric, hsums 5 fun v hv => hsmall v hv 5 le_rfl⟩

end Distribution
end DiceLaw
