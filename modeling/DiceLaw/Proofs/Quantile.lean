import Mathlib.Algebra.Order.Floor.Semiring
import Mathlib.Data.Rat.Floor
import DiceLaw.Distribution.Readout
import DiceLaw.Proofs.Mass

/-! Rolling as the quantile function of a distribution. The faces in their order lay their weights end to end;
a word names a share of the total, and the face whose stretch holds that share comes up. How many words
name a stretch is told by its length, for whole numbers stand at distance one. -/
namespace DiceLaw

namespace Distribution
open Table

/-! ### Stretches -/

/-- The weight of all smaller faces. -/
def weightBefore (d : Distribution Rat) (f : Face) : Rat := d.table.integral fun g => if g < f then 1 else 0

theorem weightBefore_add_weight (d : Distribution Rat) (f : Face) :
    d.weightBefore f + d.weight f = d.table.integral fun g => if f < g then 0 else 1 := by
  rw [weightBefore, weight_eq_integral, ← integral_add]
  apply congrArg d.table.integral
  funext g
  by_cases hg : g = f
  · simp [hg, Face.not_lt_self]
  by_cases hgf : g < f
  · have hfg : ¬ f < g := fun hfg => Face.not_lt_self g (Face.lt_trans hgf hfg)
    simp [hg, hgf, hfg]
  · simp [hg, hgf, Face.lt_of_not_lt hgf hg]

/-- The face reached at a share of the total: smaller faces weigh no more than that, with it they weigh more. -/
@[mk_iff]
structure IsQuantile (d : Distribution Rat) (share : Rat) (f : Face) : Prop where
  before_le : d.weightBefore f ≤ share * d.total
  lt_after : share * d.total < d.weightBefore f + d.weight f

theorem IsQuantile.weight_pos {d : Distribution Rat} {share : Rat} {f : Face} (h : d.IsQuantile share f) :
    0 < d.weight f := by
  linarith [h.before_le, h.lt_after]

namespace Nonneg
variable {d : Distribution Rat} (h : d.Nonneg)
include h

theorem weightBefore_nonneg (f : Face) : 0 ≤ d.weightBefore f :=
  h.integral_nonneg fun g => by split <;> norm_num

/-- Stretches follow one another. -/
theorem after_le_weightBefore {f g : Face} (hfg : f < g) : d.weightBefore f + d.weight f ≤ d.weightBefore g := by
  rw [weightBefore_add_weight, weightBefore]
  apply h.integral_mono
  intro x
  by_cases hfx : f < x
  · rw [if_pos hfx]
    split <;> norm_num
  · have hxg : x < g := by
      by_cases hx : f = x
      · exact hx ▸ hfg
      · exact Face.lt_trans (Face.lt_of_not_lt hfx hx) hfg
    rw [if_neg hfx, if_pos hxg]

theorem after_le_total (f : Face) : d.weightBefore f + d.weight f ≤ d.total := by
  rw [weightBefore_add_weight, total_eq_integral]
  exact h.integral_mono fun x => by split <;> norm_num

/-- Greater shares reach no smaller face. -/
theorem not_lt_of_isQuantile {p q : Rat} {f g : Face} (hf : d.IsQuantile p f) (hg : d.IsQuantile q g) (hpq : p ≤ q) :
    ¬ g < f := by
  intro hgf
  have hpoint : p * d.total ≤ q * d.total := mul_le_mul_of_nonneg_right hpq h.total_nonneg
  linarith [h.after_le_weightBefore hgf, hf.before_le, hg.lt_after]

/-- A share reaches one face only. -/
theorem eq_of_isQuantile {p : Rat} {f g : Face} (hf : d.IsQuantile p f) (hg : d.IsQuantile p g) : f = g := by
  by_contra hne
  exact h.not_lt_of_isQuantile hg hf le_rfl (Face.lt_of_not_lt (h.not_lt_of_isQuantile hf hg le_rfl) (Ne.symm hne))

end Nonneg

/-! ### Walking up -/

/-- The walk stops at the entry whose stretch, behind those passed, holds the point. -/
theorem entryAt_eq {point before : Rat} {e : Face × Rat} {rest : List (Face × Rat)} (hbefore : before ≤ point)
    (hpoint : point < before + ((e :: rest).map (·.2)).sum) :
    ∃ passed a behind, e :: rest = passed ++ a :: behind ∧ entryAt point (before + e.2) e rest = a.1 ∧
      before + (passed.map (·.2)).sum ≤ point ∧ point < before + (passed.map (·.2)).sum + a.2 := by
  induction rest generalizing before e with
  | nil => exact ⟨[], e, [], rfl, rfl, by simpa using hbefore, by simpa using hpoint⟩
  | cons next rest ih =>
    rw [entryAt]
    split
    next h => exact ⟨[], e, next :: rest, rfl, rfl, by simpa using hbefore, by simpa using h⟩
    next h =>
      rw [List.map_cons, List.sum_cons, ← add_assoc] at hpoint
      obtain ⟨passed, a, behind, hsplit, hface, hlow, hhigh⟩ := ih (not_lt.mp h) hpoint
      refine ⟨e :: passed, a, behind, by rw [hsplit]; rfl, hface, ?_, ?_⟩
      · rwa [List.map_cons, List.sum_cons, ← add_assoc]
      · rwa [List.map_cons, List.sum_cons, ← add_assoc]

theorem weightBefore_eq_sum {d : Distribution Rat} {passed behind : List (Face × Rat)} {a : Face × Rat}
    (h : d.table.entries = passed ++ a :: behind) : d.weightBefore a.1 = (passed.map (·.2)).sum := by
  have hascending := h ▸ d.table.ascending
  obtain ⟨-, hbehind, hpassed⟩ := List.pairwise_append.mp hascending
  have hlow : ∀ e ∈ passed, (if e.1 < a.1 then 1 else 0) * e.2 = e.2 := fun e he => by
    rw [if_pos (hpassed e he a (by simp)), one_mul]
  have hhigh : ∀ e ∈ a :: behind, (if e.1 < a.1 then 1 else 0) * e.2 = 0 := fun e he => by
    rw [if_neg, zero_mul]
    rcases List.mem_cons.mp he with rfl | he
    · exact Face.not_lt_self e.1
    · exact fun hea => Face.not_lt_self a.1 (Face.lt_trans ((List.pairwise_cons.mp hbehind).1 e he) hea)
  rw [weightBefore, integral, h, List.map_append, List.sum_append, List.map_congr_left hlow,
    List.map_congr_left hhigh]
  simp

theorem isQuantile_entryAt {d : Distribution Rat} {e : Face × Rat} {rest : List (Face × Rat)}
    (hentries : d.table.entries = e :: rest) (htotal : 0 < d.total) {share : Rat} (hshare : 0 ≤ share)
    (hone : share < 1) : d.IsQuantile share (entryAt (share * d.total) e.2 e rest) := by
  have hsum : d.total = ((e :: rest).map (·.2)).sum := by
    rw [total, Table.total, Weight.sum_eq_sum, hentries]
  have hpoint : share * d.total < d.total := by
    simpa using mul_lt_mul_of_pos_right hone htotal
  obtain ⟨passed, a, behind, hsplit, hface, hlow, hhigh⟩ :=
    entryAt_eq (mul_nonneg hshare htotal.le) (by rwa [zero_add, ← hsum])
  rw [hsplit] at hentries
  have ha : d.weight a.1 = a.2 := Table.weight_of_mem (by rw [hentries]; simp)
  rw [zero_add] at hface hlow hhigh
  rw [hface]
  exact ⟨weightBefore_eq_sum hentries ▸ hlow, by rwa [weightBefore_eq_sum hentries, ha]⟩

/-! ### Words -/

/-- The upper 52 bits of a word as a number. -/
def upper (word : UInt64) : Nat := (word >>> 12).toNat

theorem upper_eq_div (word : UInt64) : upper word = word.toNat / 2 ^ 12 := by
  rw [upper, UInt64.toNat_shiftRight, Nat.shiftRight_eq_div_pow]
  rfl

theorem upper_lt (word : UInt64) : upper word < 2 ^ 52 := by
  rw [upper_eq_div]
  exact Nat.div_lt_of_lt_mul word.toNat_lt

theorem upper_mono {low high : UInt64} (h : low ≤ high) : upper low ≤ upper high := by
  rw [upper_eq_div, upper_eq_div]
  exact Nat.div_le_div_right (UInt64.le_iff_toNat_le.mp h)

theorem fraction_eq (word : UInt64) : (fraction word : Rat) = upper word / 2 ^ 52 := by
  have hupper : (word >>> 12).toInt64.toInt = upper word :=
    BitVec.toInt_eq_toNat_of_lt (Nat.lt_trans (Nat.mul_lt_mul_of_pos_left (upper_lt word) two_pos) (by norm_num))
  have hunit : Int64.toInt 4503599627370496 = 2 ^ 52 := by decide
  change (((word >>> 12).toInt64.toInt : Int) : Rat) / ((Int64.toInt 4503599627370496 : Int) : Rat) = _
  rw [hupper, hunit, Int.cast_natCast, Int.cast_pow, Int.cast_ofNat]

/-- Exact points fall short of the total anyway. -/
theorem span_eq (total : Rat) : span total = total := by
  rw [span]
  split <;> rfl

/-! ### Counting -/

instance (d : Distribution Rat) (share : Rat) (f : Face) : Decidable (d.IsQuantile share f) :=
  decidable_of_iff' _ (isQuantile_iff d share f)

/-- As many whole numbers lie in a stretch as it is long, short of one more or less. -/
theorem abs_card_sub_length_lt_one {a b : Rat} {n : Nat} (ha : 0 ≤ a) (hab : a ≤ b) (hb : b ≤ n) :
    |(((Finset.range n).filter fun m : Nat => a ≤ m ∧ m < b).card : Rat) - (b - a)| < 1 := by
  have hstretch : ((Finset.range n).filter fun m : Nat => a ≤ m ∧ m < b) = Finset.Ico ⌈a⌉₊ ⌈b⌉₊ := by
    ext m
    rw [Finset.mem_filter, Finset.mem_range, Finset.mem_Ico, Nat.ceil_le, Nat.lt_ceil]
    exact and_iff_right_of_imp fun h => by exact_mod_cast h.2.trans_le hb
  rw [hstretch, Nat.card_Ico, Nat.cast_sub (Nat.ceil_mono hab), abs_lt]
  have hlow := Nat.ceil_lt_add_one ha
  have hhigh := Nat.ceil_lt_add_one (ha.trans hab)
  constructor
  · linarith [Nat.le_ceil b]
  · linarith [Nat.le_ceil a]

/-- Of equally spaced shares every face is reached by its part, short of one more or less. -/
theorem Nonneg.abs_card_isQuantile_sub_lt_one {d : Distribution Rat} (h : d.Nonneg) (htotal : 0 < d.total)
    {n : Nat} (hn : 0 < n) (f : Face) :
    |(((Finset.range n).filter fun m : Nat => d.IsQuantile (m / n) f).card : Rat) - n * d.chance f| < 1 := by
  have hnpos : (0 : Rat) < n := Nat.cast_pos.mpr hn
  have hstretch (m : Nat) : d.IsQuantile (m / n) f ↔
      n * d.weightBefore f / d.total ≤ m ∧ m < n * (d.weightBefore f + d.weight f) / d.total := by
    have hpoint : (m : Rat) / n * d.total = m * d.total / n := div_mul_eq_mul_div ..
    rw [isQuantile_iff, hpoint, le_div_iff₀' hnpos, div_lt_iff₀' hnpos, div_le_iff₀ htotal, lt_div_iff₀ htotal]
  have hlength : n * d.chance f =
      n * (d.weightBefore f + d.weight f) / d.total - n * d.weightBefore f / d.total := by
    rw [chance_eq]
    ring
  simp only [hstretch, hlength]
  apply abs_card_sub_length_lt_one
  · exact div_nonneg (mul_nonneg hnpos.le (h.weightBefore_nonneg f)) htotal.le
  · exact div_le_div_of_nonneg_right
      (mul_le_mul_of_nonneg_left (le_add_of_nonneg_right (h f)) hnpos.le) htotal.le
  · rw [div_le_iff₀ htotal]
    exact mul_le_mul_of_nonneg_left (h.after_le_total f) hnpos.le

/-! ### Rolling -/

/-- Nothing can come up: no face is listed, some weight is negative, or the total is zero. -/
def Unrollable (d : Distribution Rat) : Prop :=
  d.table.entries = [] ∨ (∃ e ∈ d.table.entries, e.2 < 0) ∨ d.total = 0

instance (d : Distribution Rat) : Decidable d.Unrollable :=
  inferInstanceAs (Decidable (d.table.entries = [] ∨ (∃ e ∈ d.table.entries, e.2 < 0) ∨ d.total = 0))

theorem nonneg_of_not_unrollable {d : Distribution Rat} (h : ¬ d.Unrollable) : d.Nonneg :=
  nonneg_of_entries fun e he => not_lt.mp fun hneg => h (.inr (.inl ⟨e, he, hneg⟩))

theorem total_pos_of_not_unrollable {d : Distribution Rat} (h : ¬ d.Unrollable) : 0 < d.total :=
  lt_of_le_of_ne (nonneg_of_not_unrollable h).total_nonneg fun ht => h (.inr (.inr ht.symm))

theorem unrollable_iff {d : Distribution Rat} : d.Unrollable ↔ ¬ d.Rollable := by
  have hfinite : Weight.isFinite d.total = true := rfl
  simp [Unrollable, Rollable, Weighted, hfinite, imp_iff_not_or]

/-- Every word is answered by the face at its share. -/
theorem roller?_of_not_unrollable {d : Distribution Rat} (h : ¬ d.Unrollable) :
    ∃ pick : Nat → Face, d.roller? = some (fun word => pick (upper word)) ∧
      ∀ m : Nat, m < 2 ^ 52 → d.IsQuantile (m / 2 ^ 52) (pick m) := by
  obtain ⟨e, rest, hentries⟩ := List.exists_cons_of_ne_nil fun hnil => h (.inl hnil)
  have hroll : (d.table.entries.all fun e => decide (0 ≤ e.2)) && !(d.total == 0) := by
    rw [Bool.and_eq_true, List.all_eq_true, Bool.not_eq_true', beq_eq_false_iff_ne]
    exact ⟨fun a ha => decide_eq_true (not_lt.mp fun hneg => h (.inr (.inl ⟨a, ha, hneg⟩))),
      fun ht => h (.inr (.inr ht))⟩
  refine ⟨fun m => entryAt (m / 2 ^ 52 * d.total) e.2 e rest, ?_, fun m hm => ?_⟩
  · rw [roller?]
    split
    next hnil => rw [hentries] at hnil; cases hnil
    next a behind hcons =>
      obtain ⟨rfl, rfl⟩ := List.cons.inj (hentries.symm.trans hcons)
      simp only [span_eq, fraction_eq]
      exact if_pos (Bool.and_eq_true_iff.mpr ⟨hroll, rfl⟩)
  · have hm' : (m : Rat) < 2 ^ 52 := by exact_mod_cast hm
    exact isQuantile_entryAt hentries (total_pos_of_not_unrollable h) (by positivity)
      ((div_lt_one (by norm_num)).mpr hm')

theorem rolls_of_unrollable {d : Distribution Rat} (h : d.Unrollable) (count : Nat) (s : WordStream) :
    d.rolls count s = ([], s) := rolls_of_not_rollable (unrollable_iff.mp h) count s

/-- The note takes no part. -/
theorem rolls_congr {d e : Distribution Rat} (h : d.table = e.table) : d.rolls = e.rolls := by
  cases d
  cases e
  cases h
  rfl

/-- A roll fails, without taking a word, just where nothing can come up. Otherwise the upper bits of each word
name a share, and the face at that share comes up: never one without weight, no smaller one for a
greater word, and each for as many upper bits as its chance demands, short of one more or less. The order
in which entries were collected does not matter, and no total is so large that the run would stop. -/
theorem rolls_quantile (d : Distribution Rat) :
    (∀ s, (d.rolls 1 s).1 = [] ↔ d.Unrollable) ∧
    (d.Unrollable → ∀ count s, d.rolls count s = ([], s)) ∧
    (¬ d.Unrollable → ∃ pick : Nat → Face,
      (∀ count s, d.rolls count s = ((s.take count).1.map fun word => pick (upper word), (s.take count).2)) ∧
      (∀ m : Nat, m < 2 ^ 52 → d.IsQuantile (m / 2 ^ 52) (pick m)) ∧
      (∀ word, 0 < d.weight (pick (upper word))) ∧
      (∀ low high, low ≤ high → ¬ pick (upper high) < pick (upper low)) ∧
      ∀ f, |(((Finset.range (2 ^ 52)).filter fun m => pick m = f).card : Rat) - 2 ^ 52 * d.chance f| < 1) ∧
    (∀ entries entries' : List (Face × Rat), d.table = .ofList entries → entries.Perm entries' →
      d.rolls = (ofFaces entries').rolls) ∧
    ∀ count s, d.rolls? count s = some (d.rolls count s) := by
  refine ⟨fun s => ⟨?_, fun h => by rw [rolls_of_unrollable h]⟩, rolls_of_unrollable, ?_, ?_, fun count s => ?_⟩
  · intro hnone
    by_contra h
    obtain ⟨pick, hroller, -⟩ := roller?_of_not_unrollable h
    rw [rolls_of_roller? hroller] at hnone
    simpa using congrArg List.length hnone
  · intro h
    have hnonneg := nonneg_of_not_unrollable h
    obtain ⟨pick, hroller, hpick⟩ := roller?_of_not_unrollable h
    have hface (m : Nat) (hm : m < 2 ^ 52) (f : Face) : pick m = f ↔ d.IsQuantile (m / 2 ^ 52) f :=
      ⟨fun hf => hf ▸ hpick m hm, fun hf => hnonneg.eq_of_isQuantile (hpick m hm) hf⟩
    refine ⟨pick, rolls_of_roller? hroller, hpick, fun word => (hpick _ (upper_lt word)).weight_pos, ?_, ?_⟩
    · intro low high hle
      refine hnonneg.not_lt_of_isQuantile (hpick _ (upper_lt low)) (hpick _ (upper_lt high)) ?_
      exact div_le_div_of_nonneg_right (Nat.cast_le.mpr (upper_mono hle)) (by norm_num)
    · intro f
      have hcount :=
        hnonneg.abs_card_isQuantile_sub_lt_one (total_pos_of_not_unrollable h) (n := 2 ^ 52) (by norm_num) f
      rw [Finset.filter_congr fun m hm => hface m (Finset.mem_range.mp hm) f]
      exact_mod_cast hcount
  · intro entries entries' htable hperm
    exact rolls_congr (htable.trans (ofList_perm hperm))
  · exact if_neg fun h => Bool.noConfusion (show true = false from h.2.2)

theorem rolls_quantile_three_faces :
    let d : Distribution Rat := ofFaces [(.label "crit", 1), (.number 3, 0), (.number (-1), 2)]
    ¬ d.Unrollable ∧ ∃ pick : Nat → Face,
      (∀ count s, d.rolls count s = ((s.take count).1.map fun word => pick (upper word), (s.take count).2)) ∧
      (∀ word, pick (upper word) ≠ .number 3) ∧
      |(((Finset.range (2 ^ 52)).filter fun m => pick m = .label "crit").card : Rat) - 2 ^ 52 / 3| < 1 := by
  intro d
  have hroll : ¬ d.Unrollable := by decide +kernel
  have hchance : d.chance (.label "crit") = 1 / 3 := by decide +kernel
  obtain ⟨-, -, h, -⟩ := rolls_quantile d
  obtain ⟨pick, hrolls, -, hweight, -, hcount⟩ := h hroll
  refine ⟨hroll, pick, hrolls, fun word hface => ?_, ?_⟩
  · have hpos := hweight word
    rw [hface] at hpos
    exact absurd hpos (by decide +kernel)
  · have hcrit := hcount (.label "crit")
    rwa [hchance, mul_one_div] at hcrit

end Distribution
end DiceLaw
