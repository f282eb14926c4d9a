import DiceLaw.Proofs.Doubling
import DiceLaw.Proofs.Mass

/-! Keep selections at their ends. Keeping all copies sums them, and keeping one is the largest or the smallest of
them: what is read off the enumerated rolls is what the plain operations read off theirs. -/
namespace DiceLaw

namespace Face

/-- The sum of the best numbers among some faces, held once. -/
def kept (k : Keep) (fs : List Face) : Face := .number (.ofIntClamp ((k.best (values fs)).map Int64.toInt).sum)

theorem values_append (fs gs : List Face) : values (fs ++ gs) = values fs ++ values gs := List.filterMap_append

theorem values_map_number {W : Type} (draw : List (Int64 × W)) :
    values (draw.map fun e => .number e.1) = draw.map (·.1) := by
  simp [values, value?, Function.comp_def]

end Face

/-- The number that is kept of two. -/
def Direction.better : Direction → Int64 → Int64 → Int64
  | .highest => Max.max
  | .lowest => Min.min

theorem Keep.select_singleton (direction : Direction) (u v : Int64) :
    select ⟨direction, 1⟩ [u] v = [direction.better u v] := by
  cases direction with
  | highest =>
    have hmax : Direction.highest.better u v = if u ≤ v then v else u := rfl
    by_cases h : u < v
    · simp [select, prefers, hmax, h, Int64.le_of_lt h]
    · have heq (hle : u ≤ v) : u = v := Int64.le_antisymm hle (Int64.not_lt.mp h)
      by_cases hle : u ≤ v
      · obtain rfl := heq hle
        simp [select, prefers, hmax]
      · simp [select, prefers, hmax, h, hle]
  | lowest =>
    have hmin : Direction.lowest.better u v = if u ≤ v then u else v := rfl
    by_cases h : v < u
    · simp [select, prefers, hmin, h, Int64.not_le.mpr h]
    · simp [select, prefers, hmin, h, Int64.not_lt.mp h]

/-- Of a row of numbers and one more the best is the better of the best and the last. -/
theorem Keep.best_append_singleton (direction : Direction) {vs : List Int64} (hvs : vs ≠ []) (v : Int64) :
    ∃ u, best ⟨direction, 1⟩ vs = [u] ∧ best ⟨direction, 1⟩ (vs ++ [v]) = [direction.better u v] := by
  have hlength : (best ⟨direction, 1⟩ vs).length = 1 := by
    have := List.length_pos_of_ne_nil hvs
    rw [length_best]
    change min 1 vs.length = 1
    omega
  obtain ⟨u, hu⟩ := List.length_eq_one_iff.mp hlength
  refine ⟨u, hu, ?_⟩
  rw [← select_best, hu, select_singleton]

namespace Distribution
open Table

/-! ### Enumerated rolls -/

section Enumerated
variable {die : Distribution Rat}

theorem Numeric.sum_draws (h : die.Numeric) (n : Nat) (φ : List Face → Rat) :
    ((draws die.numbers n).map fun draw => φ (draw.map fun e => .number e.1) * (draw.map (·.2)).prod).sum =
      die.table.rollsIntegral n φ := by
  induction n generalizing φ with
  | zero => simp [draws, rollsIntegral]
  | succ n ih =>
    rw [draws, Weight.sum_map_flatMap, rollsIntegral, Table.integral, h.entries, List.map_map]
    apply congrArg List.sum
    apply List.map_congr_left
    intro e _
    rw [List.map_map, Function.comp_apply, ← ih, ← List.sum_map_mul_right]
    apply congrArg List.sum
    apply List.map_congr_left
    intro draw _
    simp only [Function.comp_apply, List.map_cons, List.prod_cons]
    ring

theorem Numeric.shows_iff (h : die.Numeric) {n : Nat} {fs : List Face} :
    die.table.Shows n fs ↔ ∃ draw ∈ draws die.numbers n, (draw.map fun e => .number e.1) = fs := by
  have hfaces (f : Face) : f ∈ die.table.faces ↔ ∃ e ∈ die.numbers, .number e.1 = f := by
    rw [Table.faces, h.entries, List.map_map, List.mem_map]
    rfl
  induction n generalizing fs with
  | zero =>
    constructor
    · intro hfs
      exact ⟨[], List.mem_singleton_self _, hfs.eq_nil.symm⟩
    · rintro ⟨draw, hdraw, rfl⟩
      obtain rfl := List.mem_singleton.mp hdraw
      exact shows_nil
  | succ n ih =>
    simp only [shows_succ, draws, List.mem_flatMap, List.mem_map, hfaces, ih]
    constructor
    · rintro ⟨_, _, ⟨e, he, rfl⟩, ⟨draw, hdraw, rfl⟩, rfl⟩
      exact ⟨_, ⟨e, he, draw, hdraw, rfl⟩, rfl⟩
    · rintro ⟨_, ⟨e, he, draw, hdraw, rfl⟩, rfl⟩
      exact ⟨_, _, ⟨e, he, rfl⟩, ⟨draw, hdraw, rfl⟩, rfl⟩

theorem drawEntry_eq_kept (k : Keep) (draw : List (Int64 × Rat)) :
    drawEntry k [] 1 draw = (Face.kept k (draw.map fun e => .number e.1), (draw.map (·.2)).prod) := by
  rw [drawEntry, Keep.foldl_select, foldl_mul, one_mul, Face.kept, Face.values_map_number]

theorem Numeric.resultOf_keptCopies (h : die.Numeric) (copies : Nat) (k : Keep) :
    ResultOf (keptCopies copies die k) die.table copies (Face.kept k) where
  integral := by
    intro φ
    rw [keptCopies, ofTable, integral_ofList, List.map_map, ← h.sum_draws]
    simp only [Function.comp_def, drawEntry_eq_kept]
  faces := by
    intro f
    simp only [keptCopies, ofTable, mem_faces_ofList, List.mem_map, h.shows_iff]
    constructor
    · rintro ⟨_, ⟨draw, hdraw, rfl⟩, rfl⟩
      exact ⟨_, ⟨draw, hdraw, rfl⟩, by rw [drawEntry_eq_kept]⟩
    · rintro ⟨_, ⟨draw, hdraw, rfl⟩, rfl⟩
      exact ⟨_, ⟨draw, hdraw, rfl⟩, by rw [drawEntry_eq_kept]⟩

/-- No more numbers are summed than are kept, and no more than are rolled. -/
theorem Fits.drawsInRange {count copies : Nat} (h : Fits count die.table) {k : Keep}
    (hk : k.count ≤ count ∨ copies ≤ count) : DrawsInRange die.numbers copies k := by
  intro draw hdraw
  have hlength : (k.best (draw.map (·.1))).length ≤ count := by
    rw [Keep.length_best, List.length_map, length_of_mem_draws hdraw]
    omega
  refine h.inRange_sum hlength fun v hv => ?_
  obtain ⟨e, he, rfl⟩ := List.mem_map.mp (Keep.mem_of_mem_best hv)
  exact number_mem_faces_iff.mpr ⟨e.2, mem_of_mem_draws hdraw he⟩

end Enumerated

/-! ### All kept -/

theorem Numeric.together_eq {die : Distribution Rat} (h : die.Numeric) {n : Nat} {fs : List Face}
    (hfs : die.table.Shows n fs) : Face.together fs = .number (.ofIntClamp (Face.sum fs)) := by
  have hlabel : fs.find? (·.value?.isNone) = none := by
    refine List.find?_eq_none.mpr fun f hf => ?_
    obtain ⟨v, rfl⟩ := h f (hfs.2 f hf)
    simp [Face.value?]
  rw [Face.together, hlabel]
  rfl

theorem Numeric.together_eq_kept {die : Distribution Rat} (h : die.Numeric) {n : Nat} {fs : List Face}
    (hfs : die.table.Shows n fs) {k : Keep} (hk : n ≤ k.count) : Face.together fs = Face.kept k fs := by
  have hall : (k.best (Face.values fs)).Perm (Face.values fs) := by
    rw [Keep.best, List.take_of_length_le]
    · exact List.mergeSort_perm ..
    · rw [List.length_mergeSort]
      exact ((List.length_filterMap_le ..).trans_eq hfs.1).trans hk
  rw [h.together_eq hfs, Face.kept, (hall.map _).sum_eq, Face.sum]

theorem Numeric.keptCopies_eq_sumOfCopies {die : Distribution Rat} (h : die.Numeric) {copies : Nat}
    (hheld : HeldInParts copies die.table) {k : Keep} (hk : copies ≤ k.count) :
    keptCopies copies die k = sumOfCopies copies die := by
  have hsum := hheld.resultOf_sumOfCopies.congr fun fs hfs => h.together_eq_kept hfs hk
  have htable := (h.resultOf_keptCopies copies k).table_eq hsum
  exact congrArg₂ Distribution.mk htable (note_sumOfCopies copies die).symm

/-! ### One kept -/

theorem Numeric.resultOf_foldl_better {die : Distribution Rat} (h : die.Numeric) (direction : Direction) (n : Nat) :
    ResultOf ((List.replicate n die).foldl (pairUp direction.better) die) die.table (1 + n)
      (Face.kept ⟨direction, 1⟩) := by
  have hone : ResultOf die die.table 1 (Face.kept ⟨direction, 1⟩) := resultOf_one rfl fun f hf => by
    obtain ⟨v, rfl⟩ := h f hf
    simp [Face.kept, Face.values, Face.value?, Keep.best, Int64.ofIntClamp_toInt]
  refine hone.foldl_pairUp n fun l fs f hl _ hfs hf => ?_
  obtain ⟨v, rfl⟩ := h f hf
  have hne : Face.values fs ≠ [] := by
    cases fs with
    | nil => exact absurd hfs.1.symm (by simp; omega)
    | cons g gs =>
      obtain ⟨w, rfl⟩ := h g (hfs.2 g (by simp))
      simp [Face.values, Face.value?]
  obtain ⟨u, hu, hbest⟩ := Keep.best_append_singleton direction hne v
  rw [Face.kept, Face.kept, Face.values_append, show Face.values [.number v] = [v] from rfl, hbest, hu]
  simp [pairFace, Int64.ofIntClamp_toInt]

/-- Where all copies of a die of numbers are kept, from the top or from the bottom, they are summed as ever. Where
one is kept it is the largest of the copies, or the smallest, compared one after the other. -/
theorem keepOfCopies_ends {die : Distribution Rat} (hnumeric : die.Numeric) {copies : Nat} {limit : UInt64}
    (hlimit : die.numbers.length ^ copies ≤ limit.toNat)
    (hrange : ∀ v, .number v ∈ die.table.faces → |v.toInt| * copies ≤ Int64.maxValue.toInt) :
    (∀ m, copies ≤ m → keepOfCopies copies die ⟨.highest, m⟩ limit = .ok (sumOfCopies copies die) ∧
      keepOfCopies copies die ⟨.lowest, m⟩ limit = .ok (sumOfCopies copies die)) ∧
    (0 < copies →
      keepOfCopies copies die ⟨.highest, 1⟩ limit =
        .ok ((List.replicate (copies - 1) die).foldl Distribution.max die).withoutNote ∧
      keepOfCopies copies die ⟨.lowest, 1⟩ limit =
        .ok ((List.replicate (copies - 1) die).foldl Distribution.min die).withoutNote) := by
  constructor
  · intro m hm
    have hall (direction : Direction) :
        keepOfCopies copies die ⟨direction, m⟩ limit = .ok (sumOfCopies copies die) := by
      have hsum := (resultOf_sumOfCopies (.inl hrange)).congr fun fs hfs =>
        hnumeric.together_eq_kept hfs (k := ⟨direction, m⟩) hm
      have htable := (hnumeric.resultOf_keptCopies copies ⟨direction, m⟩).table_eq hsum
      have hsums : DrawsInRange die.numbers copies ⟨direction, m⟩ := (fits_of_abs hrange).drawsInRange (.inr le_rfl)
      exact keepOfCopies_eq_ok.mpr
        ⟨⟨hlimit, hsums⟩, congrArg₂ Distribution.mk htable (note_sumOfCopies copies die).symm⟩
    exact ⟨hall .highest, hall .lowest⟩
  · intro hpos
    have hone (direction : Direction) : keepOfCopies copies die ⟨direction, 1⟩ limit =
        .ok ((List.replicate (copies - 1) die).foldl (pairUp direction.better) die).withoutNote := by
      have hfold := hnumeric.resultOf_foldl_better direction (copies - 1)
      rw [Nat.add_sub_cancel' hpos] at hfold
      have htable := (hnumeric.resultOf_keptCopies copies ⟨direction, 1⟩).table_eq hfold
      exact keepOfCopies_eq_ok.mpr
        ⟨⟨hlimit, drawsInRange_of_count_le_one le_rfl _ _⟩, congrArg₂ Distribution.mk htable rfl⟩
    exact ⟨hone .highest, hone .lowest⟩

/-- Two copies of a die with a negative number and one of weight zero, which is listed as ever. -/
theorem keepOfCopies_ends_two : ∃ die : Distribution Rat,
    die.Numeric ∧ die.numbers.length ^ 2 ≤ (9 : UInt64).toNat ∧
    (∀ v, .number v ∈ die.table.faces → |v.toInt| * (2 : Nat) ≤ Int64.maxValue.toInt) ∧
    keepOfCopies 2 die ⟨.lowest, 5⟩ 9 = .ok (sumOfCopies 2 die) ∧
    keepOfCopies 2 die ⟨.highest, 1⟩ 9 = .ok (Distribution.max die die).withoutNote ∧
    (Distribution.max die die).table.entries = [(.number (-2), 1 / 4), (.number 0, 0), (.number 3, 2)] := by
  let die : Distribution Rat := ofWeights [(-2, 1 / 2), (0, 0), (3, 1)]
  have hfaces : die.table.faces = [.number (-2), .number 0, .number 3] := by decide +kernel
  have hnumeric : die.Numeric := by
    intro f hf
    rw [hfaces] at hf
    obtain rfl | rfl | rfl : f = .number (-2) ∨ f = .number 0 ∨ f = .number 3 := by simpa using hf
    all_goals exact ⟨_, rfl⟩
  have hlimit : die.numbers.length ^ 2 ≤ (9 : UInt64).toNat := by decide +kernel
  have hrange : ∀ v, .number v ∈ die.table.faces → |v.toInt| * (2 : Nat) ≤ Int64.maxValue.toInt := by
    intro v hv
    rw [hfaces] at hv
    obtain rfl | rfl | rfl : v = -2 ∨ v = 0 ∨ v = 3 := by simpa using hv
    all_goals decide
  obtain ⟨hall, hone⟩ := keepOfCopies_ends hnumeric hlimit hrange
  exact ⟨die, hnumeric, hlimit, hrange, (hall 5 (by decide)).2, (hone (by decide)).1, by decide +kernel⟩

end Distribution
end DiceLaw
