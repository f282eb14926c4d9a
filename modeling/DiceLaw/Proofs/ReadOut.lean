import DiceLaw.Proofs.Average

/-! The read-out of collected entries. Among the entries a face may be repeated, weigh nothing and stand anywhere. It
has one row all the same, in its place among the others, and the row tells the share of all that was entered for it. -/
namespace DiceLaw

/-! ### The order of rows -/

/-- Numbers ascend and come before labels, which go by code point. -/
def Face.Precedes : Face → Face → Prop
  | number a, number b => a.toInt < b.toInt
  | number _, label _ => True
  | label _, number _ => False
  | label a, label b => List.Lex (fun c d => c.toNat < d.toNat) a.toList b.toList

theorem Face.precedes_iff {f g : Face} : f.Precedes g ↔ f < g := by
  cases f with
  | number a =>
    cases g with
    | number b => exact Int64.lt_iff_toInt_lt.symm.trans number_lt_number.symm
    | label name => exact iff_of_true trivial (number_lt_label a name)
  | label a =>
    cases g with
    | number b => exact iff_of_false id (by rintro ⟨⟩)
    | label b =>
      have hlt : label a < label b ↔ a < b := compareOfLessAndEq_eq_lt
      exact String.lt_iff.symm.trans hlt.symm

/-! ### Entries -/

/-- The weights entered for one face, added up. -/
def pooled (entries : List (Face × Rat)) (f : Face) : Rat := ((entries.filter (·.1 = f)).map (·.2)).sum

/-- The same entries in another order, some of one face put together or one taken apart. -/
inductive Regrouped : List (Face × Rat) → List (Face × Rat) → Prop where
  | perm {l k : List (Face × Rat)} : l.Perm k → Regrouped l k
  | merge (f : Face) (u w : Rat) (l : List (Face × Rat)) : Regrouped ((f, u) :: (f, w) :: l) ((f, u + w) :: l)
  | symm {l k : List (Face × Rat)} : Regrouped l k → Regrouped k l
  | trans {l k m : List (Face × Rat)} : Regrouped l k → Regrouped k m → Regrouped l m

namespace Distribution
open Table

theorem mem_faces_ofFaces (entries : List (Face × Rat)) (f : Face) :
    f ∈ (ofFaces entries).table.faces ↔ f ∈ entries.map (·.1) := by
  rw [ofFaces, ofTable, mem_faces_ofList, List.mem_map]

theorem weight_ofFaces (entries : List (Face × Rat)) (f : Face) : (ofFaces entries).weight f = pooled entries f := by
  rw [weight, ofFaces, ofTable, weight_ofList, pooled]
  induction entries with
  | nil => rfl
  | cons e entries ih => by_cases h : e.1 = f <;> simp [h, ih]

theorem total_ofFaces (entries : List (Face × Rat)) : (ofFaces entries).total = (entries.map (·.2)).sum := by
  rw [total_eq_integral, ofFaces, ofTable, integral_ofList]
  simp

theorem nonneg_ofFaces {entries : List (Face × Rat)} (h : ∀ e ∈ entries, 0 ≤ e.2) : (ofFaces entries).Nonneg := by
  intro f
  rw [weight_ofFaces]
  refine List.sum_nonneg fun w hw => ?_
  obtain ⟨e, he, rfl⟩ := List.mem_map.mp hw
  exact h e (List.mem_of_mem_filter he)

end Distribution

open DiceLaw.Distribution in
/-- Regrouped entries are collected to the same distribution. -/
theorem Regrouped.ofFaces_eq {l k : List (Face × Rat)} (h : Regrouped l k) : ofFaces l = ofFaces k := by
  induction h with
  | perm h => exact congrArg ofTable (Table.ofList_perm h)
  | merge f u w l =>
    refine ext_faces (fun g => ?_) (fun g => ?_) rfl
    · simp [mem_faces_ofFaces]
    · rw [weight_ofFaces, weight_ofFaces, pooled, pooled]
      by_cases hf : f = g <;> simp [hf, add_assoc]
  | symm _ ih => exact ih.symm
  | trans _ _ ih ih' => exact ih.trans ih'

/-! ### Rows -/

namespace Distribution
variable {W : Type} [Weight W]

theorem faces_outcomes (d : Distribution W) : d.outcomes.map (·.1) = d.table.faces := Table.faces_mapWeights _ d.table

theorem count_outcomes (d : Distribution W) (f : Face) :
    (d.outcomes.map (·.1)).count f = if f ∈ d.table.faces then 1 else 0 := by
  rw [faces_outcomes, d.table.nodup_faces.count]

theorem sum_outcomes_of_nonneg {d : Distribution Rat} (h : d.Nonneg) :
    (d.outcomes.map (·.2)).sum = if 0 < d.total then 1 else 0 := by
  split
  next hpos => exact sum_outcomes hpos.ne'
  next hpos =>
    have hzero : d.total = 0 := le_antisymm (not_lt.mp hpos) h.total_nonneg
    refine List.sum_eq_zero fun w hw => ?_
    obtain ⟨e, he, rfl⟩ := List.mem_map.mp hw
    rw [chance_of_mem_outcomes he, chance_eq, hzero, div_zero]

end Distribution

namespace Summary

/-- The rows of numbers. -/
def numbers {W : Type} (s : Summary W) : List (Int64 × W) := s.outcomes.filterMap fun e => e.1.value?.map (·, e.2)

theorem ofDistribution_congr {W : Type} [Weight W] {d e : Distribution W} (h : d.table = e.table) :
    ofDistribution d = ofDistribution e := by
  cases d
  cases e
  cases h
  rfl

theorem chance_of_mem_numbers {d : Distribution Rat} {e : Int64 × Rat} (he : e ∈ (ofDistribution d).numbers) :
    e.2 = (ofDistribution d).chance (.number e.1) :=
  Distribution.chance_of_mem_outcomes (Table.mem_numbers_iff.mp he)

theorem average_eq_sum (d : Distribution Rat) :
    d.average = ((ofDistribution d).numbers.map fun e => (e.1.toInt : Rat) * e.2).sum := by
  rw [Distribution.average_eq_mean, Distribution.mean, div_eq_mul_inv, ← Table.integral_mapWeights_mul,
    ← Distribution.shares_table]
  exact (Distribution.sum_numbers_eq_integral d.shares).symm

/-- What the read-out of some entries tells about them. -/
structure ReadsOut (s : Summary Rat) (entries : List (Face × Rat)) : Prop where
  total : s.total = (entries.map (·.2)).sum
  ascending : s.outcomes.Pairwise fun a b => a.1.Precedes b.1
  /-- Each face that was entered has one row, and no other has any. -/
  once : ∀ f, (s.outcomes.map (·.1)).count f = if f ∈ entries.map (·.1) then 1 else 0
  row : ∀ e ∈ s.outcomes, e.2 = s.chance e.1
  mass : (s.outcomes.map (·.2)).sum = if 0 < s.total then 1 else 0
  chance : ∀ f, s.chance f = if f ∈ entries.map (·.1) ∧ s.total ≠ 0 then pooled entries f / s.total else 0
  average : s.average = (s.numbers.map fun e => (e.1.toInt : Rat) * s.chance (.number e.1)).sum

theorem readsOut_ofFaces {entries : List (Face × Rat)} (h : ∀ e ∈ entries, 0 ≤ e.2) :
    (ofDistribution (Distribution.ofFaces entries)).ReadsOut entries where
  total := Distribution.total_ofFaces entries
  ascending := (Distribution.ofFaces entries).shares.table.ascending.imp Face.precedes_iff.mpr
  once f := by
    simp only [← Distribution.mem_faces_ofFaces]
    exact Distribution.count_outcomes _ f
  row _ he := Distribution.chance_of_mem_outcomes he
  mass := Distribution.sum_outcomes_of_nonneg (Distribution.nonneg_ofFaces h)
  chance f := by
    have hchance : (ofDistribution (Distribution.ofFaces entries)).chance f =
        pooled entries f / (Distribution.ofFaces entries).total := by
      rw [← Distribution.weight_ofFaces, ← Distribution.chance_eq]
      rfl
    rw [hchance]
    split
    next => rfl
    next hnone =>
      rcases not_and_or.mp hnone with hf | htotal
      · rw [← Distribution.weight_ofFaces, Distribution.weight,
          Table.weight_eq_zero (mt (Distribution.mem_faces_ofFaces entries f).mp hf), zero_div]
      · rw [show (Distribution.ofFaces entries).total = 0 from not_not.mp htotal, div_zero]
  average := by
    refine (average_eq_sum _).trans (congrArg List.sum (List.map_congr_left fun e he => ?_))
    rw [← chance_of_mem_numbers he]

/-- The read-out tells of all entries, and of no more than that: not in which order they came, whether entries of one
face came together or apart, or what note is beside them. -/
theorem readOut_faithful (entries : List (Face × Rat)) (h : ∀ e ∈ entries, 0 ≤ e.2) :
    let d := Distribution.ofFaces entries
    (ofDistribution d).ReadsOut entries ∧ d.outcomes = (ofDistribution d).outcomes ∧
    ∀ entries' note, Regrouped entries entries' →
      let d' := { Distribution.ofFaces entries' with note := note }
      ofDistribution d' = ofDistribution d ∧ d'.outcomes = d.outcomes ∧
        ∀ f, (ofDistribution d').chance f = (ofDistribution d).chance f := by
  refine ⟨readsOut_ofFaces h, rfl, fun entries' note hregrouped => ?_⟩
  have hsame : ofDistribution { Distribution.ofFaces entries' with note := note } =
      ofDistribution (Distribution.ofFaces entries) :=
    ofDistribution_congr (congrArg (fun d => d.table) hregrouped.ofFaces_eq.symm)
  exact ⟨hsame, congrArg Summary.outcomes hsame, fun f => congrArg (chance · f) hsame⟩

/-- Two labels and a number that was entered twice, once with no weight; entered once, and last, it is no other
read-out. -/
theorem readOut_faithful_repeated :
    let entries : List (Face × Rat) := [(.number 3, 1), (.number 3, 0), (.label "b", 2), (.label "a", 1)]
    let d := Distribution.ofFaces entries
    let d' := { Distribution.ofFaces [(.label "b", 2), (.label "a", 1), (.number 3, 1)] with
      note := .keep ⟨.highest, 1⟩ }
    (∀ e ∈ entries, 0 ≤ e.2) ∧ (ofDistribution d).ReadsOut entries ∧ ofDistribution d' = ofDistribution d ∧
      d.outcomes = [(.number 3, 1 / 4), (.label "a", 1 / 4), (.label "b", 1 / 2)] := by
  have hpos : ∀ e ∈ ([(.number 3, 1), (.number 3, 0), (.label "b", 2), (.label "a", 1)] : List (Face × Rat)),
      0 ≤ e.2 := by decide +kernel
  have hmerge : Regrouped [(.number 3, 1), (.number 3, 0), (.label "b", 2), (.label "a", 1)]
      [(.number 3, 1 + 0), (.label "b", 2), (.label "a", 1)] := .merge ..
  have hlast : Regrouped [(.number 3, 1 + 0), (.label "b", 2), (.label "a", 1)]
      [(.label "b", 2), (.label "a", 1), (.number 3, 1)] := .perm (by decide +kernel)
  have hread := readOut_faithful _ hpos
  exact ⟨hpos, hread.1, (hread.2.2 _ _ (hmerge.trans hlast)).1, by decide +kernel⟩

end Summary
end DiceLaw
