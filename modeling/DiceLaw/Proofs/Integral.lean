import Mathlib.Algebra.BigOperators.Group.List.Basic
import Mathlib.Algebra.BigOperators.Ring.Finset
import Mathlib.Algebra.BigOperators.Ring.List
import Mathlib.Algebra.Field.Rat
import Mathlib.Tactic.Ring
import DiceLaw.Tally

/-! Tables of exact weights. What a change does to a table is said once, for the sum of any function of the
faces over it; the total and every single weight are such sums, and they determine the others. -/
namespace DiceLaw

theorem Weight.foldl_add (a : Rat) (l : List Rat) : l.foldl (· + ·) a = a + l.sum := by
  induction l generalizing a with
  | nil => simp
  | cons b l ih => rw [List.foldl_cons, ih, List.sum_cons, add_assoc]

theorem Weight.sum_eq_sum (l : List Rat) : Weight.sum l = l.sum := by
  cases l with
  | nil => rfl
  | cons a l => exact Weight.foldl_add a l

theorem Weight.sum_map_flatMap {α β : Type} (l : List α) (f : α → List β) (g : β → Rat) :
    ((l.flatMap f).map g).sum = (l.map fun a => ((f a).map g).sum).sum := by
  induction l with
  | nil => rfl
  | cons a l ih => rw [List.flatMap_cons, List.map_append, List.sum_append, ih, List.map_cons, List.sum_cons]

namespace Table

/-- The sum of a function of the faces, each counted with its weight. -/
def integral (φ : Face → Rat) (t : Table Rat) : Rat := (t.entries.map fun e => φ e.1 * e.2).sum

/-! ### Weights and totals -/

theorem total_eq_integral (t : Table Rat) : t.total = t.integral fun _ => 1 := by
  rw [total, Weight.sum_eq_sum, integral]
  simp

section Listed
variable {W : Type}

theorem ext_entries {t u : Table W} (h : t.entries = u.entries) : t = u := by
  cases t
  cases u
  cases h
  rfl

theorem without_eq (t u : Table W) : t.without u = t.filter fun f => !u.contains f :=
  ext_entries (without_eq_filter t u)

theorem nodup_faces (t : Table W) : t.faces.Nodup := by
  refine List.pairwise_map.mpr (t.ascending.imp ?_)
  intro a b hab he
  exact Face.not_lt_self b.1 (he ▸ hab)

theorem find?_of_mem {t : Table W} {e : Face × W} (he : e ∈ t.entries) : t.find? e.1 = some e.2 := by
  obtain ⟨c, hc⟩ : ∃ c, t.entries.find? (·.1 = e.1) = some c := by
    cases h : t.entries.find? (·.1 = e.1) with
    | none => exact absurd (List.find?_eq_none.mp h e he) (by simp)
    | some c => exact ⟨c, rfl⟩
  have hface : c.1 = e.1 := by simpa using List.find?_some hc
  rw [find?, hc, Option.map_some,
    List.inj_on_of_nodup_map t.nodup_faces (List.mem_of_find?_eq_some hc) he hface]

theorem find?_eq_none {t : Table W} {f : Face} (hf : f ∉ t.faces) : t.find? f = none := by
  rw [find?, Option.map_eq_none_iff, List.find?_eq_none]
  intro e he hef
  exact hf (List.mem_map.mpr ⟨e, he, by simpa using hef⟩)

theorem contains_iff {t : Table W} {f : Face} : t.contains f = true ↔ f ∈ t.faces := by
  rw [contains]
  constructor
  · intro h
    by_contra hf
    rw [find?_eq_none hf] at h
    cases h
  · intro hf
    obtain ⟨e, he, rfl⟩ := List.mem_map.mp hf
    rw [find?_of_mem he]
    rfl

/-- A tally lists what it listed and what was added. -/
theorem mem_faces_ofTally_addAll [Zero W] [Add W] (t : Tally W) (l : List (Face × W)) (f : Face) :
    f ∈ (ofTally (t.addAll l)).faces ↔ f ∈ (ofTally t).faces ∨ ∃ e ∈ l, e.1 = f := by
  induction l generalizing t with
  | nil => simp [Tally.addAll]
  | cons e l ih =>
    have hadd : f ∈ (ofTally (t.add e.1 e.2)).faces ↔ e.1 = f ∨ f ∈ (ofTally t).faces := by
      rw [← contains_iff, ← contains_iff, contains, contains, find?_ofTally_add]
      split
      next h => simp [h]
      next h => simp [h]
    rw [show t.addAll (e :: l) = (t.add e.1 e.2).addAll l from rfl, ih, hadd, List.exists_mem_cons_iff]
    tauto

theorem map_numbers_sublist (t : Table W) :
    (t.numbers.map fun e => (Face.number e.1, e.2)).Sublist t.entries := by
  have key (l : List (Face × W)) :
      ((l.filterMap fun e => e.1.value?.map (·, e.2)).map fun e => (Face.number e.1, e.2)).Sublist l := by
    induction l with
    | nil => exact .slnil
    | cons e l ih =>
      obtain ⟨f, w⟩ := e
      cases f with
      | number v => exact ih.cons_cons _
      | label name => exact ih.cons _
  exact key t.entries

end Listed

theorem weight_of_mem {t : Table Rat} {e : Face × Rat} (he : e ∈ t.entries) : t.weight e.1 = e.2 := by
  rw [weight, find?_of_mem he]
  rfl

theorem weight_eq_zero {t : Table Rat} {f : Face} (hf : f ∉ t.faces) : t.weight f = 0 := by
  rw [weight, find?_eq_none hf]
  rfl

/-- A sum over a table is one over any faces that include those listed. -/
theorem integral_eq_sum (φ : Face → Rat) (t : Table Rat) {s : Finset Face} (hs : ∀ f ∈ t.faces, f ∈ s) :
    t.integral φ = ∑ f ∈ s, φ f * t.weight f := by
  have hsub : t.faces.toFinset ⊆ s := fun f hf => hs f (List.mem_toFinset.mp hf)
  calc
    _ = (t.entries.map fun e => φ e.1 * t.weight e.1).sum := by
      rw [integral]
      exact congrArg List.sum (List.map_congr_left fun e he => by rw [weight_of_mem he])
    _ = (t.faces.map fun f => φ f * t.weight f).sum := by rw [faces, List.map_map]; rfl
    _ = ∑ f ∈ t.faces.toFinset, φ f * t.weight f := (List.sum_toFinset _ t.nodup_faces).symm
    _ = _ := Finset.sum_subset hsub fun f _ hf => by
      rw [weight_eq_zero fun h => hf (List.mem_toFinset.mpr h), mul_zero]

/-- Weights determine every sum; faces of weight zero do not matter. -/
theorem integral_congr (φ : Face → Rat) {t u : Table Rat} (h : ∀ f, t.weight f = u.weight f) :
    t.integral φ = u.integral φ := by
  rw [t.integral_eq_sum φ (s := t.faces.toFinset ∪ u.faces.toFinset) (by simp +contextual),
    u.integral_eq_sum φ (s := t.faces.toFinset ∪ u.faces.toFinset) (by simp +contextual)]
  exact Finset.sum_congr rfl fun f _ => by rw [h f]

theorem integral_add (φ ψ : Face → Rat) (t : Table Rat) :
    (t.integral fun f => φ f + ψ f) = t.integral φ + t.integral ψ := by
  simp only [integral, add_mul, List.sum_map_add]

/-- A function of one face alone picks out its weight. -/
theorem integral_ite_eq (t : Table Rat) (f : Face) (c : Rat) :
    (t.integral fun g => if g = f then c else 0) = c * t.weight f := by
  rw [t.integral_eq_sum _ (s := insert f t.faces.toFinset) (by simp +contextual)]
  simp

theorem weight_eq_integral (t : Table Rat) (f : Face) :
    t.weight f = t.integral fun g => if g = f then 1 else 0 := by
  rw [integral_ite_eq, one_mul]

/-! ### Changes -/

theorem integral_empty (φ : Face → Rat) : integral φ empty = 0 := rfl

private theorem sum_merge (φ : Face → Rat) (xs ys : List (Face × Rat)) :
    ((merge xs ys).map fun e => φ e.1 * e.2).sum =
      (xs.map fun e => φ e.1 * e.2).sum + (ys.map fun e => φ e.1 * e.2).sum := by
  induction xs generalizing ys with
  | nil => simp [fresh, Function.comp_def]
  | cons x xs ihx =>
    induction ys with
    | nil => simp
    | cons y ys ihy =>
      rw [merge_cons_cons]
      split
      next h =>
        simp only [List.map_cons, List.sum_cons, ihx]
        ring
      next h =>
        have hxy : x.1 = y.1 := Std.LawfulEqOrd.eq_of_compare h
        simp only [List.map_cons, List.sum_cons, ihx, hxy]
        ring
      next h =>
        simp only [List.map_cons, List.sum_cons, ihy, fresh, zero_add]
        ring

theorem integral_absorb (φ : Face → Rat) (t u : Table Rat) :
    (t.absorb u).integral φ = t.integral φ + u.integral φ := sum_merge φ t.entries u.entries

theorem integral_mapWeights_mul (φ : Face → Rat) (t : Table Rat) (c : Rat) :
    (t.mapWeights (· * c)).integral φ = t.integral φ * c := by
  rw [integral, mapWeights, integral, ← List.sum_map_mul_right, List.map_map]
  simp only [Function.comp_def, mul_assoc]

private theorem sum_filter (φ : Face → Rat) (keep : Face → Bool) (l : List (Face × Rat)) :
    ((l.filter fun e => keep e.1).map fun e => φ e.1 * e.2).sum =
      (l.map fun e => (if keep e.1 then φ e.1 else 0) * e.2).sum := by
  induction l with
  | nil => rfl
  | cons e l ih => by_cases h : keep e.1 <;> simp [h, ih]

theorem integral_filter (φ : Face → Rat) (t : Table Rat) (keep : Face → Bool) :
    (t.filter keep).integral φ = t.integral fun f => if keep f then φ f else 0 := sum_filter φ keep t.entries

theorem integral_without (φ : Face → Rat) (t u : Table Rat) :
    (t.without u).integral φ = t.integral fun f => if u.contains f then 0 else φ f := by
  rw [without_eq, integral_filter]
  apply congrArg t.integral
  funext f
  cases u.contains f <;> rfl

theorem integral_erase (φ : Face → Rat) (t : Table Rat) (f : Face) :
    (t.erase f).integral φ = t.integral φ - φ f * t.weight f := by
  have h : (fun g => if (decide (g ≠ f)) = true then φ g else 0) =
      fun g => φ g + if g = f then -φ f else 0 := by
    funext g
    by_cases hg : g = f <;> simp [hg]
  rw [erase, integral_filter, h, integral_add, integral_ite_eq]
  ring

private theorem sum_raise (φ : Face → Rat) (f : Face) (w : Rat) (after : List (Face × Rat)) :
    ((Tally.raise f w after).map fun e => φ e.1 * e.2).sum = φ f * w + (after.map fun e => φ e.1 * e.2).sum := by
  cases after with
  | nil => simp [Tally.raise]
  | cons a after =>
    rw [Tally.raise]
    split
    next h => simp [h]; ring
    next h => simp

theorem integral_ofTally_add (φ : Face → Rat) (t : Tally Rat) (f : Face) (w : Rat) :
    (ofTally (t.add f w)).integral φ = (ofTally t).integral φ + φ f * w := by
  obtain ⟨p, hp⟩ : ∃ p, p = Tally.down f t.before t.after := ⟨_, rfl⟩
  obtain ⟨q, hq⟩ : ∃ q, q = Tally.up f p.1 p.2 := ⟨_, rfl⟩
  have hold : (ofTally t).entries = q.1.reverse ++ q.2 := by
    rw [hq, Tally.up_append, hp, Tally.down_append]
    rfl
  have hnew : (ofTally (t.add f w)).entries = q.1.reverse ++ Tally.raise f w q.2 := by
    subst hq hp
    rfl
  rw [integral, integral, hold, hnew, List.map_append, List.sum_append, sum_raise, List.map_append,
    List.sum_append]
  ring

theorem integral_ofTally_addAll (φ : Face → Rat) (t : Tally Rat) (l : List (Face × Rat)) :
    (ofTally (t.addAll l)).integral φ = (ofTally t).integral φ + (l.map fun e => φ e.1 * e.2).sum := by
  induction l generalizing t with
  | nil => simp [Tally.addAll]
  | cons e l ih =>
    rw [show t.addAll (e :: l) = (t.add e.1 e.2).addAll l from rfl, ih, integral_ofTally_add, List.map_cons,
      List.sum_cons, add_assoc]

theorem integral_ofList (φ : Face → Rat) (l : List (Face × Rat)) :
    (ofList l).integral φ = (l.map fun e => φ e.1 * e.2).sum := by
  rw [ofList, integral_ofTally_addAll]
  exact zero_add _

/-! ### Single weights -/

theorem weight_absorb (t u : Table Rat) (f : Face) : (t.absorb u).weight f = t.weight f + u.weight f := by
  simp only [weight_eq_integral, integral_absorb]

theorem weight_mapWeights_mul (t : Table Rat) (c : Rat) (f : Face) :
    (t.mapWeights (· * c)).weight f = t.weight f * c := by
  simp only [weight_eq_integral, integral_mapWeights_mul]

theorem weight_filter (t : Table Rat) (keep : Face → Bool) (f : Face) :
    (t.filter keep).weight f = if keep f then t.weight f else 0 := by
  have h : (fun g => if keep g = true then if g = f then (1 : Rat) else 0 else 0) =
      fun g => if g = f then if keep f then 1 else 0 else 0 := by
    funext g
    by_cases hg : g = f <;> simp [hg]
  rw [weight_eq_integral, integral_filter, h, integral_ite_eq]
  split <;> simp

theorem weight_without (t u : Table Rat) (f : Face) :
    (t.without u).weight f = if u.contains f then 0 else t.weight f := by
  rw [without_eq, weight_filter]
  cases u.contains f <;> rfl

theorem weight_ofTally_addAll (t : Tally Rat) (l : List (Face × Rat)) (f : Face) :
    (ofTally (t.addAll l)).weight f = (ofTally t).weight f + (l.map fun e => if e.1 = f then e.2 else 0).sum := by
  simp only [weight_eq_integral, integral_ofTally_addAll, ite_mul, one_mul, zero_mul]

theorem weight_ofList (l : List (Face × Rat)) (f : Face) :
    (ofList l).weight f = (l.map fun e => if e.1 = f then e.2 else 0).sum := by
  rw [ofList, weight_ofTally_addAll]
  exact zero_add _

/-! ### Some of the entries -/

/-- In ascending order no weight is added to another. -/
theorem find?_ofList_of_ascending {l : List (Face × Rat)} (h : l.Pairwise fun a b => a.1 < b.1) (f : Face) :
    (ofList l).find? f = (l.find? (·.1 = f)).map (·.2) := by
  rw [find?_ofList]
  induction l with
  | nil => rfl
  | cons e l ih =>
    obtain ⟨hfirst, hrest⟩ := List.pairwise_cons.mp h
    by_cases he : e.1 = f
    · have hnil : l.filter (·.1 = f) = [] := by
        apply List.filter_eq_nil_iff.mpr
        intro a ha haf
        have hlt : e.1 < a.1 := hfirst a ha
        rw [he, of_decide_eq_true haf] at hlt
        exact Face.not_lt_self f hlt
      simp [he, hnil]
    · simpa [he] using ih hrest

theorem weight_ofList_of_sublist {t : Table Rat} {l : List (Face × Rat)} (h : l.Sublist t.entries) (f : Face) :
    (ofList l).weight f = if (ofList l).contains f then t.weight f else 0 := by
  rw [weight, contains, find?_ofList_of_ascending (t.ascending.sublist h)]
  cases hl : l.find? (·.1 = f) with
  | none => rfl
  | some e =>
    have hface : e.1 = f := by simpa using List.find?_some hl
    rw [← hface, weight_of_mem (h.subset (List.mem_of_find?_eq_some hl))]
    rfl

/-- Some of the entries and all others together. -/
theorem integral_ofList_add_without {t : Table Rat} {l : List (Face × Rat)} (h : l.Sublist t.entries)
    (φ : Face → Rat) : (ofList l).integral φ + (t.without (ofList l)).integral φ = t.integral φ := by
  have hweight (f : Face) : (ofList l).weight f = (t.filter (ofList l).contains).weight f := by
    rw [weight_ofList_of_sublist h, weight_filter]
  rw [integral_congr φ hweight, integral_filter, integral_without, ← integral_add]
  apply congrArg t.integral
  funext f
  cases (ofList l).contains f <;> simp

end Table
end DiceLaw
