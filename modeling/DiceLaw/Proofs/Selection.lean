import DiceLaw.Value

/-! The running selection of the best numbers. No roll is ever sorted as a whole, and yet what is kept in the
end is the front of the sorted roll: letting go of a number early loses nothing. -/
namespace DiceLaw.Keep

/-- Whether a number may stand before another. -/
def ahead (k : Keep) (a b : Int64) : Bool :=
  match k.direction with
  | .highest => b ≤ a
  | .lowest => a ≤ b

/-- The best of some numbers: sorted as a whole, and as many from the front as are kept. -/
def best (k : Keep) (vs : List Int64) : List Int64 := (vs.mergeSort k.ahead).take k.count

theorem length_best (k : Keep) (vs : List Int64) : (k.best vs).length = min k.count vs.length := by
  rw [best, List.length_take, List.length_mergeSort]

/-! ### The order -/

theorem not_prefers (k : Keep) (candidate incumbent : Int64) :
    (!k.prefers candidate incumbent) = k.ahead incumbent candidate := by
  rw [prefers, ahead]
  cases k.direction <;> simp [← decide_not]

theorem ahead_total (k : Keep) (a b : Int64) : (k.ahead a b || k.ahead b a) = true := by
  rw [ahead, ahead]
  cases k.direction <;> simp [Int64.le_iff_toInt_le] <;> omega

theorem ahead_trans (k : Keep) (a b c : Int64) (h : k.ahead a b = true) (h' : k.ahead b c = true) :
    k.ahead a c = true := by
  rw [ahead] at h h' ⊢
  cases hd : k.direction <;> simp_all [Int64.le_iff_toInt_le] <;> omega

theorem ahead_antisymm (k : Keep) (a b : Int64) (h : k.ahead a b = true) (h' : k.ahead b a = true) : a = b := by
  rw [ahead] at h h'
  cases hd : k.direction
  · simp only [hd, decide_eq_true_eq] at h h'
    exact Int64.le_antisymm h' h
  · simp only [hd, decide_eq_true_eq] at h h'
    exact Int64.le_antisymm h h'

/-! ### Insertion -/

/-- Puts a number behind those that may stand before it, and lets go of none. -/
def insert (k : Keep) (l : List Int64) (v : Int64) : List Int64 :=
  l.takeWhile (k.ahead · v) ++ v :: l.dropWhile (k.ahead · v)

theorem select_eq_take (k : Keep) (kept : List Int64) (v : Int64) :
    k.select kept v = (k.insert kept v).take k.count := by
  simp only [select, insert, not_prefers]

theorem insert_cons_of_ahead (k : Keep) {a v : Int64} (h : k.ahead a v = true) (l : List Int64) :
    k.insert (a :: l) v = a :: k.insert l v := by
  simp [insert, h]

theorem insert_cons_of_not_ahead (k : Keep) {a v : Int64} (h : ¬ k.ahead a v = true) (l : List Int64) :
    k.insert (a :: l) v = v :: a :: l := by
  simp [insert, h]

theorem insert_perm (k : Keep) (l : List Int64) (v : Int64) : (k.insert l v).Perm (v :: l) := by
  rw [insert]
  refine List.perm_middle.trans ?_
  rw [List.takeWhile_append_dropWhile]

theorem insert_pairwise (k : Keep) {l : List Int64} (v : Int64) (h : l.Pairwise (k.ahead · · = true)) :
    (k.insert l v).Pairwise (k.ahead · · = true) := by
  induction l with
  | nil => exact List.pairwise_singleton ..
  | cons a l ih =>
    obtain ⟨hfirst, hrest⟩ := List.pairwise_cons.mp h
    by_cases ha : k.ahead a v = true
    · rw [k.insert_cons_of_ahead ha, List.pairwise_cons]
      refine ⟨?_, ih hrest⟩
      intro b hb
      rcases List.mem_cons.mp ((k.insert_perm l v).subset hb) with rfl | hb
      · exact ha
      · exact hfirst b hb
    · have hva : k.ahead v a = true := by simpa [ha] using k.ahead_total a v
      rw [k.insert_cons_of_not_ahead ha, List.pairwise_cons]
      refine ⟨?_, h⟩
      intro b hb
      rcases List.mem_cons.mp hb with rfl | hb
      · exact hva
      · exact k.ahead_trans v a b hva (hfirst b hb)

/-- What is let go of before a number is put in would be let go of after it. -/
theorem take_insert (k : Keep) (l : List Int64) (v : Int64) (m : Nat) :
    (k.insert (l.take m) v).take m = (k.insert l v).take m := by
  induction l generalizing m with
  | nil => rw [List.take_nil]
  | cons a l ih =>
    cases m with
    | zero => rfl
    | succ m =>
      by_cases ha : k.ahead a v = true
      · rw [List.take_succ_cons, k.insert_cons_of_ahead ha, k.insert_cons_of_ahead ha, List.take_succ_cons,
          List.take_succ_cons, ih]
      · have hshort : (a :: l.take m).take m = (a :: l).take m := by
          rw [← List.take_succ_cons, List.take_take, Nat.min_eq_left (Nat.le_succ m)]
        rw [List.take_succ_cons, k.insert_cons_of_not_ahead ha, k.insert_cons_of_not_ahead ha,
          List.take_succ_cons, List.take_succ_cons, hshort]

/-! ### Whole rolls -/

theorem foldl_insert_perm (k : Keep) (vs l : List Int64) : (vs.foldl k.insert l).Perm (vs ++ l) := by
  induction vs generalizing l with
  | nil => exact .refl _
  | cons v vs ih =>
    exact (ih _).trans (((k.insert_perm l v).append_left vs).trans List.perm_middle)

theorem foldl_insert_pairwise (k : Keep) (vs : List Int64) {l : List Int64}
    (h : l.Pairwise (k.ahead · · = true)) : (vs.foldl k.insert l).Pairwise (k.ahead · · = true) := by
  induction vs generalizing l with
  | nil => exact h
  | cons v vs ih => exact ih (k.insert_pairwise v h)

/-- There is only one way to put numbers in order. -/
theorem eq_mergeSort (k : Keep) {us vs : List Int64} (h : us.Pairwise (k.ahead · · = true)) (hperm : us.Perm vs) :
    us = vs.mergeSort k.ahead :=
  List.Perm.eq_of_pairwise (fun a b _ _ => k.ahead_antisymm a b) h
    (List.pairwise_mergeSort k.ahead_trans k.ahead_total vs) (hperm.trans (List.mergeSort_perm vs k.ahead).symm)

theorem foldl_insert_nil (k : Keep) (vs : List Int64) : vs.foldl k.insert [] = vs.mergeSort k.ahead := by
  have hperm := k.foldl_insert_perm vs []
  rw [List.append_nil] at hperm
  exact k.eq_mergeSort (k.foldl_insert_pairwise vs .nil) hperm

private theorem foldl_select_take (k : Keep) (vs l : List Int64) :
    vs.foldl k.select (l.take k.count) = (vs.foldl k.insert l).take k.count := by
  induction vs generalizing l with
  | nil => rfl
  | cons v vs ih => rw [List.foldl_cons, select_eq_take, take_insert, ih, List.foldl_cons]

/-- Selected one by one, the numbers kept are the best of all. -/
theorem foldl_select (k : Keep) (vs : List Int64) : vs.foldl k.select [] = k.best vs := by
  rw [best, ← foldl_insert_nil, ← foldl_select_take, List.take_nil]

/-- Of equal numbers each is kept. -/
example : [3, -1, 5, 3].foldl (select ⟨.lowest, 3⟩) [] = [-1, 3, 3] := by decide

/-- One number more is selected from among the best that were kept before. -/
theorem select_best (k : Keep) (vs : List Int64) (v : Int64) : k.select (k.best vs) v = k.best (vs ++ [v]) := by
  rw [← foldl_select, ← foldl_select, List.foldl_append, List.foldl_cons, List.foldl_nil]

theorem best_eq_take_min (k : Keep) (vs : List Int64) :
    k.best vs = (vs.mergeSort k.ahead).take (min k.count vs.length) := by
  rw [best, List.take_eq_take_min, List.length_mergeSort]

theorem best_congr (k : Keep) {us vs : List Int64} (h : us.Perm vs) : k.best us = k.best vs := by
  have hsort : us.mergeSort k.ahead = vs.mergeSort k.ahead :=
    k.eq_mergeSort (List.pairwise_mergeSort k.ahead_trans k.ahead_total us) ((List.mergeSort_perm us _).trans h)
  rw [best, best, hsort]

/-- Where there is room for more, the front is what would have been kept without it. -/
theorem take_select_of_room (k : Keep) {room : Nat} (h : k.count ≤ room) (kept : List Int64) (v : Int64) :
    (select { k with count := room } kept v).take k.count = k.select (kept.take k.count) v := by
  rw [select_eq_take, List.take_take, Nat.min_eq_left h, select_eq_take]
  exact (k.take_insert kept v k.count).symm

theorem take_foldl_select_of_room (k : Keep) {steps : List (Int64 × Nat)} (h : ∀ e ∈ steps, k.count ≤ e.2)
    (kept : List Int64) :
    (steps.foldl (fun kept e => select { k with count := e.2 } kept e.1) kept).take k.count =
      (steps.map (·.1)).foldl k.select (kept.take k.count) := by
  induction steps generalizing kept with
  | nil => rfl
  | cons e steps ih =>
    rw [List.foldl_cons, ih fun e he => h e (List.mem_cons_of_mem _ he),
      k.take_select_of_room (h e List.mem_cons_self), List.map_cons, List.foldl_cons]

/-- The running selection is the front of the sorted roll. The order in which the numbers came is forgotten, by the
selection and by its sum, and so is when the numbers that do not fit were let go of: each time, once all are in, or
now and then, as much room as each step leaves. -/
theorem foldl_select_sorted_front (k : Keep) (vs : List Int64) :
    vs.foldl k.select [] = (vs.mergeSort k.ahead).take (min k.count vs.length) ∧
    (∀ us : List Int64, us.Perm vs →
      us.foldl k.select [] = vs.foldl k.select [] ∧
        Value.sum? (us.foldl k.select []) = Value.sum? (vs.foldl k.select [])) ∧
    (vs.foldl k.insert []).take k.count = vs.foldl k.select [] ∧
    (∀ steps : List (Int64 × Nat), steps.map (·.1) = vs → (∀ e ∈ steps, k.count ≤ e.2) →
      (steps.foldl (fun kept e => select { k with count := e.2 } kept e.1) []).take k.count =
        vs.foldl k.select []) := by
  refine ⟨?_, ?_, ?_, ?_⟩
  · rw [foldl_select, best_eq_take_min]
  · intro us hus
    have hfold : us.foldl k.select [] = vs.foldl k.select [] := by
      rw [foldl_select, foldl_select, k.best_congr hus]
    exact ⟨hfold, congrArg Value.sum? hfold⟩
  · rw [← foldl_select_take, List.take_nil]
  · rintro steps rfl hroom
    rw [k.take_foldl_select_of_room hroom, List.take_nil]

/-- The two lowest of four in two orders, and with room for three or four in between. -/
theorem foldl_select_sorted_front_lowest :
    let k : Keep := ⟨.lowest, 2⟩
    let kept := [3, -1, 5, -1].foldl k.select []
    kept = [-1, -1] ∧ [-1, 5, -1, 3].foldl k.select [] = kept ∧
      ([((3 : Int64), 4), (-1, 3), (5, 4), (-1, 3)].foldl
        (fun kept e => select { k with count := e.2 } kept e.1) []).take 2 = kept := by
  have h := foldl_select_sorted_front ⟨.lowest, 2⟩ [3, -1, 5, -1]
  refine ⟨by decide, (h.2.1 [-1, 5, -1, 3] (by decide)).1, ?_⟩
  exact h.2.2.2 [(3, 4), (-1, 3), (5, 4), (-1, 3)] rfl (by decide)

end DiceLaw.Keep
