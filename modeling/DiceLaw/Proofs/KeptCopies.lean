import Mathlib.Algebra.BigOperators.Fin
import DiceLaw.Repetition
import DiceLaw.Proofs.CheckedSums
import DiceLaw.Proofs.Integral

/-! Keeping the best of several copies: every roll of the copies counts once, with the product of its weights,
for the sum of its best numbers. One sum out of range ends it all. -/
namespace DiceLaw.Distribution
/-! ### All draws -/

section Draws
variable {W : Type}

/-- All ways to draw an entry for each copy. -/
def draws (numbers : List (Int64 × W)) : Nat → List (List (Int64 × W))
  | 0 => [[]]
  | copies + 1 => numbers.flatMap fun e => (draws numbers copies).map (e :: ·)

/-- A draw picks a place in the list for each copy. -/
theorem mem_draws {numbers : List (Int64 × W)} {copies : Nat} {draw : List (Int64 × W)} :
    draw ∈ draws numbers copies ↔
      ∃ r : Fin copies → Fin numbers.length, draw = List.ofFn fun i => numbers.get (r i) := by
  induction copies generalizing draw with
  | zero => simp [draws]
  | succ copies ih =>
    simp only [draws, List.mem_flatMap, List.mem_map, ih]
    constructor
    · intro hdraw
      obtain ⟨e, he, _, ⟨r, rfl⟩, rfl⟩ := hdraw
      obtain ⟨i, rfl⟩ := List.get_of_mem he
      exact ⟨Fin.cons i r, by simp [List.ofFn_succ]⟩
    · intro hdraw
      obtain ⟨r, rfl⟩ := hdraw
      exact ⟨_, List.get_mem numbers (r 0), _, ⟨fun i => r i.succ, rfl⟩, by simp [List.ofFn_succ]⟩

/-- Numbers of the list in a row are drawn, one for each copy. -/
theorem exists_mem_draws {numbers : List (Int64 × W)} {vs : List Int64} (h : ∀ v ∈ vs, v ∈ numbers.map (·.1)) :
    ∃ draw ∈ draws numbers vs.length, draw.map (·.1) = vs := by
  induction vs with
  | nil => exact ⟨[], List.mem_singleton_self _, rfl⟩
  | cons v vs ih =>
    obtain ⟨hv, hvs⟩ := List.forall_mem_cons.mp h
    obtain ⟨e, he, rfl⟩ := List.mem_map.mp hv
    obtain ⟨draw, hdraw, rfl⟩ := ih hvs
    exact ⟨e :: draw, List.mem_flatMap.mpr ⟨e, he, List.mem_map_of_mem hdraw⟩, rfl⟩

theorem length_of_mem_draws {numbers draw : List (Int64 × W)} {copies : Nat} (h : draw ∈ draws numbers copies) :
    draw.length = copies := by
  obtain ⟨r, rfl⟩ := mem_draws.mp h
  exact List.length_ofFn ..

theorem mem_of_mem_draws {numbers draw : List (Int64 × W)} {copies : Nat} (h : draw ∈ draws numbers copies)
    {e : Int64 × W} (he : e ∈ draw) : e ∈ numbers := by
  obtain ⟨r, rfl⟩ := mem_draws.mp h
  obtain ⟨i, rfl⟩ := List.mem_ofFn.mp he
  exact List.get_mem ..

/-- Every draw has its best numbers sum up within the range. -/
def DrawsInRange (numbers : List (Int64 × W)) (copies : Nat) (k : Keep) : Prop :=
  ∀ draw ∈ draws numbers copies, Value.InRange (k.score (draw.map (·.1)))

instance (numbers : List (Int64 × W)) (copies : Nat) (k : Keep) : Decidable (DrawsInRange numbers copies k) :=
  inferInstanceAs (Decidable (∀ draw ∈ draws numbers copies, _))

theorem drawsInRange_of_count_le_one {k : Keep} (h : k.count ≤ 1) (numbers : List (Int64 × W)) (copies : Nat) :
    DrawsInRange numbers copies k := fun _ _ => Keep.inRange_score_of_count_le_one h _

/-- Then no sum leaves the range on its way either. -/
theorem DrawsInRange.sum?_eq {numbers : List (Int64 × W)} {copies : Nat} {k : Keep}
    (h : DrawsInRange numbers copies k) {draw : List (Int64 × W)} (hdraw : draw ∈ draws numbers copies) :
    Value.sum? (k.best (draw.map (·.1))) = some (.ofIntClamp (k.score (draw.map (·.1)))) := by
  cases hsum : Value.sum? (k.best (draw.map (·.1))) with
  | some s =>
    have hscore : s.toInt = k.score (draw.map (·.1)) := (Value.sum?_eq_some_iff.mp hsum).2
    rw [← hscore, Int64.ofIntClamp_toInt]
  | none =>
    obtain ⟨ws, hlength, hws, hout⟩ := k.exists_not_inRange_score hsum
    have hnumbers : ∀ w ∈ ws, w ∈ numbers.map (·.1) := by
      intro w hw
      obtain ⟨e, he, rfl⟩ := List.mem_map.mp (hws w hw)
      exact List.mem_map_of_mem (mem_of_mem_draws hdraw he)
    obtain ⟨draw', hdraw', rfl⟩ := exists_mem_draws hnumbers
    rw [hlength, List.length_map, length_of_mem_draws hdraw] at hdraw'
    exact absurd (h draw' hdraw') hout

theorem sum_map_draws (numbers : List (Int64 × W)) (copies : Nat) (g : List (Int64 × W) → Rat) :
    ((draws numbers copies).map g).sum =
      ∑ r : Fin copies → Fin numbers.length, g (List.ofFn fun i => numbers.get (r i)) := by
  induction copies generalizing g with
  | zero => simp [draws]
  | succ copies ih =>
    have hsplit := (Fin.consEquiv fun _ : Fin (copies + 1) => Fin numbers.length).sum_comp
      fun r => g (List.ofFn fun i => numbers.get (r i))
    rw [draws, Weight.sum_map_flatMap, ← hsplit, Fintype.sum_prod_type, ← Fin.sum_univ_fun_getElem]
    apply Finset.sum_congr rfl
    intro i _
    rw [List.map_map, ih]
    apply Finset.sum_congr rfl
    intro r _
    simp [List.ofFn_succ]

end Draws

/-! ### Collecting -/

section Collecting
variable {W : Type} [Weight W]

/-- Where a draw is collected, given what is kept and weighs so much before it. -/
def drawEntry (k : Keep) (kept : List Int64) (w : W) (draw : List (Int64 × W)) : Face × W :=
  (.number (.ofIntClamp (((draw.map (·.1)).foldl k.select kept).map Int64.toInt).sum),
    draw.foldl (fun w e => w * e.2) w)

/-- Collects a draw, if what is kept of it has a sum. -/
def collectDraw (k : Keep) (kept : List Int64) (w : W) (t : Tally W) (draw : List (Int64 × W)) : Option (Tally W) :=
  (Value.sum? ((draw.map (·.1)).foldl k.select kept)).map fun s => t.add (.number s) (draw.foldl (fun w e => w * e.2) w)

/-- The recursion over copies collects the draws one after the other. -/
theorem collectKept_eq_foldlM (numbers : List (Int64 × W)) (k : Keep) (copies : Nat) (kept : List Int64) (w : W)
    (t : Tally W) :
    collectKept numbers k copies kept w t = (draws numbers copies).foldlM (collectDraw k kept w) t := by
  induction copies generalizing kept w t with
  | zero =>
    rw [draws, List.foldlM_cons]
    exact (bind_pure _).symm
  | succ copies ih =>
    have hfold (l : List (Int64 × W)) (t : Tally W) :
        l.foldlM (fun t e => collectKept numbers k copies (k.select kept e.1) (w * e.2) t) t =
          (l.flatMap fun e => (draws numbers copies).map (e :: ·)).foldlM (collectDraw k kept w) t := by
      induction l generalizing t with
      | nil => rfl
      | cons e l ihl =>
        rw [List.foldlM_cons, ih, List.flatMap_cons, List.foldlM_append, List.foldlM_map]
        exact bind_congr ihl
    exact hfold numbers t

theorem collectDraw_of_sum? {k : Keep} {draw : List (Int64 × W)}
    (h : Value.sum? (k.best (draw.map (·.1))) = some (.ofIntClamp (k.score (draw.map (·.1))))) (w : W) (t : Tally W) :
    collectDraw k [] w t draw = some (t.add (drawEntry k [] w draw).1 (drawEntry k [] w draw).2) := by
  rw [collectDraw, drawEntry, k.foldl_select, h]
  rfl

theorem foldlM_collectDraw {k : Keep} {l : List (List (Int64 × W))}
    (h : ∀ draw ∈ l, Value.sum? (k.best (draw.map (·.1))) = some (.ofIntClamp (k.score (draw.map (·.1))))) (w : W)
    (t : Tally W) : l.foldlM (collectDraw k [] w) t = some (t.addAll (l.map (drawEntry k [] w))) := by
  induction l generalizing t with
  | nil => rfl
  | cons draw l ih =>
    obtain ⟨hdraw, hl⟩ := List.forall_mem_cons.mp h
    rw [List.foldlM_cons, collectDraw_of_sum? hdraw]
    exact ih hl _

/-- A single draw without a sum ends the collection. -/
theorem foldlM_collectDraw_eq_none {k : Keep} {l : List (List (Int64 × W))} {draw : List (Int64 × W)} (hdraw : draw ∈ l)
    (h : Value.sum? (k.best (draw.map (·.1))) = none) (w : W) (t : Tally W) :
    l.foldlM (collectDraw k [] w) t = none := by
  obtain ⟨before, after, rfl⟩ := List.append_of_mem hdraw
  have hend (t : Tally W) : (draw :: after).foldlM (collectDraw k [] w) t = none := by
    rw [List.foldlM_cons, collectDraw, k.foldl_select, h]
    rfl
  rw [List.foldlM_append]
  cases before.foldlM (collectDraw k [] w) t with
  | none => rfl
  | some t => exact hend t

/-- All draws are collected, or none if the best of one of them sum up out of range. -/
theorem collectKept_eq (numbers : List (Int64 × W)) (k : Keep) (copies : Nat) (w : W) (t : Tally W) :
    collectKept numbers k copies [] w t =
      if DrawsInRange numbers copies k then some (t.addAll ((draws numbers copies).map (drawEntry k [] w)))
      else none := by
  rw [collectKept_eq_foldlM]
  split
  next h => exact foldlM_collectDraw (fun draw hdraw => h.sum?_eq hdraw) w t
  next h =>
    obtain ⟨draw, hdraw, hout⟩ : ∃ draw ∈ draws numbers copies, ¬ Value.InRange (k.score (draw.map (·.1))) := by
      simpa [DrawsInRange] using h
    refine foldlM_collectDraw_eq_none hdraw ?_ w t
    cases hsum : Value.sum? (k.best (draw.map (·.1))) with
    | none => rfl
    | some s => exact absurd ((Value.sum?_eq_some_iff.mp hsum).1 _ (List.prefix_refl _)) hout

end Collecting

/-! ### Sums of the best -/

section Shown
variable {W : Type} {copies : Nat}

/-- What the copies show when each shows the entry picked for it. -/
def shown (die : Distribution W) (r : Fin copies → Fin die.numbers.length) : List Int64 :=
  List.ofFn fun i => (die.numbers.get (r i)).1

/-- The sum of the best of what is shown, however large. -/
def bestSum (k : Keep) (die : Distribution W) (r : Fin copies → Fin die.numbers.length) : Int :=
  k.score (shown die r)

theorem drawsInRange_iff {die : Distribution W} {k : Keep} :
    DrawsInRange die.numbers copies k ↔
      ∀ r : Fin copies → Fin die.numbers.length, Value.InRange (bestSum k die r) := by
  have hscore (r : Fin copies → Fin die.numbers.length) :
      k.score ((List.ofFn fun i => die.numbers.get (r i)).map (·.1)) = bestSum k die r := by
    rw [List.map_ofFn]
    rfl
  simp only [DrawsInRange, mem_draws, forall_exists_index, forall_eq_apply_imp_iff, hscore]

variable [Weight W]

/-- All draws collected, whatever the limit. -/
def keptCopies (copies : Nat) (die : Distribution W) (k : Keep) : Distribution W :=
  ofTable (.ofList ((draws die.numbers copies).map (drawEntry k [] 1)))

/-- Enumeration is refused for the number of rolls alone, whatever their weights. Else it ends with the first sum out of
range, if there is any. -/
theorem keepOfCopies_eq (copies : Nat) (die : Distribution W) (k : Keep) (limit : UInt64) :
    keepOfCopies copies die k limit =
      if limit.toNat < die.numbers.length ^ copies then .error (.limitExceeded .keepCombinations limit.toNat)
      else if DrawsInRange die.numbers copies k then .ok (keptCopies copies die k)
      else .error .overflow := by
  have hmany : tooManyCombinations die.numbers.length copies limit = true ↔
      limit.toNat < die.numbers.length ^ copies := tooManyCombinations_iff ..
  rw [keepOfCopies]
  simp only [hmany]
  split
  · rfl
  · rw [collectKept_eq]
    by_cases h : DrawsInRange die.numbers copies k
    · rw [if_pos h, if_pos h]
      rfl
    · rw [if_neg h, if_neg h]

theorem keepOfCopies_eq_error {die : Distribution W} {k : Keep} {limit : UInt64} :
    keepOfCopies copies die k limit = .error (.limitExceeded .keepCombinations limit.toNat) ↔
      limit.toNat < die.numbers.length ^ copies := by
  rw [keepOfCopies_eq]
  split
  next h => exact iff_of_true rfl h
  next h => split <;> exact iff_of_false nofun h

theorem keepOfCopies_eq_overflow {die : Distribution W} {k : Keep} {limit : UInt64} :
    keepOfCopies copies die k limit = .error .overflow ↔
      die.numbers.length ^ copies ≤ limit.toNat ∧ ¬ DrawsInRange die.numbers copies k := by
  rw [keepOfCopies_eq, ← not_lt]
  split
  next h => simp [h]
  next h => split <;> simp_all

theorem keepOfCopies_eq_ok {die b : Distribution W} {k : Keep} {limit : UInt64} :
    keepOfCopies copies die k limit = .ok b ↔
      (die.numbers.length ^ copies ≤ limit.toNat ∧ DrawsInRange die.numbers copies k) ∧
        keptCopies copies die k = b := by
  rw [keepOfCopies_eq, ← not_lt]
  split
  next h => simp [h]
  next h => split <;> simp_all

end Shown

theorem foldl_mul (w : Rat) (l : List (Int64 × Rat)) :
    l.foldl (fun w e => w * e.2) w = w * (l.map (·.2)).prod := by
  induction l generalizing w with
  | nil => simp
  | cons e l ih => rw [List.foldl_cons, ih, List.map_cons, List.prod_cons, mul_assoc]

/-- A draw counts for the sum of its best numbers, with the product of its weights. -/
theorem drawEntry_eq (k : Keep) (die : Distribution Rat) {copies : Nat}
    (r : Fin copies → Fin die.numbers.length) :
    drawEntry k [] 1 (List.ofFn fun i => die.numbers.get (r i)) =
      (.number (.ofIntClamp (bestSum k die r)), ∏ i, (die.numbers.get (r i)).2) := by
  rw [drawEntry, Keep.foldl_select, foldl_mul, one_mul, List.map_ofFn, List.map_ofFn, List.prod_ofFn]
  rfl

/-- The sums of the best, held at the ends of the 64-bit range, are all that is shown. -/
theorem mem_faces_keptCopies {copies : Nat} {die : Distribution Rat} {k : Keep} {f : Face} :
    f ∈ (keptCopies copies die k).table.faces ↔ ∃ r : Fin copies → Fin die.numbers.length,
      .number (.ofIntClamp (bestSum k die r)) = f := by
  have hlisted : f ∈ (keptCopies copies die k).table.faces ↔
      ∃ e ∈ (draws die.numbers copies).map (drawEntry k [] 1), e.1 = f := by
    rw [keptCopies, ofTable, Table.ofList, Table.mem_faces_ofTally_addAll]
    exact or_iff_right (by rintro ⟨⟩)
  rw [hlisted]
  simp only [List.mem_map, mem_draws]
  constructor
  · intro hdraw
    obtain ⟨_, ⟨_, ⟨r, rfl⟩, rfl⟩, rfl⟩ := hdraw
    exact ⟨r, by rw [drawEntry_eq]⟩
  · intro hsum
    obtain ⟨r, rfl⟩ := hsum
    exact ⟨_, ⟨_, ⟨r, rfl⟩, rfl⟩, by rw [drawEntry_eq]⟩

theorem weight_keptCopies (copies : Nat) (die : Distribution Rat) (k : Keep) (f : Face) :
    (keptCopies copies die k).weight f = ∑ r : Fin copies → Fin die.numbers.length,
      if Face.number (.ofIntClamp (bestSum k die r)) = f then ∏ i, (die.numbers.get (r i)).2 else 0 := by
  rw [weight, keptCopies, ofTable, Table.weight_ofList, List.map_map, sum_map_draws]
  apply Finset.sum_congr rfl
  intro r _
  rw [Function.comp_apply, drawEntry_eq]

/-- Within the range nothing is held back. -/
theorem number_ofIntClamp_eq_iff {s : Int} (hs : Value.InRange s) {v : Int64} :
    Face.number (.ofIntClamp s) = .number v ↔ s = v.toInt := by
  constructor
  · rintro ⟨⟩
    exact (Int64.toInt_ofIntClamp hs.1 hs.2).symm
  · intro hv
    rw [hv, Int64.ofIntClamp_toInt]

/-- Keeping the best of several copies is refused exactly when there are more rolls than the limit. Else, as long as
no sum of the best leaves the 64-bit range, the result has no note, shows the sum of the best of every roll and nothing
else, and weighs each sum with all rolls that come to it. A single sum out of the range stops the run. -/
theorem keepOfCopies_order_statistic (copies : Nat) (die : Distribution Rat) (k : Keep) (limit : UInt64) :
    (keepOfCopies copies die k limit = .error (.limitExceeded .keepCombinations limit.toNat) ↔
      limit.toNat < die.numbers.length ^ copies) ∧
    (die.numbers.length ^ copies ≤ limit.toNat →
      (∀ r : Fin copies → Fin die.numbers.length,
        Int64.minValue.toInt ≤ bestSum k die r ∧ bestSum k die r ≤ Int64.maxValue.toInt) →
      ∃ d, keepOfCopies copies die k limit = .ok d ∧ d.note = .unmarked ∧
        (∀ f, f ∈ d.table.faces ↔ ∃ r : Fin copies → Fin die.numbers.length, ∃ v : Int64,
          v.toInt = bestSum k die r ∧ .number v = f) ∧
        ∀ v : Int64, d.weight (.number v) = ∑ r : Fin copies → Fin die.numbers.length,
          if bestSum k die r = v.toInt then ∏ i, (die.numbers.get (r i)).2 else 0) ∧
    (keepOfCopies copies die k limit = .error .overflow ↔
      die.numbers.length ^ copies ≤ limit.toNat ∧
        ∃ r : Fin copies → Fin die.numbers.length, ¬ Value.InRange (bestSum k die r)) := by
  refine ⟨keepOfCopies_eq_error, ?_, by rw [keepOfCopies_eq_overflow, drawsInRange_iff, not_forall]⟩
  intro hfew hrange
  refine ⟨_, keepOfCopies_eq_ok.mpr ⟨⟨hfew, drawsInRange_iff.mpr hrange⟩, rfl⟩, rfl, ?_, ?_⟩
  · intro f
    rw [mem_faces_keptCopies]
    constructor
    · intro hsum
      obtain ⟨r, rfl⟩ := hsum
      exact ⟨r, _, Int64.toInt_ofIntClamp (hrange r).1 (hrange r).2, rfl⟩
    · intro hsum
      obtain ⟨r, v, hv, rfl⟩ := hsum
      exact ⟨r, (number_ofIntClamp_eq_iff (hrange r)).mpr hv.symm⟩
  · intro v
    rw [weight_keptCopies]
    apply Finset.sum_congr rfl
    intro r _
    exact if_congr (number_ofIntClamp_eq_iff (hrange r)) rfl rfl

end DiceLaw.Distribution
