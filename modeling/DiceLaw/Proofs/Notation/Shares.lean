import DiceLaw.Proofs.Chance
import DiceLaw.Proofs.Notation.Meaning

/-! The law of total probability for one use of an operator. Carving splits the weight of what stands before
it, and the parts come back with one factor in common: each with the share it was carved with. -/
namespace DiceLaw.Notation
open DiceLaw.Distribution

/-! ### Parts -/

/-- What a part becomes by the operator, empty if it does not apply. -/
def Part.outcome {W : Type} [Weight W] (op : Operator) (p : Part W) : Distribution W :=
  (op.apply p.carved p.argument).toOption.getD .empty

/-- The outcome of a part, weighing `share` times what was carved. -/
def Part.rejoined (op : Operator) (share : Rat) (p : Part Rat) : Distribution Rat :=
  (p.outcome op).scale (if 0 < (p.outcome op).total then p.carved.total * share / (p.outcome op).total else 1)

/-- No weight below zero, neither in what was carved nor in the argument. -/
structure Part.Nonneg (p : Part Rat) : Prop where
  carved : p.carved.Nonneg
  argument : p.argument.Nonneg

theorem Part.outcome_eq {op : Operator} {p : Part Rat} {d : Distribution Rat}
    (h : op.apply p.carved p.argument = .ok d) : p.outcome op = d := by
  rw [outcome, h]
  rfl

theorem Part.Nonneg.outcome {op : Operator} {p : Part Rat} (h : p.Nonneg)
    (hmet : op.apply p.carved p.argument = .ok (p.outcome op)) : (p.outcome op).Nonneg :=
  Operator.apply_nonneg h.carved h.argument hmet

section Weighing
variable {op : Operator} {p : Part Rat} (hp : p.Nonneg)
  (hmet : op.apply p.carved p.argument = .ok (p.outcome op))
include hp

theorem Part.Nonneg.total_eq_zero (hlives : 0 < p.carved.total → 0 < (p.outcome op).total)
    (h : ¬ 0 < (p.outcome op).total) : p.carved.total = 0 :=
  le_antisymm (not_lt.mp fun hc => h (hlives hc)) hp.carved.total_nonneg

include hmet

theorem Part.Nonneg.weight_outcome_eq_zero (h : ¬ 0 < (p.outcome op).total) (f : Face) :
    (p.outcome op).weight f = 0 :=
  (hp.outcome hmet).weight_eq_zero (le_antisymm (not_lt.mp h) (hp.outcome hmet).total_nonneg) f

theorem Part.Nonneg.weight_rejoined (share : Rat) (f : Face) :
    (p.rejoined op share).weight f = share * (p.carved.total * (p.outcome op).chance f) := by
  rw [rejoined, weight_scale, chance_eq]
  split
  next h => field_simp
  next h =>
    rw [hp.weight_outcome_eq_zero hmet h]
    ring

theorem Part.Nonneg.total_rejoined (hlives : 0 < p.carved.total → 0 < (p.outcome op).total) (share : Rat) :
    (p.rejoined op share).total = share * p.carved.total := by
  rw [rejoined, total_scale]
  split
  next h => field_simp
  next h =>
    rw [total_eq_integral, integral_eq_zero (hp.weight_outcome_eq_zero hmet h), hp.total_eq_zero hlives h]
    ring

end Weighing

/-! ### Carving -/

/-- The parts carved off a distribution and what remains make it up, and no weight falls below zero by it. -/
structure Splits (d : Distribution Rat) (parts : List (Part Rat)) (rest : Distribution Rat) : Prop where
  total : (parts.map (·.carved.total)).sum + rest.total = d.total
  carved : d.Nonneg → ∀ p ∈ parts, p.carved.Nonneg
  rest : d.Nonneg → rest.Nonneg

theorem Splits.nil (d : Distribution Rat) : Splits d [] d := ⟨by simp, by simp, id⟩

theorem Splits.append {d mid rest : Distribution Rat} {first second : List (Part Rat)}
    (h : Splits d first mid) (h' : Splits mid second rest) : Splits d (first ++ second) rest where
  total := by
    rw [List.map_append, List.sum_append, ← h.total, ← h'.total]
    ring
  carved := by
    intro hd p hp
    rcases List.mem_append.mp hp with hp | hp
    · exact h.carved hd p hp
    · exact h'.carved (h.rest hd) p hp
  rest := fun hd => h'.rest (h.rest hd)

theorem carveTop_splits {count : Nat} {d carved rest : Distribution Rat} (argument : Distribution Rat)
    (h : carveTop count d = .ok (carved, rest)) : Splits d [⟨carved, argument⟩] rest := by
  rw [carveTop] at h
  split at h
  · cases h
  · obtain ⟨rfl, rfl⟩ := Prod.mk.inj (Except.ok.inj h)
    have hsub := ((d.numbers.drop_sublist (d.numbers.length - count)).map fun e => (Face.number e.1, e.2)).trans
      d.table.map_numbers_sublist
    constructor
    · rw [List.map_singleton, List.sum_singleton, total_eq_integral, total_eq_integral, total_eq_integral]
      exact Table.integral_ofList_add_without hsub _
    · intro hd p hp f
      rw [List.mem_singleton.mp hp, weight, ofWeights, ofFaces, ofTable, Table.weight_ofList_of_sublist hsub]
      split
      · exact hd f
      · exact le_rfl
    · intro hd f
      rw [weight, Table.weight_without]
      split
      · exact le_rfl
      · exact hd f

theorem carveBottom_splits {d carved rest : Distribution Rat} (argument : Distribution Rat)
    (h : carveBottom d = .ok (carved, rest)) : Splits d [⟨carved, argument⟩] rest := by
  simp only [carveBottom, bind_eq_ok, pure_eq_ok, Prod.mk.injEq] at h
  obtain ⟨low, -, rfl, rfl⟩ := h
  constructor
  · rw [List.map_singleton, List.sum_singleton, total_eq_integral, total_eq_integral, total_eq_integral,
      deleteFace, Table.integral_erase, ofWeights, ofFaces, ofTable, Table.integral_ofList]
    simp [Distribution.weight]
  · intro hd p hp f
    rw [List.mem_singleton.mp hp, weight, ofWeights, ofFaces, ofTable, Table.weight_ofList]
    simp only [List.map_cons, List.map_nil, List.sum_cons, List.sum_nil, add_zero]
    split
    · exact hd _
    · exact le_rfl
  · intro hd f
    rw [weight, deleteFace, Table.erase, Table.weight_filter]
    split
    · exact hd f
    · exact le_rfl

theorem carveCrit_splits {d rest : Distribution Rat} {crit : Option (Nat × Distribution Rat)}
    {parts : List (Part Rat)} (h : carveCrit d crit = .ok (parts, rest)) :
    Splits d parts rest ∧ ∀ p ∈ parts, ∃ c ∈ crit, c.2 = p.argument := by
  cases crit with
  | none =>
    obtain ⟨rfl, rfl⟩ : [] = parts ∧ d = rest := by simpa [carveCrit] using h
    exact ⟨.nil d, by simp⟩
  | some c =>
    obtain ⟨⟨carved, remains⟩, hc, he⟩ := carveCrit_some.mp h
    obtain ⟨rfl, rfl⟩ := Prod.mk.inj he
    exact ⟨carveTop_splits c.2 hc, by simp⟩

theorem carveSave_splits {d rest : Distribution Rat} {save : Option (Distribution Rat)}
    {parts : List (Part Rat)} (h : carveSave d save = .ok (parts, rest)) :
    Splits d parts rest ∧ ∀ p ∈ parts, ∃ a ∈ save, a = p.argument := by
  cases save with
  | none =>
    obtain ⟨rfl, rfl⟩ : [] = parts ∧ d = rest := by simpa [carveSave] using h
    exact ⟨.nil d, by simp⟩
  | some a =>
    obtain ⟨⟨carved, remains⟩, hc, he⟩ := carveSave_some.mp h
    obtain ⟨rfl, rfl⟩ := Prod.mk.inj he
    exact ⟨carveBottom_splits a hc, by simp⟩

section Carved
variable {current main : Distribution Rat} {crit : Option (Nat × Distribution Rat)}
  {save : Option (Distribution Rat)} {normal : Part Rat} {carved : List (Part Rat)}
  (h : carve current main crit save = .ok (normal, carved))
include h

theorem carve_splits : Splits current carved normal.carved ∧ normal.argument = main ∧
    ∀ p ∈ carved, (∃ c ∈ crit, c.2 = p.argument) ∨ ∃ a ∈ save, a = p.argument := by
  simp only [carve, bind_eq_ok, pure_eq_ok, Prod.mk.injEq] at h
  obtain ⟨⟨top, rest⟩, ht, ⟨bottom, remains⟩, hb, rfl, rfl⟩ := h
  obtain ⟨hcrit, htop⟩ := carveCrit_splits ht
  obtain ⟨hsave, hbottom⟩ := carveSave_splits hb
  refine ⟨hcrit.append hsave, rfl, ?_⟩
  intro p hp
  exact (List.mem_append.mp hp).imp (htop p) (hbottom p)

theorem sum_total_carve : ((normal :: carved).map (·.carved.total)).sum = current.total := by
  rw [List.map_cons, List.sum_cons, ← (carve_splits h).1.total, add_comm]

theorem nonneg_of_carve (hcurrent : current.Nonneg) (hmain : main.Nonneg) (hcrit : ∀ c ∈ crit, c.2.Nonneg)
    (hsave : ∀ a ∈ save, a.Nonneg) : ∀ p ∈ normal :: carved, p.Nonneg := by
  obtain ⟨hsplits, hnormal, harguments⟩ := carve_splits h
  intro p hp
  rcases List.mem_cons.mp hp with rfl | hp
  · exact ⟨hsplits.rest hcurrent, hnormal ▸ hmain⟩
  · refine ⟨hsplits.carved hcurrent p hp, ?_⟩
    rcases harguments p hp with ⟨c, hc, hargument⟩ | ⟨a, ha, hargument⟩
    · exact hargument ▸ hcrit c hc
    · exact hargument ▸ hsave a ha

end Carved

/-! ### Joining -/

theorem join_eq_ok {op : Operator} {share : Rat} {result r : Distribution Rat} {p : Part Rat} :
    join op share result p = .ok r ↔
      op.apply p.carved p.argument = .ok (p.outcome op) ∧ result.combine (p.rejoined op share) = r := by
  simp only [join, bind_eq_ok, pure_eq_ok]
  constructor
  · intro hok
    obtain ⟨d, hd, hr⟩ := hok
    rw [Part.rejoined, Part.outcome_eq hd]
    exact ⟨hd, hr⟩
  · intro hok
    obtain ⟨hd, hr⟩ := hok
    exact ⟨_, hd, hr⟩

/-- Joined one after the other, the carved parts add up. -/
theorem foldlM_join {op : Operator} {share : Rat} {carved : List (Part Rat)} {result r : Distribution Rat}
    (h : carved.foldlM (join op share) result = .ok r) :
    (∀ p ∈ carved, op.apply p.carved p.argument = .ok (p.outcome op)) ∧ ∀ φ : Face → Rat,
      r.table.integral φ =
        result.table.integral φ + (carved.map fun p => (p.rejoined op share).table.integral φ).sum := by
  induction carved generalizing result with
  | nil =>
    cases h
    simp
  | cons p carved ih =>
    rw [List.foldlM_cons, bind_eq_ok] at h
    obtain ⟨joined, hj, h⟩ := h
    obtain ⟨hmet, rfl⟩ := join_eq_ok.mp hj
    obtain ⟨hmets, hr⟩ := ih h
    refine ⟨by simpa using ⟨hmet, hmets⟩, ?_⟩
    intro φ
    rw [hr, combine, Table.integral_absorb, List.map_cons, List.sum_cons]
    ring

/-- The outcome of the normal part, scaled by its total over that before. -/
def Part.rescaled (op : Operator) (p : Part Rat) : Distribution Rat :=
  (p.outcome op).scale (if 0 < p.carved.total then (p.outcome op).total / p.carved.total else 1)

/-- What all parts weigh afterwards, over what they weighed before. -/
def Part.share (op : Operator) (p : Part Rat) : Rat :=
  if 0 < p.carved.total && 0 < (p.rescaled op).total then (p.rescaled op).total / p.carved.total else 1

theorem Part.share_pos (op : Operator) (p : Part Rat) : 0 < p.share op := by
  rw [share]
  split
  next h =>
    obtain ⟨hbefore, hafter⟩ : 0 < p.carved.total ∧ 0 < (p.rescaled op).total := by simpa using h
    exact div_pos hafter hbefore
  next h => exact zero_lt_one

theorem applyParts_eq_ok {op : Operator} {normal : Part Rat} {carved : List (Part Rat)} {r : Distribution Rat} :
    applyParts op normal carved = .ok r ↔
      op.apply normal.carved normal.argument = .ok (normal.outcome op) ∧
        carved.foldlM (join op (normal.share op)) (normal.rescaled op) = .ok r := by
  simp only [applyParts, bind_eq_ok]
  constructor
  · intro hok
    obtain ⟨d, hd, hr⟩ := hok
    rw [Part.share, Part.rescaled, Part.outcome_eq hd]
    exact ⟨hd, hr⟩
  · intro hok
    obtain ⟨hd, hr⟩ := hok
    exact ⟨_, hd, hr⟩

/-- The normal part is scaled as if it had been carved off itself. -/
theorem Part.Nonneg.integral_rescaled {op : Operator} {p : Part Rat} (hp : p.Nonneg)
    (hmet : op.apply p.carved p.argument = .ok (p.outcome op))
    (hlives : 0 < p.carved.total → 0 < (p.outcome op).total) (hunion : op = .combine → 0 < p.carved.total)
    (φ : Face → Rat) :
    (p.rescaled op).table.integral φ = (p.rejoined op (p.share op)).table.integral φ := by
  apply Table.integral_congr φ
  intro f
  change (p.rescaled op).weight f = (p.rejoined op (p.share op)).weight f
  by_cases hbefore : 0 < p.carved.total
  · have hafter := hlives hbefore
    have htotal : (p.rescaled op).total = (p.outcome op).total * ((p.outcome op).total / p.carved.total) := by
      rw [rescaled, total_scale, if_pos hbefore]
    have hpos : 0 < (p.rescaled op).total := by
      rw [htotal]
      positivity
    have hshare : p.share op = (p.rescaled op).total / p.carved.total := by simp [share, hbefore, hpos]
    rw [rescaled, rejoined, weight_scale, weight_scale, if_pos hbefore, if_pos hafter, hshare, htotal]
    field_simp
  · have hcarved (f : Face) : p.carved.weight f = 0 :=
      hp.carved.weight_eq_zero (le_antisymm (not_lt.mp hbefore) hp.carved.total_nonneg) f
    have hzero := Operator.weight_apply_eq_zero (fun h => hbefore (hunion h)) hcarved hmet f
    rw [rescaled, rejoined, weight_scale, weight_scale, hzero]
    ring

theorem applyParts_integral {op : Operator} {normal : Part Rat} {carved : List (Part Rat)}
    {r : Distribution Rat} (hnonneg : normal.Nonneg)
    (hlives : 0 < normal.carved.total → 0 < (normal.outcome op).total)
    (hunion : op = .combine → 0 < normal.carved.total) (h : applyParts op normal carved = .ok r) :
    (∀ p ∈ normal :: carved, op.apply p.carved p.argument = .ok (p.outcome op)) ∧ ∀ φ : Face → Rat,
      r.table.integral φ =
        ((normal :: carved).map fun p => (p.rejoined op (normal.share op)).table.integral φ).sum := by
  obtain ⟨hmet, h⟩ := applyParts_eq_ok.mp h
  obtain ⟨hmets, hr⟩ := foldlM_join h
  refine ⟨by simpa using ⟨hmet, hmets⟩, ?_⟩
  intro φ
  rw [hr, hnonneg.integral_rescaled hmet hlives hunion, List.map_cons, List.sum_cons]

/-! ### The law of total probability -/

section Law
variable {op : Operator} {normal : Part Rat} {carved : List (Part Rat)} {r : Distribution Rat}
  (hnonneg : ∀ p ∈ normal :: carved, p.Nonneg)
  (hlives : ∀ p ∈ normal :: carved, 0 < p.carved.total → 0 < (p.outcome op).total)
  (hunion : op = .combine → 0 < normal.carved.total) (h : applyParts op normal carved = .ok r)
include hnonneg hlives hunion h

theorem applyParts_weight (f : Face) :
    r.weight f = ((normal :: carved).map fun p => (p.rejoined op (normal.share op)).weight f).sum := by
  obtain ⟨-, hr⟩ := applyParts_integral (hnonneg _ (by simp)) (hlives _ (by simp)) hunion h
  simp only [Distribution.weight_eq_integral]
  exact hr _

theorem applyParts_total :
    r.total = normal.share op * ((normal :: carved).map (·.carved.total)).sum := by
  obtain ⟨hmet, hr⟩ := applyParts_integral (hnonneg _ (by simp)) (hlives _ (by simp)) hunion h
  rw [total_eq_integral, hr, ← List.sum_map_mul_left]
  apply congrArg List.sum
  apply List.map_congr_left
  intro p hp
  rw [← total_eq_integral, (hnonneg p hp).total_rejoined (hmet p hp) (hlives p hp)]

theorem applyParts_chance (htotal : 0 < ((normal :: carved).map (·.carved.total)).sum) (f : Face) :
    r.chance f = ((normal :: carved).map fun p =>
      p.carved.total / ((normal :: carved).map (·.carved.total)).sum * (p.outcome op).chance f).sum := by
  obtain ⟨hmet, -⟩ := applyParts_integral (hnonneg _ (by simp)) (hlives _ (by simp)) hunion h
  have hshare := normal.share_pos op
  rw [chance_eq, applyParts_weight hnonneg hlives hunion h, applyParts_total hnonneg hlives hunion h,
    div_eq_mul_inv, ← List.sum_map_mul_right]
  apply congrArg List.sum
  apply List.map_congr_left
  intro p hp
  rw [(hnonneg p hp).weight_rejoined (hmet p hp)]
  field_simp

end Law

/-- However an operator is used, the chance of a face is its chance for each part, counted with the share of
that part in what stood before. All parts come back with one factor, also where nothing normal is left; and
where nothing is carved off the rescaling shows in no chance. -/
theorem operate_total_probability {op : Operator} {current main r : Distribution Rat}
    {crit : Option (Nat × Distribution Rat)} {save : Option (Distribution Rat)} {normal : Part Rat}
    {carved : List (Part Rat)} (hcurrent : current.Nonneg) (hmain : main.Nonneg)
    (hcrit : ∀ c ∈ crit, c.2.Nonneg) (hsave : ∀ a ∈ save, a.Nonneg) (htotal : 0 < current.total)
    (hparts : carve current main crit save = .ok (normal, carved))
    (hlives : ∀ p ∈ normal :: carved, 0 < p.carved.total → 0 < (p.outcome op).total)
    (hunion : op = .combine → 0 < normal.carved.total)
    (hr : operate op current main crit save = .ok r) :
    (∀ p ∈ normal :: carved, op.apply p.carved p.argument = .ok (p.outcome op)) ∧
    ((normal :: carved).map (·.carved.total)).sum = current.total ∧
    (∃ share : Rat, 0 < share ∧
      (∀ p ∈ normal :: carved, (p.rejoined op share).total = share * p.carved.total) ∧
      ∀ f, r.weight f = ((normal :: carved).map fun p => (p.rejoined op share).weight f).sum) ∧
    (∀ f, r.chance f =
      ((normal :: carved).map fun p => p.carved.total / current.total * (p.outcome op).chance f).sum) ∧
    (crit = none → save = none → ∀ f, r.chance f = (Part.outcome op ⟨current, main⟩).chance f) := by
  have hsum := sum_total_carve hparts
  have hnonneg := nonneg_of_carve hparts hcurrent hmain hcrit hsave
  have happly : applyParts op normal carved = .ok r := by
    rw [operate, hparts] at hr
    exact hr
  obtain ⟨hmet, -⟩ := applyParts_integral (hnonneg _ (by simp)) (hlives _ (by simp)) hunion happly
  have hchance (f : Face) : r.chance f =
      ((normal :: carved).map fun p => p.carved.total / current.total * (p.outcome op).chance f).sum := by
    rw [← hsum] at htotal ⊢
    exact applyParts_chance hnonneg hlives hunion happly htotal f
  refine ⟨hmet, hsum, ⟨_, normal.share_pos op, ?_, ?_⟩, hchance, ?_⟩
  · intro p hp
    exact (hnonneg p hp).total_rejoined (hmet p hp) (hlives p hp) _
  · exact applyParts_weight hnonneg hlives hunion happly
  · rintro rfl rfl f
    obtain ⟨rfl, rfl⟩ : ⟨current, main⟩ = normal ∧ [] = carved := Prod.mk.inj (Except.ok.inj hparts)
    rw [hchance]
    simp [htotal.ne']

/-- Two faces, both carved off; only the save comes to `6`. -/
theorem operate_total_probability_all_carved :
    ∃ r, operate .add (ofWeights [(1, 1), (2, 3)]) (scalar 1) (some (1, scalar 2)) (some (scalar 5)) = .ok r ∧
      r.chance (.number 6) = (1 / 4 : Rat) := by
  have hcheck : (match carve (W := Rat) (ofWeights [(1, 1), (2, 3)]) (scalar 1) (some (1, scalar 2))
      (some (scalar 5)) with
    | .ok (normal, carved) => decide ((∀ p ∈ normal :: carved, 0 < p.carved.total → 0 < (p.outcome .add).total) ∧
        ((normal :: carved).map fun p => p.carved.total / 4 * (p.outcome .add).chance (.number 6)).sum = 1 / 4)
    | .error _ => false) = true := by decide +kernel
  obtain ⟨r, hr⟩ := Option.isSome_iff_exists.mp (show (operate (W := Rat) .add (ofWeights [(1, 1), (2, 3)])
    (scalar 1) (some (1, scalar 2)) (some (scalar 5))).toOption.isSome = true by decide +kernel)
  have htotal : (ofWeights [(1, 1), (2, 3)] : Distribution Rat).total = 4 := by decide +kernel
  split at hcheck
  next normal carved hparts =>
    obtain ⟨hlives, hsum⟩ := of_decide_eq_true hcheck
    have hr := toOption_eq_some.mp hr
    obtain ⟨-, -, -, hchance, -⟩ := operate_total_probability
      (nonneg_of_entries (by decide +kernel)) (nonneg_of_entries (by decide +kernel))
      (by rintro c ⟨⟩; exact nonneg_of_entries (by decide +kernel))
      (by rintro a ⟨⟩; exact nonneg_of_entries (by decide +kernel))
      (by decide +kernel) hparts hlives nofun hr
    refine ⟨r, hr, ?_⟩
    rw [hchance, htotal]
    exact hsum
  next => cases hcheck

end DiceLaw.Notation
