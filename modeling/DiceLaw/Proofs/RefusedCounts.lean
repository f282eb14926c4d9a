import Mathlib.Data.Finset.Max
import Mathlib.Order.Bounds.Defs
import DiceLaw.Proofs.KeptCopies
import DiceLaw.Proofs.Listing
import DiceLaw.Proofs.Results

/-! Numbers of copies that fail. Counts are met in ascending order, each with checks of its own, so that the smallest
one that fails gives the fault: a refusal, or else a sum of kept numbers that leaves the 64-bit range. No weight is
looked at, and no label is met. -/
namespace DiceLaw.Distribution
open Table
variable {W : Type}

/-! ### What fails -/

/-- Whether so many copies are refused. -/
def Refused (limits : Limits) (die : Distribution W) (v : Int64) : Prop :=
  v.toInt < 0 ∨ limits.maxRepeat.toNat < v.toInt ∨
    (die.keep?.isSome = true ∧ limits.maxKeepCombinations.toNat < die.numbers.length ^ v.toInt.toNat)

instance (limits : Limits) (die : Distribution W) (v : Int64) : Decidable (Refused limits die v) :=
  inferInstanceAs (Decidable (_ ∨ _ ∨ _))

/-- The fault for a refused number of copies. -/
def refusal (limits : Limits) (v : Int64) : Fault :=
  if v.toInt < 0 then .negativeRepeat v
  else if limits.maxRepeat.toNat < v.toInt then .limitExceeded .diceCount limits.maxRepeat.toNat
  else .limitExceeded .keepCombinations limits.maxKeepCombinations.toNat

/-- The numbers among the counts that are refused. -/
def refusedCounts (limits : Limits) (counts die : Distribution W) : Set Int64 :=
  {v | .number v ∈ counts.table.faces ∧ Refused limits die v}

/-- Whether some roll of so many copies has its best numbers sum up out of the range. -/
def Overflows (die : Distribution W) (v : Int64) : Prop :=
  ∃ k, die.keep? = some k ∧ ∃ r : Fin v.toInt.toNat → Fin die.numbers.length, ¬ Value.InRange (bestSum k die r)

/-- The fault for a number of copies that fails, where limits are looked at first. -/
def failure (limits : Limits) (die : Distribution W) (v : Int64) : Fault :=
  if Refused limits die v then refusal limits v else .overflow

/-- The numbers among the counts that fail. -/
def failingCounts (limits : Limits) (counts die : Distribution W) : Set Int64 :=
  {v | .number v ∈ counts.table.faces ∧ (Refused limits die v ∨ Overflows die v)}

theorem exists_isLeast_counts {counts : Distribution W} {P : Int64 → Prop}
    (h : {v | .number v ∈ counts.table.faces ∧ P v}.Nonempty) :
    ∃ v, IsLeast {v | .number v ∈ counts.table.faces ∧ P v} v := by
  classical
  let chosen := (counts.table.numbers.map (·.1)).toFinset.filter P
  have hmem (v : Int64) : v ∈ chosen ↔ .number v ∈ counts.table.faces ∧ P v := by
    rw [Finset.mem_filter, List.mem_toFinset, ← number_mem_faces_iff_mem_map]
  obtain ⟨u, hu⟩ := h
  obtain ⟨v, hv, hleast⟩ := Finset.exists_min_image chosen Int64.toInt ⟨u, (hmem u).mpr hu⟩
  refine ⟨v, (hmem v).mp hv, fun u hu => ?_⟩
  exact Int64.le_iff_toInt_le.mpr (hleast u ((hmem u).mpr hu))

/-- As long as sums stay within the range, only refusals fail. -/
theorem failingCounts_eq_refusedCounts {limits : Limits} {counts die : Distribution W}
    (h : ∀ v, .number v ∈ counts.table.faces → ¬ Refused limits die v → ¬ Overflows die v) :
    failingCounts limits counts die = refusedCounts limits counts die := by
  ext v
  constructor
  · rintro ⟨hv, hrefused | hover⟩
    · exact ⟨hv, hrefused⟩
    · exact ⟨hv, by_contra fun hrefused => h v hv hrefused hover⟩
  · rintro ⟨hv, hrefused⟩
    exact ⟨hv, .inl hrefused⟩

variable [Weight W]

/-! ### One count -/

/-- A count either fails, with its fault, or is resolved. -/
theorem copies_cases (limits : Limits) (die : Distribution W) (v : Int64) :
    ((Refused limits die v ∨ Overflows die v) ∧ copies limits die v = .error (failure limits die v)) ∨
      (¬ (Refused limits die v ∨ Overflows die v) ∧ ∃ b, copies limits die v = .ok b) := by
  have hneg : v < 0 ↔ v.toInt < 0 := Int64.lt_iff_toInt_lt
  have hrefused (h : Refused limits die v) : failure limits die v = refusal limits v := if_pos h
  rw [copies]
  by_cases hn : v.toInt < 0
  · rw [if_pos (hneg.mpr hn), hrefused (.inl hn), refusal, if_pos hn]
    exact .inl ⟨.inl (.inl hn), rfl⟩
  rw [if_neg (mt hneg.mp hn)]
  by_cases hm : limits.maxRepeat.toNat < v.toInt
  · rw [if_pos (by omega), hrefused (.inr (.inl hm)), refusal, if_neg hn, if_pos hm]
    exact .inl ⟨.inl (.inr (.inl hm)), rfl⟩
  rw [if_neg (by omega)]
  cases hkeep : die.keep? with
  | none => exact .inr ⟨by simp [Refused, Overflows, hn, hm, hkeep], _, rfl⟩
  | some k =>
    have hmany : Refused limits die v ↔ limits.maxKeepCombinations.toNat < die.numbers.length ^ v.toInt.toNat := by
      simp [Refused, hn, hm, hkeep]
    have hsums : Overflows die v ↔ ¬ DrawsInRange die.numbers v.toInt.toNat k := by
      rw [drawsInRange_iff, not_forall, Overflows, hkeep]
      exact ⟨fun ⟨_, hk, hout⟩ => Option.some.inj hk ▸ hout, fun hout => ⟨k, rfl, hout⟩⟩
    simp only [keepOfCopies_eq]
    by_cases h : Refused limits die v
    · rw [if_pos (hmany.mp h), hrefused h, refusal, if_neg hn, if_neg hm]
      exact .inl ⟨.inl h, rfl⟩
    rw [if_neg (mt hmany.mpr h)]
    by_cases hover : Overflows die v
    · rw [if_neg (hsums.mp hover), failure, if_neg h]
      exact .inl ⟨.inr hover, rfl⟩
    · rw [if_pos (not_not.mp (mt hsums.mpr hover))]
      exact .inr ⟨not_or.mpr ⟨h, hover⟩, _, rfl⟩

theorem copies_eq_error_of_fails {limits : Limits} {die : Distribution W} {v : Int64}
    (h : Refused limits die v ∨ Overflows die v) : copies limits die v = .error (failure limits die v) :=
  (copies_cases limits die v).elim (·.2) fun hok => absurd h hok.1

theorem exists_copies_iff {limits : Limits} {die : Distribution W} {v : Int64} :
    (∃ b, copies limits die v = .ok b) ↔ ¬ (Refused limits die v ∨ Overflows die v) := by
  rcases copies_cases limits die v with ⟨hfails, hfault⟩ | ⟨hfails, hok⟩
  · rw [hfault]
    simp [hfails]
  · exact iff_of_true hok hfails

/-! ### All counts -/

/-- A count with its copies. -/
def resolve (limits : Limits) (die : Distribution W) (e : Int64 × W) : Except Fault (Resolved W) := do
  let b ← copies limits die e.1
  return ⟨e.2, b.total, b⟩

theorem repeated_eq (limits : Limits) (counts die : Distribution W) :
    repeated limits counts die = (do
      let branches ← counts.numbers.mapM (resolve limits die)
      pure (mixture branches)) := rfl

theorem exists_resolve_iff {limits : Limits} {die : Distribution W} {e : Int64 × W} :
    (∃ b, resolve limits die e = .ok b) ↔ ¬ (Refused limits die e.1 ∨ Overflows die e.1) :=
  exists_bind_pure_eq_ok.trans exists_copies_iff

theorem resolve_eq_error_of_fails {limits : Limits} {die : Distribution W} {e : Int64 × W}
    (h : Refused limits die e.1 ∨ Overflows die e.1) : resolve limits die e = .error (failure limits die e.1) := by
  rw [resolve, copies_eq_error_of_fails h]
  rfl

theorem exists_repeated_iff {limits : Limits} {counts die : Distribution W} :
    (∃ r, repeated limits counts die = .ok r) ↔
      ∀ v, .number v ∈ counts.table.faces → ¬ (Refused limits die v ∨ Overflows die v) := by
  rw [repeated_eq, exists_bind_pure_eq_ok, exists_mapM_eq_ok]
  simp only [exists_resolve_iff, number_mem_faces_iff]
  constructor
  · rintro h v ⟨w, hv⟩
    exact h (v, w) hv
  · intro h e he
    exact h e.1 ⟨e.2, he⟩

/-- All counts before the smallest failing one are resolved. -/
theorem repeated_eq_error {limits : Limits} {counts die : Distribution W} {v : Int64}
    (h : IsLeast (failingCounts limits counts die) v) :
    repeated limits counts die = .error (failure limits die v) := by
  obtain ⟨⟨hv, hfails⟩, hleast⟩ := h
  obtain ⟨w, hvw⟩ := number_mem_faces_iff.mp hv
  obtain ⟨before, after, hsplit⟩ := List.append_of_mem hvw
  have hbefore : ∀ e ∈ before, ∃ b, resolve limits die e = .ok b := by
    intro e he
    have hmem : e ∈ counts.table.numbers := by
      rw [hsplit]
      exact List.mem_append_left _ he
    have hlt : e.1 < v := by
      have hascending := counts.table.numbers_ascending
      rw [hsplit] at hascending
      exact (List.pairwise_append.mp hascending).2.2 e he (v, w) (List.mem_cons_self ..)
    refine exists_resolve_iff.mpr fun h => Int64.not_le.mpr hlt (hleast ⟨?_, h⟩)
    exact number_mem_faces_iff.mpr ⟨e.2, hmem⟩
  have hfault : resolve limits die (v, w) = .error (failure limits die v) := resolve_eq_error_of_fails hfails
  rw [repeated_eq, numbers, hsplit, mapM_eq_error hbefore hfault]
  rfl

theorem repeated_eq_error_iff {limits : Limits} {counts die : Distribution W} {fault : Fault} :
    repeated limits counts die = .error fault ↔
      ∃ v, IsLeast (failingCounts limits counts die) v ∧ failure limits die v = fault := by
  constructor
  · intro h
    have hsome : (failingCounts limits counts die).Nonempty := by
      by_contra hnone
      obtain ⟨r, hr⟩ := exists_repeated_iff.mpr fun v hv hfails => hnone ⟨v, hv, hfails⟩
      rw [hr] at h
      cases h
    obtain ⟨v, hv⟩ := exists_isLeast_counts hsome
    rw [repeated_eq_error hv] at h
    exact ⟨v, hv, Except.error.inj h⟩
  · rintro ⟨v, hv, rfl⟩
    exact repeated_eq_error hv

/-- Copies in a rolled number succeed exactly where no number among the counts is refused, and else the smallest one
that is gives the fault, be its weight zero or not. So it is as long as no sum of kept numbers leaves the 64-bit range
at a count that is not refused; where one does, that count fails too, and the smallest of all that fail gives the
fault. Labels among the counts change nothing, and neither does the order in which the entries of the counts and of the
die are given. -/
theorem repeated_blames_smallest (limits : Limits) (counts die : Distribution W) :
    ((∀ v, .number v ∈ counts.table.faces → ¬ Refused limits die v → ¬ Overflows die v) →
      ((∃ r, repeated limits counts die = .ok r) ↔
        ∀ v, .number v ∈ counts.table.faces → ¬ Refused limits die v) ∧
      ∀ fault, repeated limits counts die = .error fault ↔
        ∃ v, IsLeast (refusedCounts limits counts die) v ∧ refusal limits v = fault) ∧
    ((∃ r, repeated limits counts die = .ok r) ↔
      ∀ v, .number v ∈ counts.table.faces → ¬ (Refused limits die v ∨ Overflows die v)) ∧
    (∀ fault, repeated limits counts die = .error fault ↔
      ∃ v, IsLeast (failingCounts limits counts die) v ∧ failure limits die v = fault) ∧
    repeated limits { counts with table := counts.table.filter fun f => f.value?.isSome } die =
      repeated limits counts die ∧
    ∀ (note note' : Note) (cs cs' ds ds' : List (Face × W)), (cs.map (·.1)).Nodup → cs.Perm cs' →
      (ds.map (·.1)).Nodup → ds.Perm ds' →
      repeated limits ⟨.ofList cs, note⟩ ⟨.ofList ds, note'⟩ =
        repeated limits ⟨.ofList cs', note⟩ ⟨.ofList ds', note'⟩ := by
  refine ⟨fun hrange => ⟨?_, fun fault => ?_⟩, exists_repeated_iff, fun fault => repeated_eq_error_iff, ?_, ?_⟩
  · rw [exists_repeated_iff]
    refine forall₂_congr fun v hv => ⟨fun h hrefused => h (.inl hrefused), fun h => ?_⟩
    exact not_or.mpr ⟨h, hrange v hv h⟩
  · rw [repeated_eq_error_iff, failingCounts_eq_refusedCounts hrange]
    refine exists_congr fun v => and_congr_right fun hv => ?_
    rw [failure, if_pos hv.1.2]
  · rw [repeated_eq, repeated_eq, numbers, numbers_filter_isSome]
    rfl
  · intro note note' cs cs' ds ds' hcs hcounts hds hdie
    rw [ofList_perm_of_nodup hcs hcounts, ofList_perm_of_nodup hds hdie]

/-- Three rolls of three sides are too many combinations, and that count comes before the other refused one although
it weighs nothing and stands behind it. -/
theorem repeated_blames_smallest_weightless :
    let limits : Limits := { maxKeepCombinations := 20 }
    let die : Distribution Rat := ⟨.ofList [(.number 1, 1), (.number 2, 1), (.number 3, 1)], .keep ⟨.highest, 1⟩⟩
    let entries : List (Face × Rat) := [(.number 200, 1), (.label "many", 1), (.number 2, 1), (.number 3, 0)]
    (∀ v, .number v ∈ (ofFaces entries).table.faces → ¬ Refused limits die v → ¬ Overflows die v) ∧
      IsLeast (refusedCounts limits (ofFaces entries) die) 3 ∧
      repeated limits (ofFaces entries) die = .error (.limitExceeded .keepCombinations 20) ∧
      repeated limits (ofFaces entries.reverse) die = .error (.limitExceeded .keepCombinations 20) := by
  intro limits die entries
  have hfaces : (ofFaces entries).table.faces = [.number 2, .number 3, .number 200, .label "many"] := by
    decide +kernel
  have hleast : IsLeast (refusedCounts limits (ofFaces entries) die) 3 := by
    refine ⟨⟨by rw [hfaces]; decide, by decide +kernel⟩, fun u hu => ?_⟩
    obtain ⟨hu, hrefused⟩ := hu
    rw [hfaces] at hu
    obtain rfl | rfl | rfl : u = 2 ∨ u = 3 ∨ u = 200 := by simpa using hu
    · exact absurd hrefused (by decide +kernel)
    · decide
    · decide
  have hrange : ∀ v, .number v ∈ (ofFaces entries).table.faces → ¬ Refused limits die v → ¬ Overflows die v := by
    intro v hv hrefused
    rw [hfaces] at hv
    obtain rfl | rfl | rfl : v = 2 ∨ v = 3 ∨ v = 200 := by simpa using hv
    · rintro ⟨k, hkeep, r, hout⟩
      obtain rfl := Option.some.inj hkeep
      exact hout (drawsInRange_iff.mp (drawsInRange_of_count_le_one le_rfl _ _) r)
    · exact absurd (by decide +kernel) hrefused
    · exact absurd (by decide +kernel) hrefused
  obtain ⟨hwithin, -, -, -, horder⟩ := repeated_blames_smallest limits (ofFaces entries) die
  have hblamed := ((hwithin hrange).2 _).mpr ⟨3, hleast, rfl⟩
  refine ⟨hrange, hleast, hblamed, ?_⟩
  have hreversed := horder .unmarked (.keep ⟨.highest, 1⟩) entries entries.reverse
    [(.number 1, 1), (.number 2, 1), (.number 3, 1)] _ (by decide) (List.reverse_perm _).symm (by decide) (.refl _)
  exact hreversed.symm.trans hblamed

end DiceLaw.Distribution
