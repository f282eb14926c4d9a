import DiceLaw.Proofs.Mixture
import DiceLaw.Proofs.Rolls

/-! Sums of copies. Doubling regroups a sum that stops at the ends of the 64-bit range and that a label cuts
short. It makes no difference as long as sums reach one of the ends at most: then the sum of all is held once,
wherever it is held on the way. -/
namespace DiceLaw

/-! ### Held sums -/

namespace Value

theorem toInt_ofIntClamp (x : Int) :
    (Int64.ofIntClamp x).toInt = max Int64.minValue.toInt (min Int64.maxValue.toInt x) := by
  have hends : Int64.minValue.toInt ≤ Int64.maxValue.toInt := by decide
  by_cases hlow : Int64.minValue.toInt ≤ x
  · by_cases hhigh : x ≤ Int64.maxValue.toInt
    · rw [Int64.toInt_ofIntClamp hlow hhigh]
      omega
    · rw [Int64.ofIntClamp, dif_pos hlow, dif_neg hhigh]
      omega
  · rw [Int64.ofIntClamp, dif_neg hlow]
    omega

/-- Both within the range, or on the same side of zero. -/
def Aligned (x y : Int) : Prop :=
  ((-Int64.maxValue.toInt ≤ x ∧ x ≤ Int64.maxValue.toInt) ∧ -Int64.maxValue.toInt ≤ y ∧ y ≤ Int64.maxValue.toInt) ∨
    (0 ≤ x ∧ 0 ≤ y) ∨ (x ≤ 0 ∧ y ≤ 0)

/-- Held before and after is held after. -/
theorem add_ofIntClamp {x y : Int} (h : Aligned x y) :
    add (.ofIntClamp x) (.ofIntClamp y) = .ofIntClamp (x + y) := by
  have hmin : Int64.minValue.toInt = -9223372036854775808 := by decide
  have hmax : Int64.maxValue.toInt = 9223372036854775807 := by decide
  rw [← Int64.toInt_inj, add, toInt_ofIntClamp, toInt_ofIntClamp, toInt_ofIntClamp, toInt_ofIntClamp]
  simp only [Aligned, hmin, hmax] at h ⊢
  omega

theorem InRange.add_ofIntClamp {x y : Int} (hx : InRange x) (hy : InRange y) :
    add (.ofIntClamp x) (.ofIntClamp y) = .ofIntClamp (x + y) := by
  rw [add, hx.toInt_ofIntClamp, hy.toInt_ofIntClamp]

end Value

namespace Face

/-- The numbers among some faces. -/
def values (fs : List Face) : List Int64 := fs.filterMap value?

/-- Their true sum. -/
def sum (fs : List Face) : Int := ((values fs).map Int64.toInt).sum

/-- What faces come to together: the leftmost label, else their sum, held once. -/
def together (fs : List Face) : Face := (fs.find? (·.value?.isNone)).getD (.number (.ofIntClamp (sum fs)))

theorem sum_append (fs gs : List Face) : sum (fs ++ gs) = sum fs + sum gs := by
  rw [sum, values, List.filterMap_append, List.map_append, List.sum_append, sum, values, sum, values]

theorem mem_values {fs : List Face} {v : Int64} : v ∈ values fs ↔ .number v ∈ fs := by
  rw [values, List.mem_filterMap]
  constructor
  · rintro ⟨f, hf, hv⟩
    cases f with
    | number w => exact Option.some.inj hv ▸ hf
    | label name => cases hv
  · intro hv
    exact ⟨_, hv, rfl⟩

theorem together_nil : together [] = .number 0 := rfl

theorem together_singleton (f : Face) : together [f] = f := by
  cases f with
  | number v => simp [together, sum, values, value?, Int64.ofIntClamp_toInt]
  | label name => rfl

theorem together_append_of_add {fs gs : List Face}
    (h : Value.add (.ofIntClamp (sum fs)) (.ofIntClamp (sum gs)) = .ofIntClamp (sum fs + sum gs)) :
    Distribution.pairFace Value.add (together fs) (together gs) = together (fs ++ gs) := by
  rw [together, together, together, List.find?_append]
  have hlabel {hs : List Face} {f : Face} (hf : hs.find? (·.value?.isNone) = some f) : ∃ name, f = .label name := by
    cases f with
    | number v => simpa [value?] using List.find?_some hf
    | label name => exact ⟨name, rfl⟩
  cases hfs : fs.find? (·.value?.isNone) with
  | some f =>
    obtain ⟨name, rfl⟩ := hlabel hfs
    rfl
  | none =>
    cases hgs : gs.find? (·.value?.isNone) with
    | some g =>
      obtain ⟨name, rfl⟩ := hlabel hgs
      rfl
    | none => exact congrArg Face.number (by rw [h, sum_append])

theorem together_append {fs gs : List Face} (h : Value.Aligned (sum fs) (sum gs)) :
    Distribution.pairFace Value.add (together fs) (together gs) = together (fs ++ gs) :=
  together_append_of_add (Value.add_ofIntClamp h)

end Face

namespace Distribution
open Table

/-! ### Dice whose sums reach one end at most -/

/-- No sum of so many numbers of the table leaves the range, or all its numbers are on one side of zero. -/
def OneEnded (count : Nat) (t : Table Rat) : Prop :=
  (∀ v, .number v ∈ t.faces → |v.toInt| * count ≤ Int64.maxValue.toInt) ∨
    (∀ v, .number v ∈ t.faces → 0 ≤ v.toInt) ∨ ∀ v, .number v ∈ t.faces → v.toInt ≤ 0

/-- So many copies of any number of the table sum to one in range. -/
def Fits (count : Nat) (t : Table Rat) : Prop := ∀ v, .number v ∈ t.faces → Value.InRange (v.toInt * count)

theorem fits_of_abs {count : Nat} {t : Table Rat}
    (h : ∀ v, .number v ∈ t.faces → |v.toInt| * count ≤ Int64.maxValue.toInt) : Fits count t := by
  intro v hv
  have hmin : Int64.minValue.toInt ≤ -Int64.maxValue.toInt := by decide
  have hproduct : |v.toInt * count| ≤ Int64.maxValue.toInt := by
    rw [abs_mul, Nat.abs_cast]
    exact h v hv
  obtain ⟨hlow, hhigh⟩ := abs_le.mp hproduct
  exact ⟨hmin.trans hlow, hhigh⟩

private theorem sum_le_of_forall_mul_le {xs : List Int} {count : Nat} {most : Int} (hlength : xs.length ≤ count)
    (hmost : 0 ≤ most) (h : ∀ x ∈ xs, x * count ≤ most) : xs.sum ≤ most := by
  obtain rfl | hpos := Nat.eq_zero_or_pos count
  · rw [List.length_eq_zero_iff.mp (Nat.le_zero.mp hlength)]
    exact hmost
  · have hall : ∀ y ∈ xs.map (· * (count : Int)), y ≤ most := by simpa using h
    have hsum : xs.sum * count ≤ xs.length * most := by
      have hcard := List.sum_le_card_nsmul _ most hall
      rwa [List.sum_map_mul_right, List.length_map, nsmul_eq_mul, List.map_id'] at hcard
    refine le_of_mul_le_mul_right (hsum.trans ?_) (show (0 : Int) < count by exact_mod_cast hpos)
    rw [mul_comm]
    gcongr

private theorem le_sum_of_forall_le_mul {xs : List Int} {count : Nat} {least : Int} (hlength : xs.length ≤ count)
    (hleast : least ≤ 0) (h : ∀ x ∈ xs, least ≤ x * count) : least ≤ xs.sum := by
  have hmost : ∀ x ∈ xs.map fun x => -x, x * count ≤ -least := by
    intro x hx
    obtain ⟨y, hy, rfl⟩ := List.mem_map.mp hx
    rw [neg_mul]
    exact neg_le_neg (h y hy)
  have hneg := sum_le_of_forall_mul_le ((List.length_map _).trans_le hlength) (neg_nonneg.mpr hleast) hmost
  rw [← List.sum_neg] at hneg
  exact neg_le_neg_iff.mp hneg

theorem Fits.inRange_sum {count : Nat} {t : Table Rat} (h : Fits count t) {vs : List Int64}
    (hlength : vs.length ≤ count) (hvs : ∀ v ∈ vs, .number v ∈ t.faces) :
    Value.InRange (vs.map Int64.toInt).sum := by
  have hnumber (x : Int) (hx : x ∈ vs.map Int64.toInt) : Value.InRange (x * count) := by
    obtain ⟨v, hv, rfl⟩ := List.mem_map.mp hx
    exact h v (hvs v hv)
  have hlength : (vs.map Int64.toInt).length ≤ count := by rwa [List.length_map]
  exact ⟨le_sum_of_forall_le_mul hlength (by decide) fun x hx => (hnumber x hx).1,
    sum_le_of_forall_mul_le hlength (by decide) fun x hx => (hnumber x hx).2⟩

section Sums
variable {t : Table Rat} {m n : Nat} {fs gs : List Face}

theorem forall_numbers_of_shows (h : t.Shows n fs) {P : Int → Prop} (ht : ∀ v, .number v ∈ t.faces → P v.toInt) :
    ∀ x ∈ (Face.values fs).map Int64.toInt, P x := by
  intro x hx
  obtain ⟨v, hv, rfl⟩ := List.mem_map.mp hx
  exact ht v (h.2 _ (Face.mem_values.mp hv))

theorem Fits.inRange_sum_of_shows {count : Nat} (h : Fits count t) (hn : n ≤ count) (hfs : t.Shows n fs) :
    Value.InRange (Face.sum fs) :=
  h.inRange_sum ((List.length_filterMap_le ..).trans (hfs.1.trans_le hn)) fun _ hv => hfs.2 _ (Face.mem_values.mp hv)

end Sums

/-- Whatever up to so many rolls of the table come to may be put together in two parts. -/
def HeldInParts (count : Nat) (t : Table Rat) : Prop :=
  ∀ (m n : Nat) (fs gs : List Face), m + n ≤ count → t.Shows m fs → t.Shows n gs →
    pairFace Value.add (Face.together fs) (Face.together gs) = Face.together (fs ++ gs)

section Held
variable {t : Table Rat} {count less : Nat}

theorem HeldInParts.mono (h : HeldInParts count t) (hless : less ≤ count) : HeldInParts less t :=
  fun m n fs gs hle => h m n fs gs (hle.trans hless)

theorem Fits.heldInParts (h : Fits count t) : HeldInParts count t := by
  intro m n fs gs hle hfs hgs
  have hf := h.inRange_sum_of_shows ((Nat.le_add_right m n).trans hle) hfs
  have hg := h.inRange_sum_of_shows ((Nat.le_add_left n m).trans hle) hgs
  exact Face.together_append_of_add (hf.add_ofIntClamp hg)

/-- On one side of zero all sums are held at the same end. -/
theorem OneEnded.heldInParts (h : OneEnded count t) : HeldInParts count t := by
  rcases h with hsmall | hside | hside
  · exact (fits_of_abs hsmall).heldInParts
  · intro m n fs gs _ hfs hgs
    exact Face.together_append (.inr (.inl ⟨List.sum_nonneg (forall_numbers_of_shows hfs hside),
      List.sum_nonneg (forall_numbers_of_shows hgs hside)⟩))
  · intro m n fs gs _ hfs hgs
    have hnonpos {n : Nat} {hs : List Face} (hhs : t.Shows n hs) : Face.sum hs ≤ 0 :=
      (List.sum_le_card_nsmul _ 0 (forall_numbers_of_shows hhs hside)).trans_eq (nsmul_zero _)
    exact Face.together_append (.inr (.inr ⟨hnonpos hfs, hnonpos hgs⟩))

end Held

/-! ### Copies -/

section Copies
variable {die : Distribution Rat}

theorem ResultOf.add {d e : Distribution Rat} {t : Table Rat} {m n : Nat} (h : ResultOf d t m Face.together)
    (k : ResultOf e t n Face.together) (ht : HeldInParts (m + n) t) : ResultOf (d.add e) t (m + n) Face.together :=
  h.pairUp k fun fs gs hfs hgs => ht m n fs gs le_rfl hfs hgs

/-- By halves: those before the last doubling, and the odd copy. -/
theorem HeldInParts.resultOf_sumOfCopies {count : Nat} (h : HeldInParts count die.table) :
    ResultOf (sumOfCopies count die) die.table count Face.together := by
  have hone : ResultOf die die.table 1 Face.together := resultOf_one rfl fun f _ => Face.together_singleton f
  induction count using Nat.strongRecOn with
  | ind count ih =>
    rw [Distribution.sumOfCopies]
    split
    next hzero =>
      subst hzero
      exact resultOf_scalar _ Face.together_nil
    next =>
      split
      next hcount =>
        subst hcount
        exact resultOf_one rfl fun f _ => Face.together_singleton f
      next =>
        have hhalf := ih (count / 2) (by omega) (h.mono (by omega))
        have hdoubled := hhalf.add hhalf (h.mono (by omega))
        simp only
        split
        next hodd =>
          have hcount : count / 2 + count / 2 + 1 = count := by omega
          have hall := hdoubled.add hone (h.mono hcount.le)
          rwa [hcount] at hall
        next heven =>
          have hcount : count / 2 + count / 2 = count := by omega
          rwa [hcount] at hdoubled

theorem resultOf_sumOfCopies {count : Nat} (h : OneEnded count die.table) :
    ResultOf (sumOfCopies count die) die.table count Face.together := h.heldInParts.resultOf_sumOfCopies

/-- One by one. -/
theorem ResultOf.foldl_add {d : Distribution Rat} {m n : Nat} (hd : ResultOf d die.table m Face.together)
    (h : HeldInParts (m + n) die.table) :
    ResultOf ((List.replicate n die).foldl Distribution.add d) die.table (m + n) Face.together := by
  refine hd.foldl_pairUp (g := Value.add) n fun l fs f _ hl hfs hf => ?_
  have hsingle : die.table.Shows 1 [f] := shows_succ.mpr ⟨f, [], hf, shows_nil, rfl⟩
  rw [← h l 1 fs [f] (by omega) hfs hsingle, Face.together_singleton]

theorem resultOf_foldl_add {count : Nat} (h : OneEnded count die.table) :
    ResultOf ((List.replicate count die).foldl Distribution.add (scalar 0)) die.table count Face.together := by
  rw [← Nat.zero_add count] at h
  have hfold := (resultOf_scalar die.table Face.together_nil).foldl_add h.heldInParts
  rwa [Nat.zero_add] at hfold

theorem table_sumOfCopies_succ {n : Nat} (h : OneEnded (n + 1) die.table) :
    (sumOfCopies (n + 1) die).table = ((List.replicate n die).foldl Distribution.add die).table := by
  have hone : ResultOf die die.table 1 Face.together := resultOf_one rfl fun f _ => Face.together_singleton f
  have hfold := hone.foldl_add (n := n) (Nat.add_comm n 1 ▸ h.heldInParts)
  rw [Nat.add_comm] at hfold
  exact (resultOf_sumOfCopies h).table_eq hfold

theorem note_foldl_pairUp {W : Type} [Weight W] (g : Int64 → Int64 → Int64) {d : Distribution W}
    (hd : d.note = .unmarked) (dice : List (Distribution W)) : (dice.foldl (pairUp g) d).note = .unmarked := by
  induction dice generalizing d with
  | nil => exact hd
  | cons die dice ih => exact ih rfl

end Copies

/-- Copies of a die summed by doubling are copies added one by one, as long as their sums reach one end of the
range at most: the same faces with the same weights, and no note. Each way the copies can come out counts with the
product of its weights, for its leftmost label or, without one, for its sum held in the range. -/
theorem sumOfCopies_eq_foldl_add {count : Nat} {die : Distribution Rat} (h : OneEnded count die.table) :
    sumOfCopies count die = (List.replicate count die).foldl Distribution.add (scalar 0) ∧
    (sumOfCopies count die).note = .unmarked ∧
    (∀ f, f ∈ (sumOfCopies count die).table.faces ↔ ∃ r : Fin count → Fin die.table.entries.length,
      Face.together (die.table.picked r) = f) ∧
    ∀ f, (sumOfCopies count die).weight f = ∑ r : Fin count → Fin die.table.entries.length,
      if Face.together (die.table.picked r) = f then ∏ i, (die.table.entries.get (r i)).2 else 0 := by
  have hcopies := resultOf_sumOfCopies h
  have htable := hcopies.table_eq (resultOf_foldl_add h)
  have hnote := note_sumOfCopies count die
  refine ⟨?_, hnote, hcopies.mem_faces_iff, hcopies.weight_eq_sum⟩
  refine congrArg₂ Distribution.mk htable (hnote.trans ?_)
  exact (note_foldl_pairUp Value.add rfl _).symm

/-- Three copies of a die with a label and a number at the end of the range: the label wins in seven of eight, and
no sum passes the end. -/
theorem sumOfCopies_eq_foldl_add_held : ∃ die : Distribution Rat, OneEnded 3 die.table ∧
    sumOfCopies 3 die = (List.replicate 3 die).foldl Distribution.add (scalar 0) ∧
    (sumOfCopies 3 die).weight (.label "miss") = 7 ∧ (sumOfCopies 3 die).weight (.number Int64.maxValue) = 1 := by
  let die : Distribution Rat := ofFaces [(.label "miss", 1), (.number Int64.maxValue, 1)]
  have hfaces : die.table.faces = [.number Int64.maxValue, .label "miss"] := by decide +kernel
  have hside : OneEnded 3 die.table := by
    refine .inr (.inl fun v hv => ?_)
    rw [hfaces] at hv
    obtain rfl : v = Int64.maxValue := by simpa using hv
    decide
  obtain ⟨hfold, -, -, -⟩ := sumOfCopies_eq_foldl_add hside
  refine ⟨die, hside, hfold, ?_, ?_⟩
  · rw [hfold]
    decide +kernel
  · rw [hfold]
    decide +kernel

end Distribution
end DiceLaw
