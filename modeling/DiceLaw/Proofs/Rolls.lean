import Mathlib.Algebra.BigOperators.Fin
import DiceLaw.Proofs.Listing

/-! Several independent rolls of one table. What is made of them is known from how it reads off what they show:
every way they can come out counts with the product of its weights. -/
namespace DiceLaw

namespace Table

/-! ### Ways to come out -/

theorem integral_congr_faces {t : Table Rat} {φ ψ : Face → Rat} (h : ∀ f ∈ t.faces, φ f = ψ f) :
    t.integral φ = t.integral ψ := by
  rw [integral, integral]
  apply congrArg List.sum
  apply List.map_congr_left
  intro e he
  rw [h e.1 (List.mem_map_of_mem he)]

/-- The sum of a function of what several rolls show, over all ways they can come out. -/
def rollsIntegral (t : Table Rat) : Nat → (List Face → Rat) → Rat
  | 0, φ => φ []
  | n + 1, φ => t.integral fun f => t.rollsIntegral n fun fs => φ (f :: fs)

/-- So many faces of a table, in the order rolled. -/
def Shows (t : Table Rat) (n : Nat) (fs : List Face) : Prop := fs.length = n ∧ ∀ f ∈ fs, f ∈ t.faces

variable {t : Table Rat}

theorem shows_nil : t.Shows 0 [] := ⟨rfl, by simp⟩

theorem Shows.eq_nil {fs : List Face} (h : t.Shows 0 fs) : fs = [] := List.length_eq_zero_iff.mp h.1

theorem shows_succ {n : Nat} {fs : List Face} :
    t.Shows (n + 1) fs ↔ ∃ f gs, f ∈ t.faces ∧ t.Shows n gs ∧ fs = f :: gs := by
  constructor
  · rintro ⟨hlength, hfaces⟩
    obtain ⟨f, gs, rfl⟩ := List.exists_cons_of_length_eq_add_one hlength
    exact ⟨f, gs, hfaces f (by simp), ⟨by simpa using hlength, fun g hg => hfaces g (by simp [hg])⟩, rfl⟩
  · rintro ⟨f, gs, hf, ⟨hlength, hfaces⟩, rfl⟩
    exact ⟨by simp [hlength], by simpa using ⟨hf, hfaces⟩⟩

theorem Shows.append {m n : Nat} {fs gs : List Face} (h : t.Shows m fs) (k : t.Shows n gs) :
    t.Shows (m + n) (fs ++ gs) := by
  refine ⟨by rw [List.length_append, h.1, k.1], fun f hf => ?_⟩
  exact (List.mem_append.mp hf).elim (h.2 f) (k.2 f)

theorem Shows.exists_append {m n : Nat} {fs : List Face} (h : t.Shows (m + n) fs) :
    ∃ gs hs, t.Shows m gs ∧ t.Shows n hs ∧ fs = gs ++ hs := by
  refine ⟨fs.take m, fs.drop m, ⟨?_, fun f hf => h.2 f (List.mem_of_mem_take hf)⟩,
    ⟨?_, fun f hf => h.2 f (List.mem_of_mem_drop hf)⟩, (List.take_append_drop m fs).symm⟩
  · rw [List.length_take, h.1]
    omega
  · rw [List.length_drop, h.1]
    omega

theorem rollsIntegral_congr {n : Nat} {φ ψ : List Face → Rat} (h : ∀ fs, t.Shows n fs → φ fs = ψ fs) :
    t.rollsIntegral n φ = t.rollsIntegral n ψ := by
  induction n generalizing φ ψ with
  | zero => exact h [] shows_nil
  | succ n ih =>
    refine integral_congr_faces fun f hf => ih fun fs hfs => ?_
    exact h _ (shows_succ.mpr ⟨f, fs, hf, hfs, rfl⟩)

theorem rollsIntegral_add (m n : Nat) (φ : List Face → Rat) :
    t.rollsIntegral (m + n) φ = t.rollsIntegral m fun fs => t.rollsIntegral n fun gs => φ (fs ++ gs) := by
  induction m generalizing φ with
  | zero => rw [Nat.zero_add]; rfl
  | succ m ih =>
    rw [Nat.succ_add, rollsIntegral, rollsIntegral]
    simp only [ih, List.cons_append]

theorem rollsIntegral_one (φ : List Face → Rat) : t.rollsIntegral 1 φ = t.integral fun f => φ [f] := rfl

/-- What rolls show when each comes out at the entry picked for it. -/
def picked (t : Table Rat) {n : Nat} (r : Fin n → Fin t.entries.length) : List Face :=
  List.ofFn fun i => (t.entries.get (r i)).1

theorem rollsIntegral_eq_sum (n : Nat) (φ : List Face → Rat) :
    t.rollsIntegral n φ =
      ∑ r : Fin n → Fin t.entries.length, φ (t.picked r) * ∏ i, (t.entries.get (r i)).2 := by
  induction n generalizing φ with
  | zero => simp [rollsIntegral, picked]
  | succ n ih =>
    have hsplit := (Fin.consEquiv fun _ : Fin (n + 1) => Fin t.entries.length).sum_comp
      fun r => φ (t.picked r) * ∏ i, (t.entries.get (r i)).2
    rw [rollsIntegral, integral, ← hsplit, Fintype.sum_prod_type, ← Fin.sum_univ_fun_getElem]
    refine Finset.sum_congr rfl fun i _ => ?_
    rw [ih, Finset.sum_mul]
    refine Finset.sum_congr rfl fun r _ => ?_
    simp only [picked, Fin.consEquiv, Equiv.coe_fn_mk, List.ofFn_succ, Fin.cons_zero, Fin.cons_succ,
      Fin.prod_univ_succ]
    rw [mul_assoc, mul_comm (∏ i, _)]
    rfl

theorem shows_iff_picked {n : Nat} {fs : List Face} :
    t.Shows n fs ↔ ∃ r : Fin n → Fin t.entries.length, t.picked r = fs := by
  constructor
  · rintro ⟨rfl, hfaces⟩
    have hpick (i : Fin fs.length) : ∃ j : Fin t.entries.length, (t.entries.get j).1 = fs.get i := by
      obtain ⟨e, he, hface⟩ := List.mem_map.mp (hfaces (fs.get i) (List.get_mem ..))
      obtain ⟨j, rfl⟩ := List.get_of_mem he
      exact ⟨j, hface⟩
    choose r hr using hpick
    exact ⟨r, by rw [picked, funext hr, List.ofFn_get]⟩
  · rintro ⟨r, rfl⟩
    refine ⟨by simp [picked], fun f hf => ?_⟩
    obtain ⟨i, rfl⟩ := (List.mem_ofFn' ..).mp hf
    exact List.mem_map_of_mem (List.get_mem ..)

end Table

namespace Distribution
open Table

/-! ### Outcomes -/

/-- Rolling so many times and reading an outcome off what is shown gives this distribution. -/
structure ResultOf (d : Distribution Rat) (t : Table Rat) (n : Nat) (outcome : List Face → Face) : Prop where
  integral : ∀ φ : Face → Rat, d.table.integral φ = t.rollsIntegral n fun fs => φ (outcome fs)
  faces : ∀ f, f ∈ d.table.faces ↔ ∃ fs, t.Shows n fs ∧ outcome fs = f

theorem resultOf_scalar (t : Table Rat) {v : Int64} {outcome : List Face → Face} (h : outcome [] = .number v) :
    ResultOf (scalar v) t 0 outcome where
  integral := by
    intro φ
    rw [scalar, ofWeights, ofFaces, ofTable, integral_ofList, rollsIntegral, h]
    simp
  faces := by
    intro f
    rw [scalar, ofWeights, ofFaces, ofTable, mem_faces_ofList]
    constructor
    · rintro ⟨e, he, rfl⟩
      obtain rfl := List.mem_singleton.mp he
      exact ⟨[], shows_nil, h⟩
    · rintro ⟨fs, hfs, rfl⟩
      rw [hfs.eq_nil, h]
      exact ⟨_, List.mem_singleton_self _, rfl⟩

/-- A single roll is read as it is shown. -/
theorem resultOf_one {d : Distribution Rat} {t : Table Rat} (htable : d.table = t) {outcome : List Face → Face}
    (h : ∀ f ∈ t.faces, outcome [f] = f) : ResultOf d t 1 outcome where
  integral := by
    intro φ
    rw [rollsIntegral_one, htable]
    exact integral_congr_faces fun f hf => by rw [h f hf]
  faces := by
    intro f
    rw [htable]
    constructor
    · intro hf
      exact ⟨[f], shows_succ.mpr ⟨f, [], hf, shows_nil, rfl⟩, h f hf⟩
    · rintro ⟨fs, hfs, rfl⟩
      obtain ⟨g, gs, hg, hgs, rfl⟩ := shows_succ.mp hfs
      rw [hgs.eq_nil, h g hg]
      exact hg

namespace ResultOf
variable {d e : Distribution Rat} {t : Table Rat} {m n : Nat} {out out' : List Face → Face}

theorem congr (h : ResultOf d t n out) (hout : ∀ fs, t.Shows n fs → out fs = out' fs) : ResultOf d t n out' where
  integral := by
    intro φ
    rw [h.integral]
    exact rollsIntegral_congr fun fs hfs => by rw [hout fs hfs]
  faces := by
    intro f
    rw [h.faces]
    exact exists_congr fun fs => and_congr_right fun hfs => by rw [hout fs hfs]

/-- Two results joined, where joining outcomes reads off all rolls together. -/
theorem pairUp {g : Int64 → Int64 → Int64} (h : ResultOf d t m out) (k : ResultOf e t n out')
    {whole : List Face → Face}
    (hjoin : ∀ fs gs, t.Shows m fs → t.Shows n gs → pairFace g (out fs) (out' gs) = whole (fs ++ gs)) :
    ResultOf (pairUp g d e) t (m + n) whole where
  integral := by
    intro φ
    rw [integral_pairUp, h.integral, rollsIntegral_add]
    refine rollsIntegral_congr fun fs hfs => ?_
    rw [k.integral]
    exact rollsIntegral_congr fun gs hgs => by rw [hjoin fs gs hfs hgs]
  faces := by
    intro f
    rw [mem_faces_pairUp]
    constructor
    · rintro ⟨a, ha, b, hb, rfl⟩
      obtain ⟨fs, hfs, rfl⟩ := (h.faces a).mp ha
      obtain ⟨gs, hgs, rfl⟩ := (k.faces b).mp hb
      exact ⟨fs ++ gs, hfs.append hgs, (hjoin fs gs hfs hgs).symm⟩
    · rintro ⟨fs, hfs, rfl⟩
      obtain ⟨gs, hs, hgs, hhs, rfl⟩ := hfs.exists_append
      exact ⟨_, (h.faces _).mpr ⟨gs, hgs, rfl⟩, _, (k.faces _).mpr ⟨hs, hhs, rfl⟩, hjoin gs hs hgs hhs⟩

/-- One more roll joined at a time. -/
theorem foldl_pairUp {g : Int64 → Int64 → Int64} {die : Distribution Rat} (h : ResultOf d die.table m out) (n : Nat)
    (hjoin : ∀ l fs f, m ≤ l → l < m + n → die.table.Shows l fs → f ∈ die.table.faces →
      pairFace g (out fs) f = out (fs ++ [f])) :
    ResultOf ((List.replicate n die).foldl (Distribution.pairUp g) d) die.table (m + n) out := by
  induction n with
  | zero => exact h
  | succ n ih =>
    rw [List.replicate_succ', List.foldl_append, ← Nat.add_assoc]
    have hlast : ResultOf die die.table 1 fun fs => fs.head?.getD (.number 0) := resultOf_one rfl fun f _ => rfl
    refine (ih fun l fs f hm hl => hjoin l fs f hm (by omega)).pairUp hlast fun fs gs hfs hgs => ?_
    obtain ⟨f, hs, hf, hhs, rfl⟩ := shows_succ.mp hgs
    rw [hhs.eq_nil]
    exact hjoin _ fs f (by omega) (by omega) hfs hf

/-- What is read off the rolls decides the table. -/
theorem table_eq (h : ResultOf d t n out) (k : ResultOf e t n out) : d.table = e.table := by
  refine Table.ext_faces (fun f => ?_) (fun f => ?_)
  · rw [h.faces, k.faces]
  · rw [Table.weight_eq_integral, Table.weight_eq_integral, h.integral, k.integral]

theorem mem_faces_iff (h : ResultOf d t n out) (f : Face) :
    f ∈ d.table.faces ↔ ∃ r : Fin n → Fin t.entries.length, out (t.picked r) = f := by
  rw [h.faces]
  constructor
  · rintro ⟨fs, hfs, rfl⟩
    obtain ⟨r, rfl⟩ := shows_iff_picked.mp hfs
    exact ⟨r, rfl⟩
  · rintro ⟨r, rfl⟩
    exact ⟨_, shows_iff_picked.mpr ⟨r, rfl⟩, rfl⟩

/-- A face weighs what all ways to come out at it weigh. -/
theorem weight_eq_sum (h : ResultOf d t n out) (f : Face) :
    d.weight f = ∑ r : Fin n → Fin t.entries.length,
      if out (t.picked r) = f then ∏ i, (t.entries.get (r i)).2 else 0 := by
  rw [Distribution.weight_eq_integral, h.integral, rollsIntegral_eq_sum]
  refine Finset.sum_congr rfl fun r _ => ?_
  rw [ite_mul, one_mul, zero_mul]

end ResultOf
end Distribution
end DiceLaw
