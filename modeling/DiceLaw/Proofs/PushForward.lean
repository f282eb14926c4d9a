import Mathlib.Algebra.BigOperators.Field
import DiceLaw.Proofs.Mass
import DiceLaw.Proofs.Quotients

/-! Two independent rolls joined by a function of their numbers, pair by pair. However many pairs meet on one face, it
weighs what they weigh together, and its chance is theirs; labels stand for themselves. -/
namespace DiceLaw

namespace Distribution
open Table

/-! ### Pairs -/

/-- The pairs of listed faces that are shown as one face. -/
def pairsShown (g : Int64 → Int64 → Int64) (d e : Distribution Rat) (f : Face) : Finset (Face × Face) :=
  (d.table.faces.toFinset ×ˢ e.table.faces.toFinset).filter fun p => pairFace g p.1 p.2 = f

theorem pairsShown_nonempty {g : Int64 → Int64 → Int64} {d e : Distribution Rat} {f : Face} :
    (pairsShown g d e f).Nonempty ↔ ∃ a ∈ d.table.faces, ∃ b ∈ e.table.faces, pairFace g a b = f := by
  simp only [pairsShown, Finset.Nonempty, Finset.mem_filter, Finset.mem_product, List.mem_toFinset, Prod.exists]
  constructor
  · rintro ⟨a, b, ⟨ha, hb⟩, hf⟩
    exact ⟨a, ha, b, hb, hf⟩
  · rintro ⟨a, ha, b, hb, hf⟩
    exact ⟨a, b, ⟨ha, hb⟩, hf⟩

/-- Functions that agree on the listed numbers show the same pairs. -/
theorem pairsShown_congr {g g' : Int64 → Int64 → Int64} {d e : Distribution Rat}
    (h : ∀ v w, .number v ∈ d.table.faces → .number w ∈ e.table.faces → g v w = g' v w) (f : Face) :
    pairsShown g d e f = pairsShown g' d e f := by
  refine Finset.filter_congr fun p hp => ?_
  obtain ⟨ha, hb⟩ := Finset.mem_product.mp hp
  rw [List.mem_toFinset] at ha hb
  obtain ⟨a, b⟩ := p
  cases a with
  | label name => rfl
  | number v =>
    cases b with
    | label name => rfl
    | number w => rw [pairFace, pairFace, h v w ha hb]

/-- The result shows every pair, and the numbers `listed` besides; each face weighs what the pairs that are shown as it
weigh together, as if two rolls were made that do not know of each other. -/
structure PushForward (g : Int64 → Int64 → Int64) (listed : List Int64) (d e r : Distribution Rat) : Prop where
  faces : ∀ f, f ∈ r.table.faces ↔ f ∈ listed.map .number ∨ (pairsShown g d e f).Nonempty
  weight : ∀ f, r.weight f = ∑ p ∈ pairsShown g d e f, d.weight p.1 * e.weight p.2
  total : r.total = d.total * e.total
  chance : ∀ f, r.chance f = ∑ p ∈ pairsShown g d e f, d.chance p.1 * e.chance p.2
  note : r.note = .unmarked

namespace PushForward
variable {g g' : Int64 → Int64 → Int64} {listed : List Int64} {d e r : Distribution Rat}

/-- Weights, total and chances are sums over the pairs of entries. -/
theorem of_integral (hfaces : ∀ f, f ∈ r.table.faces ↔ f ∈ listed.map .number ∨ (pairsShown g d e f).Nonempty)
    (hintegral : ∀ φ : Face → Rat, r.table.integral φ =
      d.table.integral fun a => e.table.integral fun b => φ (pairFace g a b))
    (hnote : r.note = .unmarked) : PushForward g listed d e r := by
  have hweight (f : Face) : r.weight f = ∑ p ∈ pairsShown g d e f, d.weight p.1 * e.weight p.2 := by
    rw [weight_eq_integral, hintegral, d.table.integral_eq_sum _ (s := d.table.faces.toFinset) (by simp), pairsShown,
      Finset.sum_filter, Finset.sum_product]
    refine Finset.sum_congr rfl fun a _ => ?_
    rw [e.table.integral_eq_sum _ (s := e.table.faces.toFinset) (by simp), Finset.sum_mul]
    refine Finset.sum_congr rfl fun b _ => ?_
    rw [ite_mul, one_mul, zero_mul, ite_mul, zero_mul, mul_comm]
    rfl
  have htotal : r.total = d.total * e.total := by
    rw [total_eq_integral, hintegral, ← total_eq_integral, integral_const, mul_comm]
    rfl
  refine ⟨hfaces, hweight, htotal, fun f => ?_, hnote⟩
  rw [chance_eq, hweight, htotal, Finset.sum_div]
  refine Finset.sum_congr rfl fun p _ => ?_
  rw [chance_eq, chance_eq, mul_div_mul_comm]

theorem congr (h : PushForward g listed d e r)
    (hg : ∀ v w, .number v ∈ d.table.faces → .number w ∈ e.table.faces → g v w = g' v w) :
    PushForward g' listed d e r where
  faces := fun f => pairsShown_congr hg f ▸ h.faces f
  weight := fun f => pairsShown_congr hg f ▸ h.weight f
  total := h.total
  chance := fun f => pairsShown_congr hg f ▸ h.chance f
  note := h.note

end PushForward

/-! ### Operations -/

theorem pushForward_pairUp (g : Int64 → Int64 → Int64) (d e : Distribution Rat) :
    PushForward g [] d e (pairUp g d e) :=
  .of_integral (fun f => by rw [mem_faces_pairUp, pairsShown_nonempty]; simp) (fun φ => integral_pairUp g φ d e) rfl

theorem pushForward_pairUpSeeded (g : Int64 → Int64 → Int64) (d e : Distribution Rat) :
    PushForward g [0, 1] d e (pairUpSeeded g d e) :=
  .of_integral (fun f => by rw [mem_faces_pairUpSeeded, pairsShown_nonempty]; simp)
    (fun φ => integral_pairUpSeeded g φ d e) rfl

/-- A function that may be undefined is defined on all listed numbers where a result comes out. -/
theorem pushForward_of_pairUp? {g : Int64 → Int64 → Option Int64} {k : Int64 → Int64 → Int64}
    {d e r : Distribution Rat} (h : pairUp? g d e = some r) (hk : ∀ v w u, g v w = some u → k v w = u) :
    PushForward k [] d e r := by
  rw [eq_pairUp_of_pairUp? h]
  refine (pushForward_pairUp _ d e).congr fun v w hv hw => ?_
  obtain ⟨u, hu⟩ := Option.isSome_iff_exists.mp (isSome_pairUp?_iff.mp (Option.isSome_of_eq_some h) v w hv hw)
  rw [hu, Option.getD_some, hk v w u hu]

/-- The operations that join two rolls number by number are the push-forward of the two along their functions. -/
theorem operations_push_forward (d e : Distribution Rat) :
    PushForward (fun v w => .ofIntClamp (v.toInt + w.toInt)) [] d e (d.add e) ∧
    PushForward (fun v w => .ofIntClamp (v.toInt - w.toInt)) [] d e (d.subtract e) ∧
    PushForward (fun v w => if v = 0 then 0 else .ofIntClamp (v.toInt + w.toInt)) [] d e (d.addNonZero e) ∧
    PushForward (fun v w => if v = 0 then 0 else w) [] d e (d.multiply e) ∧
    PushForward (fun v w => if v = w then 1 else 0) [] d e (d.equals e) ∧
    PushForward (fun v w => if v ≤ w then w else v) [] d e (d.max e) ∧
    PushForward (fun v w => if v ≤ w then v else w) [] d e (d.min e) ∧
    PushForward (fun v w => if v ≠ 0 ∧ w ≠ 0 then 1 else 0) [] d e (d.both e) ∧
    PushForward (fun v w => if v < w then 1 else 0) [0, 1] d e (d.difficulty e) ∧
    PushForward (fun v w => if w ≤ v then v else 0) [0, 1] d e (d.armor e) ∧
    (∀ r, d.divideFloor e = .ok r → PushForward (fun v w => .ofInt ⌊(v.toInt : Rat) / w.toInt⌋) [] d e r) ∧
    (∀ r, d.divideCeil e = .ok r → PushForward (fun v w => .ofInt ⌈(v.toInt : Rat) / w.toInt⌉) [] d e r) := by
  refine ⟨pushForward_pairUp .., pushForward_pairUp .., ?addNonZero, pushForward_pairUp .., ?equals,
    pushForward_pairUp .., pushForward_pairUp .., ?both, ?difficulty, ?armor, ?divideFloor, ?divideCeil⟩
  case addNonZero =>
    refine (pushForward_pairUp _ d e).congr fun v w _ _ => ?_
    split
    next hv => exact hv
    next => rfl
  case equals => exact (pushForward_pairUp _ d e).congr fun v w _ _ => by simp [Value.ofBool]
  case both => exact (pushForward_pairUp _ d e).congr fun v w _ _ => by simp [Value.ofBool]
  case difficulty => exact (pushForward_pairUpSeeded _ d e).congr fun v w _ _ => by simp [Value.ofBool]
  case armor => exact pushForward_pairUpSeeded ..
  case divideFloor =>
    exact fun r h => pushForward_of_pairUp? (divideFloor_eq_ok.mp h) fun _ _ _ =>
      Value.isQuotient_floor.ofInt_eq Int.floor_intCast
  case divideCeil =>
    exact fun r h => pushForward_of_pairUp? (divideCeil_eq_ok.mp h) fun _ _ _ =>
      Value.isQuotient_ceil.ofInt_eq Int.ceil_intCast

/-- Minus seven halves goes down to minus four and up to minus three; a label is not divided. -/
theorem operations_push_forward_quotients :
    ∃ d e : Distribution Rat, ∃ down up, d.divideFloor e = .ok down ∧ d.divideCeil e = .ok up ∧
      down.weight (.number (-4)) = 6 ∧ up.weight (.number (-3)) = 6 ∧ down.weight (.number 1) = 15 ∧
      down.chance (.label "fumble") = 1 / 4 ∧ up.total = 28 := by
  let d : Distribution Rat := ofFaces [(.label "fumble", 1), (.number (-7), 3), (.number 7, 0)]
  let e : Distribution Rat := ofFaces [(.number (-7), 5), (.number 2, 2), (.number (-3), 0)]
  have hlaw := operations_push_forward d e
  obtain ⟨down, hdown⟩ : ∃ r, d.divideFloor e = .ok r := ⟨_, rfl⟩
  obtain ⟨up, hup⟩ : ∃ r, d.divideCeil e = .ok r := ⟨_, rfl⟩
  have hfloor := hlaw.2.2.2.2.2.2.2.2.2.2.1 down hdown
  have hceil := hlaw.2.2.2.2.2.2.2.2.2.2.2 up hup
  refine ⟨d, e, down, up, hdown, hup, ?_, ?_, ?_, ?_, ?_⟩
  · exact (hfloor.weight _).trans (by decide +kernel)
  · exact (hceil.weight _).trans (by decide +kernel)
  · exact (hfloor.weight _).trans (by decide +kernel)
  · exact (hfloor.chance _).trans (by decide +kernel)
  · exact hceil.total.trans (by decide +kernel)

end Distribution
end DiceLaw
