import DiceLaw.Proofs.Listing
import DiceLaw.Proofs.Notation.Shares

/-! Carving takes numbers from the two ends of what stands before an operator: the largest for a crit, the smallest of
those that remain for a save. -/
namespace DiceLaw

namespace Distribution
open Table
variable {W : Type}

/-! ### Numbers left out -/

/-- Labels stay, and so does the note. -/
def withoutNumbers (vs : List Int64) (d : Distribution W) : Distribution W :=
  { d with table := d.table.filter fun f => f ∉ vs.map .number }

@[simp] theorem withoutNumbers_nil (d : Distribution W) : d.withoutNumbers [] = d := by
  rw [withoutNumbers]
  congr
  exact ext_entries (List.filter_eq_self.mpr fun e _ => by simp)

theorem withoutNumbers_congr {vs us : List Int64} (h : ∀ v, v ∈ vs ↔ v ∈ us) (d : Distribution W) :
    d.withoutNumbers vs = d.withoutNumbers us := by
  simp only [withoutNumbers, List.mem_map, h]

theorem withoutNumbers_withoutNumbers (vs us : List Int64) (d : Distribution W) :
    (d.withoutNumbers vs).withoutNumbers us = d.withoutNumbers (vs ++ us) := by
  rw [withoutNumbers, withoutNumbers, withoutNumbers]
  congr 1
  refine ext_entries ?_
  simp only [filter, List.filter_filter, List.map_append, List.mem_append, not_or, Bool.decide_and, Bool.and_comm]

theorem deleteFace_eq_withoutNumbers (v : Int64) (d : Distribution W) :
    d.deleteFace (.number v) = d.withoutNumbers [v] := by
  rw [deleteFace, withoutNumbers, erase]
  simp

theorem numbers_withoutNumbers (vs : List Int64) (d : Distribution W) :
    (d.withoutNumbers vs).numbers = d.numbers.filter fun e => e.1 ∉ vs := by
  rw [withoutNumbers, numbers, numbers_filter]
  simp [numbers]

/-- Since the numbers ascend, those at the end are not listed before it. -/
theorem numbers_withoutNumbers_of_append {init top : List (Int64 × W)} {d : Distribution W}
    (h : d.numbers = init ++ top) : (d.withoutNumbers (top.map (·.1))).numbers = init := by
  have hascending := d.table.numbers_ascending
  rw [show d.table.numbers = init ++ top from h] at hascending
  obtain ⟨-, -, hbelow⟩ := List.pairwise_append.mp hascending
  have hinit : init.filter (fun e => e.1 ∉ top.map (·.1)) = init := by
    refine List.filter_eq_self.mpr fun e he => decide_eq_true fun hmem => ?_
    obtain ⟨a, ha, hae⟩ := List.mem_map.mp hmem
    exact Int64.lt_irrefl (hae ▸ hbelow e he a ha)
  have htop : top.filter (fun e => e.1 ∉ top.map (·.1)) = [] := by
    refine List.filter_eq_nil_iff.mpr fun e he => ?_
    simpa using ⟨e.2, he⟩
  rw [numbers_withoutNumbers, h, List.filter_append, hinit, htop, List.append_nil]

theorem nodup_numbers (d : Distribution W) : (d.numbers.map (·.1)).Nodup := by
  refine List.pairwise_map.mpr (d.table.numbers_ascending.imp fun h heq => ?_)
  exact Int64.lt_irrefl (heq ▸ h)

theorem exists_append_of_le {count : Nat} {d : Distribution W} (h : count ≤ d.numbers.length) :
    ∃ init top, d.numbers = init ++ top ∧ top.length = count := by
  refine ⟨d.numbers.take (d.numbers.length - count), d.numbers.drop (d.numbers.length - count), ?_, ?_⟩
  · exact (List.take_append_drop ..).symm
  · rw [List.length_drop]
    omega

theorem exists_append_append_of_le {less more : Nat} {d : Distribution W} (h : less + more ≤ d.numbers.length) :
    ∃ low mid top, d.numbers = low ++ mid ++ top ∧ low.length = less ∧ top.length = more := by
  obtain ⟨init, top, hinit, htop⟩ := exists_append_of_le (le_trans (Nat.le_add_left ..) h)
  refine ⟨init.take less, init.drop less, top, ?_, ?_, htop⟩
  · rw [List.take_append_drop, hinit]
  · rw [hinit, List.length_append, htop] at h
    rw [List.length_take]
    omega

/-! ### The largest numbers -/

section Weighed
variable [Weight W]

theorem weight_of_mem_numbers {d : Distribution W} {e : Int64 × W} (he : e ∈ d.numbers) :
    d.weight (.number e.1) = e.2 := by
  rw [weight, Table.weight, find?_of_mem (mem_numbers_iff.mp he), Option.getD_some]

theorem mem_faces_ofWeights (entries : List (Int64 × W)) (f : Face) :
    f ∈ (ofWeights entries).table.faces ↔ f ∈ (entries.map (·.1)).map .number := by
  rw [ofWeights, ofFaces, ofTable, mem_faces_ofList]
  simp only [List.mem_map, exists_exists_and_eq_and]

/-- The `count` largest numbers with their weights, taken off one by one, and what remains. -/
def takeLargest : Nat → Distribution W → Except Fault (List (Int64 × W) × Distribution W)
  | 0, d => .ok ([], d)
  | count + 1, d => do
    let top ← d.maxFace
    let (taken, rest) ← takeLargest count (d.deleteFace (.number top))
    return ((top, d.weight (.number top)) :: taken, rest)

/-- One step takes the last of the numbers and leaves those before it. -/
theorem takeLargest_succ {init : List (Int64 × W)} {e : Int64 × W} {d : Distribution W} (h : d.numbers = init ++ [e])
    (count : Nat) :
    takeLargest (count + 1) d = (takeLargest count (d.withoutNumbers [e.1])).map fun p => (e :: p.1, p.2) := by
  have hmax : d.maxFace = .ok e.1 := by simp [maxFace, h]
  have hweight : d.weight (.number e.1) = e.2 := weight_of_mem_numbers (by simp [h])
  rw [takeLargest, hmax]
  change (takeLargest count (d.deleteFace (.number e.1)) >>= _) = _
  rw [hweight, deleteFace_eq_withoutNumbers]
  cases takeLargest count (d.withoutNumbers [e.1]) <;> rfl

theorem takeLargest_of_append {init top : List (Int64 × W)} {d : Distribution W} (h : d.numbers = init ++ top) :
    takeLargest top.length d = .ok (top.reverse, d.withoutNumbers (top.map (·.1))) := by
  induction top using List.reverseRecOn generalizing d with
  | nil => simp [takeLargest]
  | append_singleton top e ih =>
    rw [← List.append_assoc] at h
    have hrest : (d.withoutNumbers [e.1]).numbers = init ++ top := numbers_withoutNumbers_of_append h
    have hsame (v : Int64) : v ∈ [e.1] ++ top.map (·.1) ↔ v ∈ (top ++ [e]).map (·.1) := by simp [or_comm]
    rw [List.length_append, List.length_singleton, takeLargest_succ h, ih hrest, withoutNumbers_withoutNumbers,
      withoutNumbers_congr hsame]
    simp [Except.map]

/-- There is no more to take than there are numbers. -/
theorem takeLargest_eq_error {count : Nat} {d : Distribution W} (h : d.numbers.length < count) :
    takeLargest count d = .error .noNumericFaces := by
  induction count generalizing d with
  | zero => omega
  | succ count ih =>
    rcases List.eq_nil_or_concat' d.numbers with hnil | ⟨init, e, he⟩
    · rw [takeLargest, maxFace, hnil]
      rfl
    · have hrest : (d.withoutNumbers [e.1]).numbers = init := numbers_withoutNumbers_of_append he
      rw [he, List.length_append, List.length_singleton] at h
      rw [takeLargest_succ he, ih (by rw [hrest]; omega)]
      rfl

end Weighed
end Distribution

namespace Notation
open DiceLaw.Distribution Table
variable {W : Type} [Weight W]

/-! ### Carving one end -/

theorem carveTop_of_append {init top : List (Int64 × W)} {d : Distribution W} (h : d.numbers = init ++ top) :
    carveTop top.length d = .ok (ofWeights top, d.withoutNumbers (top.map (·.1))) := by
  have hdrop : d.numbers.drop (d.numbers.length - top.length) = top := by simp [h]
  have hkept : (fun f => !(ofWeights top).table.contains f) = fun f => decide (f ∉ (top.map (·.1)).map .number) := by
    funext f
    rw [decide_not, Bool.not_inj_iff, Bool.eq_iff_iff, contains_iff, mem_faces_ofWeights, decide_eq_true_iff]
  rw [carveTop, if_neg (by simp [h]), hdrop]
  simp only [without_eq, withoutNumbers, hkept]

/-- Carving the top off is taking the largest numbers one by one. -/
theorem carveTop_eq_takeLargest (count : Nat) (d : Distribution W) :
    carveTop count d = (takeLargest count d).map fun p => (ofWeights p.1, p.2) := by
  by_cases hfew : d.numbers.length < count
  · rw [carveTop, if_pos hfew, takeLargest_eq_error hfew]
    rfl
  · obtain ⟨init, top, h, rfl⟩ := exists_append_of_le (not_lt.mp hfew)
    have hnodup : ((top.map fun e => (Face.number e.1, e.2)).map (·.1)).Nodup := by
      have hall := d.nodup_numbers
      rw [h, List.map_append] at hall
      have htop := hall.of_append_right.map (f := Face.number) fun _ _ => Face.number.inj
      rwa [List.map_map] at htop ⊢
    have hreverse : (ofWeights top : Distribution W) = ofWeights top.reverse := by
      rw [ofWeights, ofWeights, ofFaces, ofFaces,
        ofList_perm_of_nodup hnodup ((List.reverse_perm top).symm.map fun e => (Face.number e.1, e.2))]
    rw [carveTop_of_append h, takeLargest_of_append h, hreverse]
    rfl

/-- The smallest number comes off with its own weight, whatever it is shown as. -/
theorem carveBottom_of_cons {e : Int64 × W} {rest : List (Int64 × W)} {d : Distribution W} (h : d.numbers = e :: rest) :
    carveBottom d = .ok (ofWeights [(Max.max e.1 1, e.2)], d.withoutNumbers [e.1]) := by
  have hmin : d.minFace = .ok e.1 := by simp [minFace, h]
  have hweight : d.weight (.number e.1) = e.2 := weight_of_mem_numbers (by simp [h])
  rw [carveBottom, hmin, ← hweight, ← deleteFace_eq_withoutNumbers]
  rfl

/-! ### Carving both ends -/

section Ends
variable {d current main : Distribution W} {crit : Option (Nat × Distribution W)} {save : Option (Distribution W)}
  {low mid top init : List (Int64 × W)}

theorem carveCrit_of_append (h : d.numbers = init ++ top) (htop : top.length = crit.elim 0 (·.1)) :
    carveCrit d crit =
      .ok (crit.toList.map fun c => ⟨ofWeights top, c.2⟩, d.withoutNumbers (top.map (·.1))) := by
  cases crit with
  | none =>
    rw [List.eq_nil_of_length_eq_zero htop, List.map_nil, withoutNumbers_nil]
    rfl
  | some c =>
    rw [carveCrit, ← show top.length = c.1 from htop, carveTop_of_append h]
    rfl

theorem carveSave_of_append (h : d.numbers = low ++ mid) (hlow : low.length = save.toList.length) :
    carveSave d save =
      .ok (save.toList.map fun a => ⟨ofWeights (low.map fun e => (Max.max e.1 1, e.2)), a⟩,
        d.withoutNumbers (low.map (·.1))) := by
  cases save with
  | none =>
    rw [List.eq_nil_of_length_eq_zero hlow, List.map_nil, List.map_nil, withoutNumbers_nil]
    rfl
  | some a =>
    obtain ⟨e, rfl⟩ := List.length_eq_one_iff.mp hlow
    rw [carveSave, carveBottom_of_cons h]
    rfl

theorem carve_of_append (h : current.numbers = low ++ mid ++ top) (htop : top.length = crit.elim 0 (·.1))
    (hlow : low.length = save.toList.length) :
    carve current main crit save =
      .ok (⟨current.withoutNumbers (top.map (·.1) ++ low.map (·.1)), main⟩,
        (crit.toList.map fun c => ⟨ofWeights top, c.2⟩) ++
          save.toList.map fun a => ⟨ofWeights (low.map fun e => (Max.max e.1 1, e.2)), a⟩) := by
  have hrest : (current.withoutNumbers (top.map (·.1))).numbers = low ++ mid := numbers_withoutNumbers_of_append h
  rw [carve, carveCrit_of_append h htop]
  change (carveSave _ save >>= _) = _
  rw [carveSave_of_append hrest hlow, withoutNumbers_withoutNumbers]
  rfl

theorem carve_eq_error (h : current.numbers.length < save.toList.length + crit.elim 0 (·.1)) :
    carve current main crit save = .error .noNumericFaces := by
  by_cases hfew : current.numbers.length < crit.elim 0 (·.1)
  · cases crit with
    | none => cases hfew
    | some c =>
      rw [carve, carveCrit, carveTop, if_pos (show current.numbers.length < c.1 from hfew)]
      rfl
  · obtain ⟨init, top, hinit, htop⟩ := exists_append_of_le (not_lt.mp hfew)
    cases save with
    | none => exact absurd (by simpa using h) hfew
    | some a =>
      have hnil : init = [] := by
        rw [hinit, List.length_append, htop, Option.toList_some, List.length_singleton] at h
        exact List.eq_nil_of_length_eq_zero (by omega)
      have hrest : (current.withoutNumbers (top.map (·.1))).numbers = [] :=
        hnil ▸ numbers_withoutNumbers_of_append hinit
      rw [carve, carveCrit_of_append hinit htop]
      change (carveSave _ (some a) >>= _) = _
      rw [carveSave, carveBottom, minFace, hrest]
      rfl

end Ends

/-! ### Which faces go where -/

/-- The largest listed numbers and the smallest of the others, none of them twice. -/
structure Ends (d : Distribution Rat) (tops lows : List Int64) : Prop where
  nodup : (tops ++ lows).Nodup
  listed : ∀ v ∈ tops ++ lows, .number v ∈ d.table.faces
  largest : ∀ v ∈ tops, ∀ u, .number u ∈ d.table.faces → u ∉ tops → u < v
  smallest : ∀ v ∈ lows, ∀ u, .number u ∈ d.table.faces → u ∉ tops → u ∉ lows → v < u

/-- The listed faces with a property, and no others, with their weights. -/
structure Restricts (d : Distribution Rat) (p : Face → Prop) (part : Distribution Rat) : Prop where
  faces : ∀ f, f ∈ part.table.faces ↔ f ∈ d.table.faces ∧ p f
  weight : ∀ f, p f → part.weight f = d.weight f

section Sorted
variable {d : Distribution Rat} {low mid top : List (Int64 × Rat)} (h : d.numbers = low ++ mid ++ top)
include h

theorem Ends.of_append : Ends d (top.map (·.1)) (low.map (·.1)) := by
  have hlisted (v : Int64) : .number v ∈ d.table.faces ↔ v ∈ low.map (·.1) ∨ v ∈ mid.map (·.1) ∨ v ∈ top.map (·.1) := by
    rw [number_mem_faces_iff_mem_map, show d.table.numbers = _ from h, List.map_append, List.map_append,
      List.mem_append, List.mem_append, or_assoc]
  have hascending : (low.map (·.1) ++ mid.map (·.1) ++ top.map (·.1)).Pairwise (· < ·) := by
    rw [← List.map_append, ← List.map_append, ← h]
    exact List.pairwise_map.mpr d.table.numbers_ascending
  obtain ⟨hlow, -, hbelow⟩ := List.pairwise_append.mp hascending
  obtain ⟨-, -, habove⟩ := List.pairwise_append.mp hlow
  constructor
  · have hnodup := d.nodup_numbers
    rw [h, List.map_append, List.map_append] at hnodup
    exact List.nodup_append_comm.mp (hnodup.sublist ((List.sublist_append_left ..).append_right _))
  · intro v hv
    rw [hlisted]
    rcases List.mem_append.mp hv with hv | hv
    · exact .inr (.inr hv)
    · exact .inl hv
  · intro v hv u hu hout
    refine hbelow u (List.mem_append.mpr ?_) v hv
    rcases (hlisted u).mp hu with hu | hu | hu
    · exact .inl hu
    · exact .inr hu
    · exact absurd hu hout
  · intro v hv u hu hout hout'
    refine habove v hv u ?_
    rcases (hlisted u).mp hu with hu | hu | hu
    · exact absurd hu hout'
    · exact hu
    · exact absurd hu hout

theorem restricts_top : Restricts d (· ∈ (top.map (·.1)).map .number) (ofWeights top) := by
  have hsub : (top.map fun e => (Face.number e.1, e.2)).Sublist d.table.entries := by
    have htop : top.Sublist d.numbers := h ▸ List.sublist_append_right ..
    exact (htop.map _).trans d.table.map_numbers_sublist
  constructor
  · intro f
    rw [mem_faces_ofWeights]
    refine ⟨fun hf => ⟨?_, hf⟩, And.right⟩
    obtain ⟨v, hv, rfl⟩ := List.mem_map.mp hf
    exact (Ends.of_append h).listed v (List.mem_append_left _ hv)
  · intro f hf
    have hlisted : (ofWeights top : Distribution Rat).table.contains f = true :=
      contains_iff.mpr ((mem_faces_ofWeights top f).mpr hf)
    rw [Distribution.weight, ofWeights, ofFaces, ofTable, weight_ofList_of_sublist hsub]
    exact if_pos hlisted

end Sorted

theorem restricts_withoutNumbers (vs : List Int64) (d : Distribution Rat) :
    Restricts d (· ∉ vs.map .number) (d.withoutNumbers vs) where
  faces := fun f => by rw [withoutNumbers, mem_faces_filter, decide_eq_true_iff]
  weight := fun f hf => by rw [Distribution.weight, withoutNumbers, weight_filter, if_pos (decide_eq_true hf)]; rfl

/-- Carving into the part with the numbers `tops`, that with the numbers `lows`, and what stays. -/
structure TakesEnds (d : Distribution Rat) (tops lows : List Int64) (top bottom rest : Distribution Rat) : Prop
    extends Ends d tops lows where
  taken : Restricts d (· ∈ tops.map .number) top
  shown : bottom.table.entries = lows.map fun v => (.number (Max.max v 1), d.weight (.number v))
  stays : Restricts d (· ∉ (tops ++ lows).map .number) rest
  note : rest.note = d.note

theorem takesEnds_of_append {d : Distribution Rat} {low mid top : List (Int64 × Rat)}
    (h : d.numbers = low ++ mid ++ top) (hone : low.length ≤ 1) :
    TakesEnds d (top.map (·.1)) (low.map (·.1)) (ofWeights top) (ofWeights (low.map fun e => (Max.max e.1 1, e.2)))
      (d.withoutNumbers (top.map (·.1) ++ low.map (·.1))) where
  toEnds := .of_append h
  taken := restricts_top h
  shown := by
    rcases Nat.le_one_iff_eq_zero_or_eq_one.mp hone with hnone | hone
    · rw [List.eq_nil_of_length_eq_zero hnone]
      rfl
    · obtain ⟨e, rfl⟩ := List.length_eq_one_iff.mp hone
      have hweight : d.weight (.number e.1) = 0 + e.2 := by rw [weight_of_mem_numbers (by simp [h]), zero_add]
      rw [List.map_singleton, List.map_singleton, List.map_singleton, hweight]
      rfl
  stays := restricts_withoutNumbers _ d
  note := rfl

/-- A crit takes the largest numbers and a save the smallest of the others, which it shows as one at least; all other
faces stay. It fails where there are too few numbers, and loses no weight where it does not. -/
theorem carve_takes_ends (current main : Distribution Rat) (crit : Option (Nat × Distribution Rat))
    (save : Option (Distribution Rat)) :
    (∀ count, carveTop count current = (takeLargest count current).map fun p => (ofWeights p.1, p.2)) ∧
    (carve current main crit save = .error .noNumericFaces ↔
      current.numbers.length < crit.elim 0 (·.1) ∨ save.isSome ∧ current.numbers.length ≤ crit.elim 0 (·.1)) ∧
    (¬ (current.numbers.length < crit.elim 0 (·.1) ∨ save.isSome ∧ current.numbers.length ≤ crit.elim 0 (·.1)) →
      ∃ tops lows top bottom rest carved, carve current main crit save = .ok (⟨rest, main⟩, carved) ∧
        carved = (crit.toList.map fun c => ⟨top, c.2⟩) ++ (save.toList.map fun a => ⟨bottom, a⟩) ∧
        tops.length = crit.elim 0 (·.1) ∧ lows.length = save.toList.length ∧
        TakesEnds current tops lows top bottom rest ∧
        rest.total + (carved.map (·.carved.total)).sum = current.total) := by
  have hfew : current.numbers.length < save.toList.length + crit.elim 0 (·.1) ↔
      current.numbers.length < crit.elim 0 (·.1) ∨ save.isSome ∧ current.numbers.length ≤ crit.elim 0 (·.1) := by
    cases save with
    | none => simp
    | some a =>
      simp only [Option.toList_some, List.length_singleton, Option.isSome_some, true_and]
      omega
  rw [← hfew]
  refine ⟨fun count => carveTop_eq_takeLargest count current, ⟨fun h => ?_, carve_eq_error⟩, fun h => ?_⟩
  · by_contra henough
    obtain ⟨low, mid, top, hnumbers, hlow, htop⟩ := exists_append_append_of_le (not_lt.mp henough)
    rw [carve_of_append hnumbers htop hlow] at h
    cases h
  · obtain ⟨low, mid, top, hnumbers, hlow, htop⟩ := exists_append_append_of_le (not_lt.mp h)
    have hcarve : carve current main crit save = _ := carve_of_append hnumbers htop hlow
    have hone : low.length ≤ 1 := hlow ▸ Option.length_toList_le
    exact ⟨_, _, _, _, _, _, hcarve, rfl, by rw [List.length_map, htop], by rw [List.length_map, hlow],
      takesEnds_of_append hnumbers hone, sum_total_carve hcarve⟩

/-- Of four numbers, one of them without weight, three come off; the label stays with the fourth. -/
theorem carve_takes_ends_three_of_four :
    ∃ d : Distribution Rat, ∃ tops lows top bottom rest carved,
      carve d (scalar 1) (some (2, scalar 2)) (some (scalar 3)) = .ok (⟨rest, scalar 1⟩, carved) ∧ tops.length = 2 ∧
        lows.length = 1 ∧ TakesEnds d tops lows top bottom rest ∧ .label "fumble" ∈ rest.table.faces ∧
        rest.total + (carved.map (·.carved.total)).sum = 9 := by
  let d : Distribution Rat :=
    ofFaces [(.number (-2), 3), (.label "fumble", 1), (.number 4, 0), (.number 6, 2), (.number 1, 3)]
  obtain ⟨-, -, hcarve⟩ := carve_takes_ends d (scalar 1) (some (2, scalar 2)) (some (scalar 3))
  obtain ⟨tops, lows, top, bottom, rest, carved, hok, -, htops, hlows, hends, htotal⟩ := hcarve (by decide +kernel)
  refine ⟨d, tops, lows, top, bottom, rest, carved, hok, htops, hlows, hends, ?_, ?_⟩
  · exact (hends.stays.faces _).mpr ⟨by decide +kernel, by simp⟩
  · exact htotal.trans (by decide +kernel)

end Notation
end DiceLaw
