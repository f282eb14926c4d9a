import DiceLaw.Proofs.Chance
import DiceLaw.Repetition

/-! Which faces are listed. A face of weight zero is listed too, so this is not read off the weights; with the
weights it is all there is to a table. -/
namespace DiceLaw

namespace Table

/-! ### Changes -/

section Listed
variable {W : Type}

theorem mem_faces_ofList [Zero W] [Add W] (l : List (Face × W)) (f : Face) :
    f ∈ (ofList l).faces ↔ ∃ e ∈ l, e.1 = f := by
  rw [ofList, mem_faces_ofTally_addAll]
  exact or_iff_right (by rintro ⟨⟩)

theorem faces_mapWeights {V : Type} (g : W → V) (t : Table W) : (t.mapWeights g).faces = t.faces := by
  rw [faces, mapWeights, List.map_map]
  rfl

theorem mem_faces_filter (t : Table W) (keep : Face → Bool) (f : Face) :
    f ∈ (t.filter keep).faces ↔ f ∈ t.faces ∧ keep f = true := by
  simp only [faces, filter, List.mem_map, List.mem_filter]
  constructor
  · intro h
    obtain ⟨e, ⟨he, hkeep⟩, rfl⟩ := h
    exact ⟨⟨e, he, rfl⟩, hkeep⟩
  · intro h
    obtain ⟨⟨e, he, rfl⟩, hkeep⟩ := h
    exact ⟨e, ⟨he, hkeep⟩, rfl⟩

theorem mem_faces_without (t u : Table W) (f : Face) :
    f ∈ (t.without u).faces ↔ f ∈ t.faces ∧ f ∉ u.faces := by
  rw [without_eq, mem_faces_filter, Bool.not_eq_true', ← contains_iff (t := u), Bool.not_eq_true]

private theorem mem_map_fst_merge [Zero W] [Add W] (xs ys : List (Face × W)) (f : Face) :
    f ∈ (merge xs ys).map (·.1) ↔ f ∈ xs.map (·.1) ∨ f ∈ ys.map (·.1) := by
  induction xs generalizing ys with
  | nil => simp [fresh]
  | cons x xs ihx =>
    induction ys with
    | nil => simp
    | cons y ys ihy =>
      rw [merge_cons_cons]
      split
      next h =>
        simp only [List.map_cons, List.mem_cons, ihx]
        tauto
      next h =>
        have hxy : x.1 = y.1 := Std.LawfulEqOrd.eq_of_compare h
        simp only [List.map_cons, List.mem_cons, ihx, hxy]
        tauto
      next h =>
        simp only [List.map_cons, List.mem_cons] at ihy ⊢
        rw [ihy, fresh]
        tauto

theorem mem_faces_absorb [Zero W] [Add W] (t u : Table W) (f : Face) :
    f ∈ (t.absorb u).faces ↔ f ∈ t.faces ∨ f ∈ u.faces := mem_map_fst_merge t.entries u.entries f

/-! ### Numbers -/

theorem mem_numbers_iff {t : Table W} {e : Int64 × W} : e ∈ t.numbers ↔ (.number e.1, e.2) ∈ t.entries := by
  constructor
  · intro he
    exact t.map_numbers_sublist.subset (List.mem_map_of_mem he)
  · intro he
    exact List.mem_filterMap.mpr ⟨_, he, rfl⟩

theorem number_mem_faces_iff {t : Table W} {v : Int64} : .number v ∈ t.faces ↔ ∃ w, (v, w) ∈ t.numbers := by
  simp only [faces, mem_numbers_iff, List.mem_map, Prod.exists, exists_eq_right, exists_comm]

theorem number_mem_faces_iff_mem_map {t : Table W} {v : Int64} : .number v ∈ t.faces ↔ v ∈ t.numbers.map (·.1) := by
  rw [number_mem_faces_iff]
  simp

theorem numbers_ascending (t : Table W) : t.numbers.Pairwise fun a b => a.1 < b.1 := by
  have h := t.ascending.sublist t.map_numbers_sublist
  rw [List.pairwise_map] at h
  exact h.imp Face.number_lt_number.mp

theorem numbers_filter (t : Table W) (keep : Face → Bool) :
    (t.filter keep).numbers = t.numbers.filter fun e => keep (.number e.1) := by
  rw [numbers, filter, List.filterMap_filter, numbers, List.filter_filterMap]
  congr 1
  funext e
  obtain ⟨f, w⟩ := e
  cases f with
  | number v => by_cases h : keep (.number v) = true <;> simp [Face.value?, Option.filter, h]
  | label name => simp [Face.value?]

/-- Labels are not among the numbers. -/
theorem numbers_filter_isSome (t : Table W) : (t.filter fun f => f.value?.isSome).numbers = t.numbers := by
  rw [numbers_filter]
  exact List.filter_eq_self.mpr fun e _ => rfl

end Listed

/-! ### Equality -/

section Listed
variable {W : Type}

theorem mem_entries_iff_find? {t : Table W} {e : Face × W} : e ∈ t.entries ↔ t.find? e.1 = some e.2 := by
  refine ⟨find?_of_mem, fun h => ?_⟩
  obtain ⟨a, ha, hweight⟩ := Option.map_eq_some_iff.mp h
  have hface : a.1 = e.1 := by simpa using List.find?_some ha
  have hae : a = e := Prod.ext hface hweight
  exact hae ▸ List.mem_of_find?_eq_some ha

/-- Which faces are listed determines their row. -/
theorem faces_eq_of_mem_iff {V : Type} {t : Table V} {u : Table W} (h : ∀ f, f ∈ t.faces ↔ f ∈ u.faces) :
    t.faces = u.faces := by
  have hascending {X : Type} (t : Table X) : t.faces.Pairwise (· < ·) := List.pairwise_map.mpr t.ascending
  refine List.Perm.eq_of_pairwise (fun a b _ _ hab hba => ?_) (hascending t) (hascending u)
    ((List.perm_ext_iff_of_nodup t.nodup_faces u.nodup_faces).mpr h)
  exact absurd (Face.lt_trans hab hba) (Face.not_lt_self a)

theorem ext_find? {t u : Table W} (h : ∀ f, t.find? f = u.find? f) : t = u := by
  have hnodup (t : Table W) : t.entries.Nodup := List.Nodup.of_map _ t.nodup_faces
  refine ext_entries (List.Perm.eq_of_pairwise (fun a b _ _ hab hba => ?_) t.ascending u.ascending ?_)
  · exact absurd (Face.lt_trans hab hba) (Face.not_lt_self a.1)
  · refine (List.perm_ext_iff_of_nodup (hnodup t) (hnodup u)).mpr fun e => ?_
    rw [mem_entries_iff_find?, mem_entries_iff_find?, h]

/-- Where no face is repeated, no weights are added and the order of collection does not matter. -/
theorem ofList_perm_of_nodup [Zero W] [Add W] {l k : List (Face × W)} (hnodup : (l.map (·.1)).Nodup)
    (h : l.Perm k) : ofList l = ofList k := by
  refine ext_find? fun f => ?_
  have hsingle : (l.filter (·.1 = f)).length ≤ 1 := by
    have hsame : (l.filter (·.1 = f)).map (·.1) = List.replicate (l.filter (·.1 = f)).length f := by
      refine List.eq_replicate_iff.mpr ⟨List.length_map _, fun g hg => ?_⟩
      obtain ⟨e, he, rfl⟩ := List.mem_map.mp hg
      simpa using (List.mem_filter.mp he).2
    exact List.nodup_replicate.mp (hsame ▸ hnodup.sublist (List.filter_sublist.map _))
  have hperm := h.filter (·.1 = f)
  have heq : l.filter (·.1 = f) = k.filter (·.1 = f) := by
    rcases Nat.le_one_iff_eq_zero_or_eq_one.mp hsingle with hnone | hone
    · rw [List.length_eq_zero_iff.mp hnone] at hperm ⊢
      exact (List.nil_perm.mp hperm).symm
    · obtain ⟨e, he⟩ := List.length_eq_one_iff.mp hone
      rw [he] at hperm ⊢
      exact List.singleton_perm.mp hperm
  rw [find?_ofList, find?_ofList, heq]

end Listed

theorem find?_eq (t : Table Rat) (f : Face) : t.find? f = if f ∈ t.faces then some (t.weight f) else none := by
  by_cases hf : f ∈ t.faces
  · obtain ⟨e, he, rfl⟩ := List.mem_map.mp hf
    rw [if_pos hf, find?_of_mem he, weight_of_mem he]
  · rw [if_neg hf, find?_eq_none hf]

/-- Faces and weights determine a table, for its order is given. -/
theorem ext_faces {t u : Table Rat} (hfaces : ∀ f, f ∈ t.faces ↔ f ∈ u.faces)
    (hweights : ∀ f, t.weight f = u.weight f) : t = u :=
  ext_find? fun f => by simp only [find?_eq, hfaces, hweights]

/-- In exact arithmetic the order of collection does not matter. -/
theorem ofList_perm {l k : List (Face × Rat)} (h : l.Perm k) : ofList l = ofList k := by
  apply ext_faces
  · intro f
    rw [mem_faces_ofList, mem_faces_ofList]
    exact exists_congr fun e => and_congr_left' h.mem_iff
  · intro f
    rw [weight_ofList, weight_ofList]
    exact (h.map _).sum_eq

end Table

namespace Distribution
open Table

section Listed
variable {W : Type} [Weight W]

@[simp] theorem mem_faces_combine (d e : Distribution W) (f : Face) :
    f ∈ (d.combine e).table.faces ↔ f ∈ e.table.faces ∨ f ∈ d.table.faces := mem_faces_absorb ..

@[simp] theorem faces_scale (d : Distribution W) (c : W) : (d.scale c).table.faces = d.table.faces :=
  faces_mapWeights ..

/-! ### Two rolls joined -/

theorem exists_mem_pairEntries (g : Int64 → Int64 → Int64) (t u : Table W) (f : Face) :
    (∃ e ∈ pairEntries g t u, e.1 = f) ↔ ∃ a ∈ t.faces, ∃ b ∈ u.faces, pairFace g a b = f := by
  simp only [faces, List.mem_map]
  rw [pairEntries]
  split
  · simp only [List.mem_flatMap, List.mem_map, pairEntry]
    constructor
    · rintro ⟨_, ⟨a, ha, b, hb, rfl⟩, rfl⟩
      exact ⟨_, ⟨a, ha, rfl⟩, _, ⟨b, hb, rfl⟩, rfl⟩
    · rintro ⟨_, ⟨a, ha, rfl⟩, _, ⟨b, hb, rfl⟩, rfl⟩
      exact ⟨_, ⟨a, ha, b, hb, rfl⟩, rfl⟩
  · simp only [List.mem_flatMap, List.mem_map, pairEntry]
    constructor
    · rintro ⟨_, ⟨b, hb, a, ha, rfl⟩, rfl⟩
      exact ⟨_, ⟨a, ha, rfl⟩, _, ⟨b, hb, rfl⟩, rfl⟩
    · rintro ⟨_, ⟨a, ha, rfl⟩, _, ⟨b, hb, rfl⟩, rfl⟩
      exact ⟨_, ⟨b, hb, a, ha, rfl⟩, rfl⟩

theorem mem_faces_pairUp (g : Int64 → Int64 → Int64) (d e : Distribution W) (f : Face) :
    f ∈ (pairUp g d e).table.faces ↔ ∃ a ∈ d.table.faces, ∃ b ∈ e.table.faces, pairFace g a b = f := by
  rw [pairUp, ofTable, collectPairs_eq_addAll, mem_faces_ofTally_addAll, exists_mem_pairEntries]
  exact or_iff_right (by rintro ⟨⟩)

theorem mem_faces_pairUpSeeded (g : Int64 → Int64 → Int64) (d e : Distribution W) (f : Face) :
    f ∈ (pairUpSeeded g d e).table.faces ↔
      (f = .number 0 ∨ f = .number 1) ∨ ∃ a ∈ d.table.faces, ∃ b ∈ e.table.faces, pairFace g a b = f := by
  rw [pairUpSeeded, ofTable, collectPairs_eq_addAll, mem_faces_ofTally_addAll, exists_mem_pairEntries,
    mem_faces_ofTally_addAll]
  have hseed : f ∉ (ofTally (Tally.empty : Tally W)).faces := by rintro ⟨⟩
  simp [hseed, eq_comm]

/-! ### Rerolling -/

theorem mem_faces_reroll (d targets : Distribution W) (f : Face) :
    f ∈ (d.reroll targets).table.faces ↔ f ∈ d.table.faces := by
  have key (l : List Face) (t : Table W) :
      f ∈ (l.foldl (fun t g =>
        let t := t.absorb (d.table.without targets.table)
        if targets.table.contains g then t.absorb d.table else t) t).faces ↔
        f ∈ t.faces ∨ (l ≠ [] ∧ f ∈ (d.table.without targets.table).faces) ∨
          ((∃ g ∈ l, targets.table.contains g) ∧ f ∈ d.table.faces) := by
    induction l generalizing t with
    | nil => simp
    | cons g l ih =>
      rw [List.foldl_cons, ih]
      by_cases hg : targets.table.contains g = true
      · simp only [hg, if_true, mem_faces_absorb, List.exists_mem_cons_iff]
        simp
        tauto
      · simp only [hg, Bool.false_eq_true, if_false, mem_faces_absorb, List.exists_mem_cons_iff]
        simp
        tauto
  rw [reroll]
  simp only
  rw [key, mem_faces_without]
  constructor
  · rintro (h | ⟨-, h, -⟩ | ⟨-, h⟩)
    · cases h
    · exact h
    · exact h
  · intro h
    by_cases hf : f ∈ targets.table.faces
    · exact .inr (.inr ⟨⟨f, h, contains_iff.mpr hf⟩, h⟩)
    · exact .inr (.inl ⟨List.ne_nil_of_mem h, h, hf⟩)

/-! ### Mixing -/

/-- Branches that weigh nothing are left out with their faces. -/
theorem mem_faces_mixture (branches : List (Resolved W)) (f : Face) :
    f ∈ (mixture branches).table.faces ↔ ∃ b ∈ branches, 0 < b.total ∧ f ∈ b.copies.table.faces := by
  have key (factor : W) (l : List (Resolved W)) (t : Table W) :
      f ∈ (l.foldl (fun t b =>
        if 0 < b.total then t.absorb (b.copies.scale (b.weight * (factor / b.total))).table else t) t).faces ↔
        f ∈ t.faces ∨ ∃ b ∈ l, 0 < b.total ∧ f ∈ b.copies.table.faces := by
    induction l generalizing t with
    | nil => simp
    | cons b l ih =>
      rw [List.foldl_cons, ih, List.exists_mem_cons_iff]
      by_cases h : 0 < b.total
      · simp only [h, if_true, mem_faces_absorb, faces_scale, true_and, or_assoc]
      · simp only [h, if_false, false_and, false_or]
  rw [mixture, ofTable, key]
  exact or_iff_right (by rintro ⟨⟩)

end Listed

theorem ext_faces {d e : Distribution Rat} (hfaces : ∀ f, f ∈ d.table.faces ↔ f ∈ e.table.faces)
    (hweights : ∀ f, d.weight f = e.weight f) (hnote : d.note = e.note) : d = e := by
  cases d
  cases e
  cases hnote
  exact congrArg (Distribution.mk · _) (Table.ext_faces hfaces hweights)

end Distribution
end DiceLaw
