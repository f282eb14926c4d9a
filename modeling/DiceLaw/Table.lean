import DiceLaw.Face
import DiceLaw.Weight

/-! Tables of weights: each face once, in ascending order. A table can absorb another, which adds the
weights of a common face. -/
namespace DiceLaw

/-- Faces with their weights, ascending. A face may have weight zero and still be listed. -/
structure Table (W : Type) where
  entries : List (Face × W)
  ascending : entries.Pairwise (fun a b => a.1 < b.1)

namespace Table
variable {W : Type}

/-! ### Merging ascending lists -/

section Merge
variable [Zero W] [Add W]

/-- An entry whose face had no weight before. -/
def fresh (e : Face × W) : Face × W := (e.1, 0 + e.2)

/-- Merges two ascending lists behind the reversed list `done`. -/
def mergeOnto (done xs ys : List (Face × W)) : List (Face × W) :=
  match xs, ys with
  | [], ys => done.reverseAux (ys.map fresh)
  | x :: xs, [] => done.reverseAux (x :: xs)
  | x :: xs, y :: ys =>
    match compare x.1 y.1 with
    | .lt => mergeOnto (x :: done) xs (y :: ys)
    | .eq => mergeOnto ((x.1, x.2 + y.2) :: done) xs ys
    | .gt => mergeOnto (fresh y :: done) (x :: xs) ys
termination_by xs.length + ys.length

/-- One ascending list from two. The weights of the second are added to those of the first, in whose
absence to zero. -/
def merge (xs ys : List (Face × W)) : List (Face × W) := mergeOnto [] xs ys

private theorem mergeOnto_append (done tail xs ys : List (Face × W)) :
    mergeOnto (done ++ tail) xs ys = tail.reverse ++ mergeOnto done xs ys := by
  fun_induction mergeOnto done xs ys with
  | case1 done ys => simp [mergeOnto, List.reverseAux_eq]
  | case2 done x xs => simp [mergeOnto, List.reverseAux_eq]
  | case3 done x xs y ys h ih => rw [mergeOnto, h]; exact ih
  | case4 done x xs y ys h ih => rw [mergeOnto, h]; exact ih
  | case5 done x xs y ys h ih => rw [mergeOnto, h]; exact ih

private theorem mergeOnto_single (e : Face × W) (xs ys : List (Face × W)) :
    mergeOnto [e] xs ys = e :: merge xs ys := mergeOnto_append [] [e] xs ys

@[simp] theorem merge_nil_left (ys : List (Face × W)) : merge [] ys = ys.map fresh := by
  simp [merge, mergeOnto]

@[simp] theorem merge_nil_right (xs : List (Face × W)) : merge xs [] = xs := by
  cases xs <;> simp [merge, mergeOnto]

theorem merge_cons_cons (x y : Face × W) (xs ys : List (Face × W)) :
    merge (x :: xs) (y :: ys) =
      match compare x.1 y.1 with
      | .lt => x :: merge xs (y :: ys)
      | .eq => (x.1, x.2 + y.2) :: merge xs ys
      | .gt => fresh y :: merge (x :: xs) ys := by
  rw [merge, mergeOnto]
  split <;> exact mergeOnto_single ..

private theorem face_mem_merge {xs ys : List (Face × W)} {e : Face × W} (h : e ∈ merge xs ys) :
    (∃ x ∈ xs, x.1 = e.1) ∨ ∃ y ∈ ys, y.1 = e.1 := by
  unfold merge at h
  generalize hd : ([] : List (Face × W)) = done at h
  have key : e ∈ done ∨ (∃ x ∈ xs, x.1 = e.1) ∨ ∃ y ∈ ys, y.1 = e.1 := by
    clear hd
    fun_induction mergeOnto done xs ys with
    | case1 done ys => grind [List.reverseAux_eq, fresh]
    | case2 done x xs => grind [List.reverseAux_eq]
    | case3 done x xs y ys _ ih => grind
    | case4 done x xs y ys _ ih => grind
    | case5 done x xs y ys _ ih => grind [fresh]
  grind

theorem merge_ascending {xs ys : List (Face × W)} (hx : xs.Pairwise (fun a b => a.1 < b.1))
    (hy : ys.Pairwise (fun a b => a.1 < b.1)) :
    (merge xs ys).Pairwise (fun a b => a.1 < b.1) := by
  induction xs generalizing ys with
  | nil => rw [merge_nil_left]; exact List.pairwise_map.2 hy
  | cons x xs ihx =>
    induction ys with
    | nil => simpa using hx
    | cons y ys ihy =>
      obtain ⟨hxs, hx'⟩ := List.pairwise_cons.1 hx
      obtain ⟨hys, hy'⟩ := List.pairwise_cons.1 hy
      rw [merge_cons_cons]
      split
      next h =>
        refine List.pairwise_cons.2 ⟨fun e he => ?_, ihx hx' hy⟩
        rcases face_mem_merge he with ⟨a, ha, hae⟩ | ⟨a, ha, hae⟩
        · exact hae ▸ hxs a ha
        · rcases List.mem_cons.1 ha with rfl | ha
          · exact hae ▸ h
          · exact hae ▸ Face.lt_trans h (hys a ha)
      next h =>
        have hxy : x.1 = y.1 := Std.LawfulEqOrd.eq_of_compare h
        refine List.pairwise_cons.2 ⟨fun e he => ?_, ihx hx' hy'⟩
        rcases face_mem_merge he with ⟨a, ha, hae⟩ | ⟨a, ha, hae⟩
        · exact hae ▸ hxs a ha
        · exact hae ▸ (show x.1 < a.1 from hxy ▸ hys a ha)
      next h =>
        have hyx : y.1 < x.1 := Std.OrientedCmp.lt_of_gt h
        refine List.pairwise_cons.2 ⟨fun e he => ?_, ihy hy'⟩
        rcases face_mem_merge he with ⟨a, ha, hae⟩ | ⟨a, ha, hae⟩
        · rcases List.mem_cons.1 ha with rfl | ha
          · exact hae ▸ hyx
          · exact hae ▸ Face.lt_trans hyx (hxs a ha)
        · exact hae ▸ hys a ha

end Merge

/-! ### Views -/

def empty : Table W := ⟨[], .nil⟩

def single (f : Face) (w : W) : Table W := ⟨[(f, w)], List.pairwise_singleton ..⟩

def faces (t : Table W) : List Face := t.entries.map (·.1)

def size (t : Table W) : Nat := t.entries.length

def find? (t : Table W) (f : Face) : Option W := (t.entries.find? (·.1 = f)).map (·.2)

/-- Whether the face is listed, be it with weight zero. -/
def contains (t : Table W) (f : Face) : Bool := (t.find? f).isSome

/-- The listed weight, zero for a face that is not listed. -/
def weight [Zero W] (t : Table W) (f : Face) : W := (t.find? f).getD 0

def numbers (t : Table W) : List (Int64 × W) := t.entries.filterMap fun e => e.1.value?.map (·, e.2)

def total [Weight W] (t : Table W) : W := Weight.sum (t.entries.map (·.2))

/-! ### Changing -/

/-- All entries of both. The weights of the second are added to those of the first, in whose absence
to zero. -/
def absorb [Zero W] [Add W] (t u : Table W) : Table W :=
  ⟨merge t.entries u.entries, merge_ascending t.ascending u.ascending⟩

def mapWeights {V : Type} (g : W → V) (t : Table W) : Table V :=
  ⟨t.entries.map fun e => (e.1, g e.2), List.pairwise_map.2 t.ascending⟩

def filter (keep : Face → Bool) (t : Table W) : Table W :=
  ⟨t.entries.filter fun e => keep e.1, t.ascending.filter _⟩

def erase (t : Table W) (f : Face) : Table W := t.filter (· ≠ f)

/-- Walks both ascending lists and keeps, behind the reversed list `done`, the entries of the first
whose face the second does not list. -/
def missingOnto (done xs ys : List (Face × W)) : List (Face × W) :=
  match xs, ys with
  | [], _ => done.reverse
  | x :: xs, [] => done.reverseAux (x :: xs)
  | x :: xs, y :: ys =>
    match compare x.1 y.1 with
    | .lt => missingOnto (x :: done) xs (y :: ys)
    | .eq => missingOnto done xs ys
    | .gt => missingOnto done (x :: xs) ys
termination_by xs.length + ys.length

private theorem missingOnto_append (done tail xs ys : List (Face × W)) :
    missingOnto (done ++ tail) xs ys = tail.reverse ++ missingOnto done xs ys := by
  fun_induction missingOnto done xs ys with
  | case1 done ys => simp [missingOnto]
  | case2 done x xs => simp [missingOnto, List.reverseAux_eq]
  | case3 done x xs y ys h ih => rw [missingOnto, h]; exact ih
  | case4 done x xs y ys h ih => rw [missingOnto, h]; exact ih
  | case5 done x xs y ys h ih => rw [missingOnto, h]; exact ih

private theorem find?_isSome_cons_of_lt {y : Face × W} {ys : List (Face × W)} {f : Face}
    (h : y.1 < f) : ((y :: ys).find? (·.1 = f)).isSome = (ys.find? (·.1 = f)).isSome := by
  have hne : y.1 ≠ f := fun he => Face.not_lt_self f (he ▸ h)
  simp [hne]

private theorem missingOnto_nil {xs ys : List (Face × W)} (hx : xs.Pairwise (fun a b => a.1 < b.1))
    (hy : ys.Pairwise (fun a b => a.1 < b.1)) :
    missingOnto [] xs ys = xs.filter fun e => !(ys.find? (·.1 = e.1)).isSome := by
  induction xs generalizing ys with
  | nil => simp [missingOnto]
  | cons x xs ihx =>
    induction ys with
    | nil => simp [missingOnto, List.filter_eq_self.2]
    | cons y ys ihy =>
      obtain ⟨hxs, hx'⟩ := List.pairwise_cons.1 hx
      obtain ⟨hys, hy'⟩ := List.pairwise_cons.1 hy
      rw [missingOnto]
      split
      next h =>
        have hnone : (y :: ys).find? (·.1 = x.1) = none := by
          refine List.find?_eq_none.2 fun a ha => ?_
          have hlt : x.1 < a.1 := by
            rcases List.mem_cons.1 ha with rfl | ha
            · exact h
            · exact Face.lt_trans h (hys a ha)
          simpa using fun he : a.1 = x.1 => Face.not_lt_self x.1 (he ▸ hlt)
        rw [show [x] = [] ++ [x] from rfl, missingOnto_append, ihx hx' hy, List.filter_cons, hnone]
        simp
      next h =>
        have hxy : x.1 = y.1 := Std.LawfulEqOrd.eq_of_compare h
        rw [ihx hx' hy', List.filter_cons]
        simp only [hxy, List.find?_cons, decide_true, Option.isSome_some, Bool.not_true,
          Bool.false_eq_true, if_false]
        refine List.filter_congr fun e he => ?_
        have hlt : y.1 < e.1 := hxy ▸ hxs e he
        have hne : ¬ y.1 = e.1 := fun he' => Face.not_lt_self e.1 (by rwa [he'] at hlt)
        simp [hne]
      next h =>
        have hyx : y.1 < x.1 := Std.OrientedCmp.lt_of_gt h
        rw [ihy hy']
        refine List.filter_congr fun e he => ?_
        have hlt : y.1 < e.1 := by
          rcases List.mem_cons.1 he with rfl | he
          · exact hyx
          · exact Face.lt_trans hyx (hxs e he)
        rw [find?_isSome_cons_of_lt hlt]

/-- The entries whose face the other table does not list. -/
def without (t u : Table W) : Table W :=
  ⟨missingOnto [] t.entries u.entries, by
    rw [missingOnto_nil t.ascending u.ascending]; exact t.ascending.filter _⟩

theorem without_eq_filter (t u : Table W) : (t.without u).entries = (t.filter fun f => !u.contains f).entries := by
  simp [without, missingOnto_nil t.ascending u.ascending, filter, contains, find?]

end Table
end DiceLaw
