import DiceLaw.Table

/-! Weights collected one entry at a time. The weight of a face is the sum, from zero on and in the order
of collection, of all that was added to it. A tally stands at a place among its faces and walks from
there, so that neighbouring faces are quickly reached one after the other. -/
namespace DiceLaw

/-- Faces with their weights, ascending, in two parts. The first is held from its end on. -/
structure Tally (W : Type) where
  before : List (Face × W)
  after : List (Face × W)
  ascending : (before.reverse ++ after).Pairwise (fun a b => a.1 < b.1)

namespace Tally
variable {W : Type}

theorem ascending_nil :
    ([].reverse ++ []).Pairwise (fun a b : Face × W => a.1 < b.1) := .nil

def empty : Tally W := ⟨[], [], ascending_nil⟩

/-! ### Walking -/

/-- Walks down to where all faces before the place are smaller. -/
def down (f : Face) : List (Face × W) → List (Face × W) → List (Face × W) × List (Face × W)
  | [], after => ([], after)
  | b :: before, after => if compare b.1 f = .lt then (b :: before, after) else down f before (b :: after)

/-- Walks up to where no face behind the place is smaller. -/
def up (f : Face) : List (Face × W) → List (Face × W) → List (Face × W) × List (Face × W)
  | before, [] => (before, [])
  | before, a :: after => if compare a.1 f = .lt then up f (a :: before) after else (before, a :: after)

theorem down_append (f : Face) (before after : List (Face × W)) :
    (down f before after).1.reverse ++ (down f before after).2 = before.reverse ++ after := by
  fun_induction down f before after with
  | case1 after => rfl
  | case2 b before after h => rfl
  | case3 b before after h ih => simp [ih]

theorem up_append (f : Face) (before after : List (Face × W)) :
    (up f before after).1.reverse ++ (up f before after).2 = before.reverse ++ after := by
  fun_induction up f before after with
  | case1 before => rfl
  | case2 before a after h ih => simp [ih]
  | case3 before a after h => rfl

theorem lt_of_mem_down {f : Face} {before after : List (Face × W)}
    (h : (before.reverse ++ after).Pairwise (fun a b => a.1 < b.1)) {b : Face × W}
    (hb : b ∈ (down f before after).1) : b.1 < f := by
  fun_induction down f before after with
  | case1 after => cases hb
  | case2 c before after hc =>
    rcases List.mem_cons.1 hb with rfl | hb
    · exact hc
    · simp only [List.reverse_cons, List.append_assoc] at h
      exact Face.lt_trans ((List.pairwise_append.1 h).2.2 b (by simpa using hb) c (by simp)) hc
  | case3 c before after hc ih => exact ih (by simpa using h) hb

theorem lt_of_mem_up {f : Face} {before after : List (Face × W)} (h : ∀ b ∈ before, b.1 < f)
    {b : Face × W} (hb : b ∈ (up f before after).1) : b.1 < f := by
  fun_induction up f before after with
  | case1 before => exact h b hb
  | case2 before a after ha ih =>
    refine ih (fun c hc => ?_) hb
    rcases List.mem_cons.1 hc with rfl | hc
    · exact ha
    · exact h c hc
  | case3 before a after ha => exact h b hb

theorem not_lt_of_mem_up {f : Face} {before after : List (Face × W)}
    (h : after.Pairwise (fun a b => a.1 < b.1)) {a : Face × W} (ha : a ∈ (up f before after).2) :
    ¬ a.1 < f := by
  fun_induction up f before after with
  | case1 before => cases ha
  | case2 before b after hb ih => exact ih (List.pairwise_cons.1 h).2 ha
  | case3 before b after hb =>
    rcases List.mem_cons.1 ha with rfl | ha
    · exact hb
    · exact fun hf => hb (Face.lt_trans ((List.pairwise_cons.1 h).1 a ha) hf)

/-! ### Adding -/

variable [Zero W] [Add W]

/-- Adds to the weight of a face that no listed one precedes; it starts from zero if it is not listed. -/
def raise (f : Face) (w : W) : List (Face × W) → List (Face × W)
  | [] => [(f, 0 + w)]
  | a :: after => if a.1 = f then (f, a.2 + w) :: after else (f, 0 + w) :: a :: after

theorem ascending_raise {f : Face} {before after : List (Face × W)} (w : W)
    (h : (before.reverse ++ after).Pairwise (fun a b => a.1 < b.1)) (hb : ∀ b ∈ before, b.1 < f)
    (ha : ∀ a ∈ after, ¬ a.1 < f) :
    (before.reverse ++ raise f w after).Pairwise (fun a b => a.1 < b.1) := by
  obtain ⟨hbefore, hafter, hcross⟩ := List.pairwise_append.1 h
  refine List.pairwise_append.2 ⟨hbefore, ?_, fun b hbm e he => ?_⟩
  · cases after with
    | nil => exact List.pairwise_singleton ..
    | cons a after =>
      obtain ⟨hfirst, hrest⟩ := List.pairwise_cons.1 hafter
      rw [raise]
      split
      next hf => exact List.pairwise_cons.2 ⟨fun c hc => hf ▸ hfirst c hc, hrest⟩
      next hf =>
        have hfa : f < a.1 := Face.lt_of_not_lt (ha a (by simp)) hf
        refine List.pairwise_cons.2 ⟨fun c hc => ?_, hafter⟩
        rcases List.mem_cons.1 hc with rfl | hc
        · exact hfa
        · exact Face.lt_trans hfa (hfirst c hc)
  · have hbf := hb b (List.mem_reverse.1 hbm)
    cases after with
    | nil => rw [List.mem_singleton.1 he]; exact hbf
    | cons a after =>
      rw [raise] at he
      split at he
      next hf =>
        rcases List.mem_cons.1 he with rfl | he
        · exact hbf
        · exact hcross b hbm e (List.mem_cons_of_mem _ he)
      next hf =>
        rcases List.mem_cons.1 he with rfl | he
        · exact hbf
        · exact hcross b hbm e he

private theorem find?_raise {f : Face} {after : List (Face × W)} (g : Face) (w : W)
    (h : after.Pairwise (fun a b => a.1 < b.1)) (ha : ∀ a ∈ after, ¬ a.1 < f) :
    ((raise f w after).find? (·.1 = g)).map (·.2) =
      if f = g then some (((after.find? (·.1 = f)).map (·.2)).getD 0 + w)
      else (after.find? (·.1 = g)).map (·.2) := by
  cases after with
  | nil => by_cases hg : f = g <;> simp [raise, hg]
  | cons a after =>
    rw [raise]
    split
    next hf => by_cases hg : f = g <;> simp [hf, hg]
    next hf =>
      have hfa : f < a.1 := Face.lt_of_not_lt (ha a (by simp)) hf
      have hnone : (a :: after).find? (·.1 = f) = none := by
        refine List.find?_eq_none.2 fun c hc => ?_
        have hlt : f < c.1 := by
          rcases List.mem_cons.1 hc with rfl | hc
          · exact hfa
          · exact Face.lt_trans hfa ((List.pairwise_cons.1 h).1 c hc)
        simpa using fun he : c.1 = f => Face.not_lt_self f (by rwa [he] at hlt)
      rw [hnone, List.find?_cons]
      by_cases hg : f = g <;> simp [hg]

/-- Adds to the weight of a face. -/
def add (t : Tally W) (f : Face) (w : W) : Tally W :=
  let p := down f t.before t.after
  let q := up f p.1 p.2
  ⟨q.1, raise f w q.2, by
    have hp : (p.1.reverse ++ p.2).Pairwise (fun a b => a.1 < b.1) := by
      rw [down_append]; exact t.ascending
    refine ascending_raise w ?_ (fun b hb => lt_of_mem_up (fun c hc => lt_of_mem_down t.ascending hc) hb)
      (fun a ha => not_lt_of_mem_up (List.pairwise_append.1 hp).2.1 ha)
    rw [up_append]; exact hp⟩

def addAll (t : Tally W) (l : List (Face × W)) : Tally W := l.foldl (fun t e => t.add e.1 e.2) t

end Tally

namespace Table
variable {W : Type}

def ofTally (t : Tally W) : Table W := ⟨t.before.reverse ++ t.after, t.ascending⟩

theorem find?_ofTally_add [Zero W] [Add W] (t : Tally W) (f g : Face) (w : W) :
    (ofTally (t.add f w)).find? g =
      if f = g then some (((ofTally t).find? f).getD 0 + w) else (ofTally t).find? g := by
  obtain ⟨p, hp⟩ : ∃ p, p = Tally.down f t.before t.after := ⟨_, rfl⟩
  obtain ⟨q, hq⟩ : ∃ q, q = Tally.up f p.1 p.2 := ⟨_, rfl⟩
  have hpe : p.1.reverse ++ p.2 = t.before.reverse ++ t.after := hp ▸ Tally.down_append ..
  have hqe : q.1.reverse ++ q.2 = t.before.reverse ++ t.after := hq ▸ hpe ▸ Tally.up_append ..
  have hbelow : ∀ b ∈ q.1, b.1 < f := fun b hb =>
    Tally.lt_of_mem_up (fun c hc => Tally.lt_of_mem_down t.ascending (hp ▸ hc)) (hq ▸ hb)
  have hnotBelow : ∀ a ∈ q.2, ¬ a.1 < f := fun a ha =>
    Tally.not_lt_of_mem_up (List.pairwise_append.1 (hpe ▸ t.ascending)).2.1 (hq ▸ ha)
  have hnone : q.1.reverse.find? (·.1 = f) = none := List.find?_eq_none.2 fun b hb => by
    have hlt := hbelow b (List.mem_reverse.1 hb)
    simpa using fun he : b.1 = f => Face.not_lt_self f (by rwa [he] at hlt)
  have hnew : (ofTally (t.add f w)).entries = q.1.reverse ++ Tally.raise f w q.2 := by
    subst hq hp; rfl
  have hold : (ofTally t).entries = q.1.reverse ++ q.2 := hqe.symm
  have hraise := Tally.find?_raise g w (List.pairwise_append.1 (hqe ▸ t.ascending)).2.1 hnotBelow
  simp only [find?, hnew, hold, List.find?_append]
  by_cases hg : f = g
  · subst hg
    simpa [hnone] using hraise
  · rw [if_neg hg] at hraise ⊢
    cases hb : q.1.reverse.find? (·.1 = g) with
    | none => simpa [hb] using hraise
    | some b => simp

/-- The table of a list of entries, in any order; repeated faces accumulate. -/
def ofList [Zero W] [Add W] (l : List (Face × W)) : Table W := ofTally (Tally.empty.addAll l)

theorem find?_ofTally_addAll [Zero W] [Add W] (t : Tally W) (l : List (Face × W)) (f : Face) :
    (ofTally (t.addAll l)).find? f =
      (l.filter (·.1 = f)).foldl (fun old e => some (old.getD 0 + e.2)) ((ofTally t).find? f) := by
  induction l generalizing t with
  | nil => rfl
  | cons e l ih =>
    rw [show t.addAll (e :: l) = (t.add e.1 e.2).addAll l from rfl, ih, find?_ofTally_add]
    by_cases h : e.1 = f
    · subst h; simp
    · simp [h]

/-- A face is listed with the sum of its weights, in the order of the list. -/
theorem find?_ofList [Zero W] [Add W] (l : List (Face × W)) (f : Face) :
    (ofList l).find? f = (l.filter (·.1 = f)).foldl (fun old e => some (old.getD 0 + e.2)) none :=
  find?_ofTally_addAll Tally.empty l f

end Table
end DiceLaw
