import DiceLaw.Distribution
import DiceLaw.Random

/-! What is read out of a finished distribution: its total and average, the chance of each face, and faces at random. -/
namespace DiceLaw
namespace Distribution
variable {W : Type} [Weight W]

/-- Each weight over the total; all zero when the total is. -/
def shares (d : Distribution W) : Distribution W :=
  let total := d.total
  { d with table := d.table.mapWeights fun w => if total == 0 then 0 else w / total }

/-- The weighted mean of the numbers over the total weight, labels included; zero when that is. -/
def average (d : Distribution W) : W :=
  if d.total == 0 then 0
  else Weight.sum (d.numbers.map fun e => Weight.ofInt64 e.1 * e.2) / d.total

def outcomes (d : Distribution W) : List (Face × W) := d.shares.table.entries

end Distribution

/-- The read-out handed to whatever displays it. -/
structure Summary (W : Type) where
  total : W
  average : W
  outcomes : List (Face × W)

namespace Summary
variable {W : Type} [Weight W]

def ofDistribution (d : Distribution W) : Summary W := ⟨d.total, d.average, d.outcomes⟩

/-- The chance of a face, zero when it has no row. -/
def chance (s : Summary W) (f : Face) : W := ((s.outcomes.find? (·.1 = f)).map (·.2)).getD 0

end Summary

/-! ### Rolls

One random word names a point between zero and the total weight; the face is the one whose stretch of the cumulated
weights holds the point. -/

namespace Distribution
variable {W : Type} [Weight W]

/-- Walks up the cumulated weights, `reached` at `e`, to the first that exceeds `point`. The last
entry takes what rounding may leave over. -/
def entryAt (point reached : W) (e : Face × W) : List (Face × W) → Face
  | [] => e.1
  | next :: rest => if point < reached then e.1 else entryAt point (reached + next.2) next rest

/-- The upper 52 bits of a word as a fraction of one. -/
def fraction (word : UInt64) : W :=
  Weight.ofInt64 (word >>> 12).toInt64 / Weight.ofInt64 4503599627370496

/-- What fractions are multiplied by, so that no point reaches the total. It is the total, or the weight
before it where even the largest fraction is rounded up to the whole. -/
def span (total : W) : W := if fraction 18446744073709551615 * total < total then total else Weight.predecessor total

/-- The face for each word. There is none without entries, with a weight that is not at least zero, with total zero,
or with a total that is not finite. -/
def roller? (d : Distribution W) : Option (UInt64 → Face) :=
  match d.table.entries with
  | [] => none
  | e :: rest =>
    let total := d.total
    if d.table.entries.all (fun e => 0 ≤ e.2) && !(total == 0) && Weight.isFinite total then
      let span := span total
      some fun word => entryAt (fraction word * span) e.2 e rest
    else none

/-- As many faces as asked for, each from one word. Where nothing can come up no word is taken. -/
def rolls (d : Distribution W) (count : Nat) (s : WordStream) : List Face × WordStream :=
  match d.roller? with
  | none => ([], s)
  | some face => ((s.take count).1.map face, (s.take count).2)

/-- Some face is listed, none weighs less than nothing, and the total is not zero. -/
def Weighted (d : Distribution W) : Prop :=
  d.table.entries ≠ [] ∧ (∀ e ∈ d.table.entries, 0 ≤ e.2) ∧ (d.total == 0) = false

instance (d : Distribution W) : Decidable d.Weighted :=
  inferInstanceAs (Decidable (d.table.entries ≠ [] ∧ (∀ e ∈ d.table.entries, 0 ≤ e.2) ∧ (d.total == 0) = false))

/-- A face can come up. -/
def Rollable (d : Distribution W) : Prop := d.Weighted ∧ Weight.isFinite d.total = true

instance (d : Distribution W) : Decidable d.Rollable := inferInstanceAs (Decidable (_ ∧ _))

/-- There are weights to draw from, but their total has grown past all finite ones. -/
def Overweight (d : Distribution W) : Prop := d.Weighted ∧ Weight.isFinite d.total = false

instance (d : Distribution W) : Decidable d.Overweight := inferInstanceAs (Decidable (_ ∧ _))

/-- Faces as asked for, or none where the run stops: no point can be named below a total that is not finite. -/
def rolls? (d : Distribution W) (count : Nat) (s : WordStream) : Option (List Face × WordStream) :=
  if count ≠ 0 ∧ d.Overweight then none else some (d.rolls count s)

theorem isSome_roller?_iff (d : Distribution W) : d.roller?.isSome ↔ d.Rollable := by
  rw [roller?, Rollable, Weighted]
  split
  next hnil => simp [hnil]
  next e rest hentries =>
    simp only
    split
    next h => simpa [hentries, and_assoc] using h
    next h => simpa [hentries, and_assoc] using h

theorem rolls_of_roller? {d : Distribution W} {face : UInt64 → Face} (h : d.roller? = some face) (count : Nat)
    (s : WordStream) : d.rolls count s = ((s.take count).1.map face, (s.take count).2) := by
  rw [rolls, h]

theorem rolls_of_rollable {d : Distribution W} (h : d.Rollable) :
    ∃ face : UInt64 → Face, ∀ count s, d.rolls count s = ((s.take count).1.map face, (s.take count).2) := by
  obtain ⟨face, hface⟩ := Option.isSome_iff_exists.mp (d.isSome_roller?_iff.mpr h)
  exact ⟨face, rolls_of_roller? hface⟩

theorem rolls_of_not_rollable {d : Distribution W} (h : ¬ d.Rollable) (count : Nat) (s : WordStream) :
    d.rolls count s = ([], s) := by
  have hnone : d.roller? = none := Option.not_isSome_iff_eq_none.mp (mt d.isSome_roller?_iff.mp h)
  rw [rolls, hnone]

/-- Faces rolled in two goes are those rolled in one. -/
theorem rolls_add (d : Distribution W) (a b : Nat) (s : WordStream) :
    d.rolls (a + b) s =
      ((d.rolls a s).1 ++ (d.rolls b (d.rolls a s).2).1, (d.rolls b (d.rolls a s).2).2) := by
  by_cases h : d.Rollable
  · obtain ⟨face, hface⟩ := rolls_of_rollable h
    simp only [hface, WordStream.take_add, List.map_append]
  · simp only [rolls_of_not_rollable h, List.append_nil]

theorem not_rollable_of_overweight {d : Distribution W} (h : d.Overweight) : ¬ d.Rollable := by
  rintro ⟨-, hfinite⟩
  rw [h.2] at hfinite
  cases hfinite

theorem eq_rolls_of_rolls? {d : Distribution W} {count : Nat} {s : WordStream} {r : List Face × WordStream}
    (h : d.rolls? count s = some r) : d.rolls count s = r := by
  rw [rolls?] at h
  split at h
  · cases h
  · exact Option.some.inj h

theorem rolls?_of_not_overweight {d : Distribution W} (h : ¬ d.Overweight) (count : Nat) (s : WordStream) :
    d.rolls? count s = some (d.rolls count s) := if_neg fun hstops => h hstops.2

/-- Of a total that is not finite no face can be asked for. -/
theorem rolls?_of_overweight {d : Distribution W} (h : d.Overweight) (count : Nat) (s : WordStream) :
    d.rolls? count s = if count = 0 then some ([], s) else none := by
  rw [rolls?, rolls_of_not_rollable (not_rollable_of_overweight h)]
  split
  next hstops => rw [if_neg hstops.1]
  next hstops => rw [if_pos (Decidable.not_not.mp fun hcount => hstops ⟨hcount, h⟩)]

end Distribution
end DiceLaw
