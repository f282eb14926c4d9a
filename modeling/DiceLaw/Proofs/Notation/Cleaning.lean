import DiceLaw.Proofs.Notation.LikeReadings

/-! Places in a text are only ever reported. Cells with the same characters are read as the same tree, with every
place moved along, and so two texts that are the same once cleaned evaluate alike: a fault that tells its place tells
the same place of the cleaned text. -/
namespace DiceLaw.Notation
open Cell

/-! ### Cells moved -/

/-- The second text has the same characters in other places. -/
def relocation (g : Nat → Nat) : Likeness where
  cells s t := t = s.map (relocate g)
  numerals m m' := m' = m.relocate g
  faults cause cause' := cause' = cause.relocate g
  nil := rfl
  eq_nil h := h
  cons := by
    rintro c s _ rfl
    exact ⟨_, _, rfl, rfl, fun _ => ⟨rfl, rfl⟩⟩
  front := by
    rintro c s _ _ ⟨⟩ -
    have hnumeric : isNumeric ∘ relocate g = isNumeric := rfl
    constructor
    · simp [Numeral.front, Numeral.relocate, List.takeWhile_map, hnumeric, Function.comp_def, relocate]
    · simp [List.dropWhile_map, hnumeric]
  unexpected := by
    rintro s _ e rfl
    cases s <;> rfl
  keepTarget := by
    rintro c s _ _ ⟨⟩ -
    rfl

section Trees
variable {g : Nat → Nat}

mutual

theorem Primary.eq_relocate_of_like : ∀ (p : Primary) {p' : Primary}, p.Like (relocation g) p' → p' = p.relocate g
  | .number _, _, .number hm => congrArg Primary.number hm
  | .die _, _, .die hm => congrArg Primary.die hm
  | .halfDie _, _, .halfDie hm => congrArg Primary.halfDie hm
  | .keep _ _ p, _, .keep hm hp => by rw [Primary.relocate, ← p.eq_relocate_of_like hp, ← hm]
  | .group e, _, .group he => by rw [Primary.relocate, ← e.eq_relocate_of_like he]
  | .broken _, _, .broken hcause => congrArg Primary.broken hcause

theorem Term.eq_relocate_of_like : ∀ (t : Term) {t' : Term}, t.Like (relocation g) t' → t' = t.relocate g
  | .one p, _, .one hp => by rw [Term.relocate, ← p.eq_relocate_of_like hp]
  | .copies t p, _, .copies ht hp => by rw [Term.relocate, ← t.eq_relocate_of_like ht, ← p.eq_relocate_of_like hp]

theorem Branch.eq_relocate_of_like : ∀ (b : Branch) {b' : Branch}, b.Like (relocation g) b' → b' = b.relocate g
  | .whole, _, .whole | .half, _, .half => rfl
  | .own t, _, .own ht => by rw [Branch.relocate, ← t.eq_relocate_of_like ht]

theorem Crit.eq_relocate_of_like : ∀ (c : Crit) {c' : Crit}, c.Like (relocation g) c' → c' = c.relocate g
  | .absent, _, .absent => rfl
  | .one b, _, .one hb => by rw [Crit.relocate, ← b.eq_relocate_of_like hb]
  | .many _ b, _, .many hm hb => by rw [Crit.relocate, ← b.eq_relocate_of_like hb, ← hm]
  | .broken _, _, .broken hcause => congrArg Crit.broken hcause

theorem Save.eq_relocate_of_like : ∀ (c : Save) {c' : Save}, c.Like (relocation g) c' → c' = c.relocate g
  | .absent, _, .absent => rfl
  | .one b, _, .one hb => by rw [Save.relocate, ← b.eq_relocate_of_like hb]
  | .broken _, _, .broken hcause => congrArg Save.broken hcause

theorem Argument.eq_relocate_of_like :
    ∀ (a : Argument) {a' : Argument}, a.Like (relocation g) a' → a' = a.relocate g
  | .itself, _, .itself => rfl
  | .own t, _, .own ht => by rw [Argument.relocate, ← t.eq_relocate_of_like ht]

theorem Expression.eq_relocate_of_like :
    ∀ (e : Expression) {e' : Expression}, e.Like (relocation g) e' → e' = e.relocate g
  | .term t, _, .term ht => by rw [Expression.relocate, ← t.eq_relocate_of_like ht]
  | .apply left _ argument _ crit save, _, .apply hleft hargument hcrit hsave => by
    rw [Expression.relocate, ← left.eq_relocate_of_like hleft, ← argument.eq_relocate_of_like hargument,
      ← crit.eq_relocate_of_like hcrit, ← save.eq_relocate_of_like hsave]
  | .broken left _, _, .broken hleft hcause => by
    rw [Expression.relocate, ← left.eq_relocate_of_like hleft, ← hcause]

end
end Trees

/-- The same characters in other places are read as the same tree, moved with them. -/
theorem Expression.ofCells_relocate (g : Nat → Nat) (cells : List Cell) :
    Expression.ofCells (cells.map (Cell.relocate g)) = (Expression.ofCells cells).relocate g :=
  Expression.eq_relocate_of_like _ (Likeness.ofCells_like (L := relocation g) rfl)

/-! ### Whole texts -/

theorem Fault.eq_of_relocate_eq_self {g : Nat → Nat} {cause : Fault} (h : cause.relocate g = cause) {p : Nat}
    (hp : p ∈ cause.place?) : g p = p := by
  cases cause <;> simp_all [place?, relocate]

namespace Cell

/-- The characters of a text but the blank ones, in lower case. -/
def cleaned (text : String) : List Char := (text.toList.filter fun c => !Text.isBlank c).flatMap Text.lowercase

theorem map_char_ofText (text : String) : (ofText text).map char = cleaned text := by
  have hchars : (text.toList.zipIdx.filter fun e => !Text.isBlank e.1).map Prod.fst =
      text.toList.filter fun c => !Text.isBlank c := by
    have hmap := List.filter_map (p := fun c => !Text.isBlank c) (f := Prod.fst) (l := text.toList.zipIdx)
    rw [List.zipIdx_map_fst] at hmap
    exact hmap.symm
  rw [ofText, cleaned, ← hchars, List.map_flatMap, List.flatMap_map]
  simp [Function.comp_def]

/-- Where in the text the character stands that the cleaned text has at an index. -/
def place (text : String) (i : Nat) : Nat := ((ofText text)[i]?.map position).getD 0

/-- Characters in the places of their indices. -/
def numbered (cs : List Char) : List Cell := cs.mapIdx fun i c => ⟨c, i⟩

theorem ofText_eq_relocate (text : String) : ofText text = (numbered (cleaned text)).map (relocate (place text)) := by
  rw [← map_char_ofText]
  refine List.ext_getElem (by simp [numbered]) fun i hi _ => ?_
  simp [numbered, relocate, place, hi]

/-- A move that keeps all indices keeps these cells. -/
theorem relocate_numbered {g : Nat → Nat} {cs : List Char} (h : ∀ i < cs.length, g i = i) :
    (numbered cs).map (relocate g) = numbered cs := by
  refine List.ext_getElem (by simp) fun i hi _ => ?_
  have hg := h i (by simpa [numbered] using hi)
  simp [numbered, relocate, hg]

end Cell

variable {W : Type} [Weight W]

theorem evaluate_eq_numbered (s : Setting) (text : String) :
    (evaluate s text : Except Fault (Distribution W)) =
      ((Expression.ofCells (Cell.numbered (Cell.cleaned text))).eval s 0).mapError
        (Fault.relocate (Cell.place text)) := by
  rw [evaluate, Expression.ofText, Cell.ofText_eq_relocate, Expression.ofCells_relocate, Expression.eval_relocate]

/-- A fault is found at one of the characters read. -/
theorem place_lt_of_eval_numbered {s : Setting} {cs : List Char} {cause : Fault}
    (h : (Expression.ofCells (Cell.numbered cs)).eval s 0 = (.error cause : Except Fault (Distribution W))) :
    ∀ i ∈ cause.place?, i < cs.length := by
  intro i hi
  -- Moving all places but the indices changes no cell, so the fault has none of those places.
  let beyond (i : Nat) : Nat := if i < cs.length then i else i + 1
  have hsame : (Cell.numbered cs).map (Cell.relocate beyond) = Cell.numbered cs :=
    Cell.relocate_numbered fun i hi => if_pos hi
  have hmoved := h
  rw [← hsame, Expression.ofCells_relocate, Expression.eval_relocate, h] at hmoved
  have hi := Fault.eq_of_relocate_eq_self (Except.error.inj hmoved) hi
  by_contra hlt
  simp only [beyond, if_neg hlt] at hi
  omega

/-- Blanks and capitals do not show. Two texts that are the same once cleaned have the same distribution, with the
same note, or the same fault up to its place. What place it tells is that of one character of the cleaned text, the
same for both, looked up in the one text and in the other. -/
theorem evaluate_of_cleaned_eq {a b : String} (h : Cell.cleaned a = Cell.cleaned b) (s : Setting) :
    (∃ d : Distribution W, evaluate s a = .ok d ∧ evaluate s b = .ok d) ∨
    ∃ cause : Fault, (∀ i ∈ cause.place?, i < (Cell.cleaned a).length) ∧
      evaluate (W := W) s a = .error (cause.relocate (Cell.place a)) ∧
      evaluate (W := W) s b = .error (cause.relocate (Cell.place b)) := by
  have ha := evaluate_eq_numbered (W := W) s a
  have hb := evaluate_eq_numbered (W := W) s b
  rw [← h] at hb
  cases hcells : (Expression.ofCells (Cell.numbered (Cell.cleaned a))).eval (W := W) s 0 with
  | ok d =>
    rw [hcells] at ha hb
    exact .inl ⟨d, ha, hb⟩
  | error cause =>
    rw [hcells] at ha hb
    exact .inr ⟨cause, place_lt_of_eval_numbered hcells, ha, hb⟩

/-- One capital becomes two characters: the fault is found at the first of them, wherever that stands. -/
theorem evaluate_of_cleaned_eq_dotted : Cell.cleaned "D20 + \u0130" = Cell.cleaned "d20+i\u0307" ∧
    ∃ cause : Fault, evaluate (W := Rat) {} "D20 + \u0130" = .error (cause.relocate (Cell.place "D20 + \u0130")) ∧
      evaluate (W := Rat) {} "d20+i\u0307" = .error (cause.relocate (Cell.place "d20+i\u0307")) ∧
      Cell.place "D20 + \u0130" 4 = 6 ∧ Cell.place "d20+i\u0307" 4 = 4 := by
  have hcleaned : Cell.cleaned "D20 + \u0130" = Cell.cleaned "d20+i\u0307" := by decide +kernel
  obtain ⟨d, hd, -⟩ | ⟨cause, -, ha, hb⟩ := evaluate_of_cleaned_eq (W := Rat) hcleaned {}
  · have hfails : (evaluate (W := Rat) {} "D20 + \u0130").toOption.isSome = false := by decide +kernel
    rw [hd] at hfails
    cases hfails
  · exact ⟨hcleaned, cause, ha, hb, by decide +kernel, by decide +kernel⟩

end DiceLaw.Notation
