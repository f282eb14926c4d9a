import DiceLaw.Proofs.Characters
import DiceLaw.Proofs.Notation.LikeReadings

/-! The places that faults tell. Every one is that of a character of the text itself, none of those dropped, and the
character there is what the fault says of it: what stood in the way, the start of a numeral that has no value, or the
start of a keep selector without a die. -/
namespace DiceLaw.Notation
open Cell

/-! ### Characters and cells -/

/-- A cell is one of the characters that the text's own character at its place becomes. -/
theorem Cell.exists_char_of_mem {text : String} {c : Cell} (h : c ∈ ofText text) :
    ∃ a, text.toList[c.position]? = some a ∧ Text.isBlank a = false ∧ c.char ∈ Text.lowercase a := by
  simp only [ofText, List.mem_flatMap, List.mem_filter, List.mem_map, Bool.not_eq_true'] at h
  obtain ⟨e, ⟨he, hblank⟩, a, ha, rfl⟩ := h
  exact ⟨e.1, List.mem_zipIdx_iff_getElem?.mp he, hblank, ha⟩

theorem Cell.lowercase_of_isNumeric {c : Cell} (hc : c.isNumeric) {a : Char} (ha : c.char ∈ Text.lowercase a) :
    Text.lowercase a = [c.char] :=
  Text.lowercase_of_mem ha (char_ne_of_numeric hc (by decide)) (char_ne_of_numeric hc (by decide))

theorem Cell.noNumeral_dropWhile (s : List Cell) : NoNumeral (s.dropWhile isNumeric) := by
  intro c hc hnumeric
  have hnot := List.head?_dropWhile_not isNumeric s
  rw [Option.mem_def.mp hc] at hnot
  simp [hnumeric] at hnot

/-- All of a run of digits and `n`s: nothing before it or behind it belongs to a numeral. -/
structure Cell.IsRun (cells before run after : List Cell) : Prop where
  cells_eq : cells = before ++ run ++ after
  numeric : ∀ c ∈ run, c.isNumeric
  starts : ∀ c ∈ before.getLast?, ¬ c.isNumeric
  ends : NoNumeral after

/-- What a fault says of the character at the place that it tells. -/
def Fault.Blames (text : String) (n : Int64) (c : Char) : Fault → Prop
  | .unexpectedChar found _ _ => found ∈ Text.lowercase c
  | .malformedNumber number position => ∃ before first others after,
      IsRun (ofText text) before (first :: others) after ∧ first.position = position ∧
        Text.lowercase c = [first.char] ∧
          number = String.ofList (spelling n ['n'] ((first :: others).map Cell.char))
  | .keepTarget _ => Text.lowercase c = ['k']
  | _ => True

/-- The place that a fault tells, if any, is in the text, and the character there is to blame. -/
def Fault.IsPlaced (text : String) (n : Int64) (cause : Fault) : Prop :=
  ∀ p ∈ cause.place?, ∃ c, text.toList[p]? = some c ∧ Text.isBlank c = false ∧ cause.Blames text n c

/-! ### What the reader reaches -/

/-- Cells at which the reader may stand: it never stops within a numeral. -/
structure Cell.Reached (cells s : List Cell) : Prop where
  exists_before : ∃ before, cells = before ++ s ∧ ∀ c ∈ before.getLast?, c.isNumeric → NoNumeral s

namespace Cell.Reached
variable {cells s : List Cell} {c : Cell}

theorem start (cells : List Cell) : Reached cells cells := ⟨[], rfl, by rintro c ⟨⟩⟩

theorem finish (cells : List Cell) : Reached cells [] :=
  ⟨cells, (List.append_nil _).symm, by rintro c - - d ⟨⟩⟩

theorem mem (h : Reached cells (c :: s)) : c ∈ cells := by
  obtain ⟨before, rfl, -⟩ := h
  simp

theorem tail (h : Reached cells (c :: s)) (hc : c.isNumeric = false) : Reached cells s := by
  obtain ⟨before, rfl, -⟩ := h
  refine ⟨before ++ [c], by simp, ?_⟩
  intro d hd hnumeric
  rw [List.getLast?_concat] at hd
  obtain rfl := Option.some.inj hd
  rw [hc] at hnumeric
  cases hnumeric

/-- A numeral found there is a whole run. -/
theorem isRun (h : Reached cells (c :: s)) (hc : c.isNumeric) :
    ∃ before, IsRun cells before (c :: s.takeWhile isNumeric) (s.dropWhile isNumeric) := by
  obtain ⟨before, rfl, hbefore⟩ := h
  refine ⟨before, by simp, ?_, fun d hd hnumeric => hbefore d hd hnumeric c rfl hc, noNumeral_dropWhile s⟩
  intro d hd
  rcases List.mem_cons.mp hd with rfl | hd
  · exact hc
  · exact List.all_eq_true.mp List.all_takeWhile d hd

theorem dropWhile (h : Reached cells (c :: s)) (hc : c.isNumeric) : Reached cells (s.dropWhile isNumeric) := by
  obtain ⟨before, hrun⟩ := h.isRun hc
  exact ⟨_, hrun.cells_eq, fun _ _ _ => hrun.ends⟩

end Cell.Reached

/-! ### Every fault in a tree -/

/-- A text beside itself, read with an eye to the places of its numerals and faults. -/
def placing (text : String) (n : Int64) : Likeness where
  cells s t := s = t ∧ Reached (ofText text) s
  numerals m m' := m = m' ∧ ∃ before first others after, IsRun (ofText text) before (first :: others) after ∧
    m = ⟨(first :: others).map Cell.char, first.position⟩
  faults cause cause' := cause = cause' ∧ cause.IsPlaced text n
  nil := ⟨rfl, .finish _⟩
  eq_nil h := h.1.symm
  cons := by
    rintro c s _ ⟨rfl, hreached⟩
    exact ⟨c, s, rfl, rfl, fun hc => ⟨rfl, rfl, hreached.tail hc⟩⟩
  front := by
    rintro c s _ _ ⟨⟨⟩, hreached⟩ hc
    obtain ⟨before, hrun⟩ := hreached.isRun hc
    exact ⟨⟨rfl, before, c, _, _, hrun, rfl⟩, rfl, hreached.dropWhile hc⟩
  unexpected := by
    rintro s _ e ⟨rfl, hreached⟩
    refine ⟨rfl, ?_⟩
    cases s with
    | nil => rintro p ⟨⟩
    | cons c s =>
      rintro _ ⟨⟩
      exact exists_char_of_mem hreached.mem
  keepTarget := by
    rintro c s _ _ ⟨⟨⟩, hreached⟩ hc
    refine ⟨rfl, ?_⟩
    rintro _ ⟨⟩
    obtain ⟨a, ha, hblank, hmem⟩ := exists_char_of_mem hreached.mem
    rw [hc] at hmem
    exact ⟨a, ha, hblank, Text.lowercase_of_mem hmem (by decide) (by decide)⟩

theorem placing_agrees (text : String) (n : Int64) : (placing text n).Agrees n n where
  value := by
    rintro m _ ⟨rfl, before, first, others, after, hrun, rfl⟩
    unfold Numeral.value
    split
    next => exact .ok rfl
    next =>
      refine .error ⟨rfl, ?_⟩
      rintro _ ⟨⟩
      have hmem : first ∈ ofText text := by
        rw [hrun.cells_eq]
        simp
      obtain ⟨a, ha, hblank, hlower⟩ := exists_char_of_mem hmem
      exact ⟨a, ha, hblank, before, first, others, after, hrun, rfl,
        lowercase_of_isNumeric (hrun.numeric first (by simp)) hlower, rfl⟩
  placeless := by
    intro cause hcause
    refine ⟨rfl, ?_⟩
    intro p hp
    rw [hcause] at hp
    cases hp

variable {W : Type} [Weight W]

/-- A place that is told points into the text, at a character that is not blank and to blame for the fault. -/
theorem evaluate_blames {s : Setting} {text : String} {cause : Fault}
    (h : evaluate s text = (.error cause : Except Fault (Distribution W))) {p : Nat} (hp : p ∈ cause.place?) :
    p < text.length ∧ ∃ c, text.toList[p]? = some c ∧ Text.isBlank c = false ∧ cause.Blames text s.n c := by
  have hparallel : Parallel (placing text s.n).faults Eq (evaluate (W := W) s text) (evaluate s text) :=
    evaluate_like (placing_agrees text s.n) ⟨rfl, .start _⟩
  rw [h] at hparallel
  cases hparallel with
  | error hplaced =>
    obtain ⟨c, hc, hblames⟩ := hplaced.2 p hp
    obtain ⟨hlt, -⟩ := List.getElem?_eq_some_iff.mp hc
    exact ⟨by rwa [String.length_toList] at hlt, c, hc, hblames⟩

/-- A numeral with the sign that its `n` brings is told at its first digit, blanks before and within it counted. -/
theorem evaluate_blames_spliced_sign :
    evaluate (W := Rat) { n := -3 } " 3\u3000d 2N" = .error (.malformedNumber "2-3" 5) ∧
    5 ∈ (Fault.malformedNumber "2-3" 5).place? ∧ 5 < " 3\u3000d 2N".length ∧
    ∃ c, " 3\u3000d 2N".toList[5]? = some c ∧ Text.isBlank c = false ∧
      (Fault.malformedNumber "2-3" 5).Blames " 3\u3000d 2N" (-3) c := by
  have hfault : evaluate (W := Rat) { n := -3 } " 3\u3000d 2N" = .error (.malformedNumber "2-3" 5) :=
    fault?_eq_some.mp (by decide +kernel)
  have hplace : 5 ∈ (Fault.malformedNumber "2-3" 5).place? := rfl
  exact ⟨hfault, hplace, evaluate_blames hfault hplace⟩

end DiceLaw.Notation
