import DiceLaw.Proofs.Characters
import DiceLaw.Proofs.Notation.Cleaning

/-! The letter `n` is nothing but digits to come. Written out in the text before it is read, they give the same
distribution, or the same kind of fault, as a letter that is looked up once its numeral is complete. -/
namespace DiceLaw.Notation
open Cell

/-! ### Texts -/

/-- A text with the digits of a number in place of every `n`, capital or not. -/
def spelledOut (n : Int64) (text : String) : String := String.ofList (spelling n ['n', 'N'] text.toList)

/-- A digit, or the letter that stands for digits. -/
def Numeral.admits (c : Char) : Bool := Text.isDigit c || c == 'n'

theorem notMem_of_not_admits {c : Char} (hc : ¬ Numeral.admits c) : c ∉ ['n'] := by
  intro hn
  obtain rfl := List.mem_singleton.mp hn
  exact hc (by decide)

section Digits
variable {n : Int64} (hn : 0 ≤ n)
include hn

theorem toList_toString : (toString n.toInt).toList = Nat.toDigits 10 n.toInt.toNat := by
  have hnonneg : 0 ≤ n.toInt := Int64.le_iff_toInt_le.mp hn
  obtain ⟨k, hk⟩ := Int.eq_ofNat_of_zero_le hnonneg
  rw [hk, Int.toNat_natCast]
  exact Nat.toList_repr

theorem isDigit_of_mem_toString {c : Char} (hc : c ∈ (toString n.toInt).toList) : Text.isDigit c :=
  Text.isDigit_of_mem_toDigits (toList_toString hn ▸ hc)

theorem toString_ne_nil : (toString n.toInt).toList ≠ [] := by
  rw [toList_toString hn]
  exact Nat.toDigits_ne_nil

/-- No letter is left to be spelled. -/
theorem notMem_of_mem_spelling {cs : List Char} {a : Char} (ha : a ∈ spelling n ['n'] cs) : a ∉ ['n'] := by
  obtain ⟨c, -, ha⟩ := List.mem_flatMap.mp ha
  rw [spell] at ha
  split at ha
  next =>
    intro hletter
    obtain rfl := List.mem_singleton.mp hletter
    exact absurd (isDigit_of_mem_toString hn ha) (by decide)
  next hc => rwa [List.mem_singleton.mp ha]

/-- A single character is cleaned and spelled in either order. -/
theorem clean_spelled (c : Char) :
    ((spell n ['n', 'N'] c).filter fun a => !Text.isBlank a).flatMap Text.lowercase =
      spelling n ['n'] (([c].filter fun a => !Text.isBlank a).flatMap Text.lowercase) := by
  rw [spell]
  split
  next hc =>
    have hdigits (a : Char) (ha : a ∈ (toString n.toInt).toList) := isDigit_of_mem_toString hn ha
    rw [List.filter_eq_self.mpr fun a ha => by rw [Text.isBlank_of_isDigit (hdigits a ha)]; rfl,
      List.flatMap_congr fun a ha => Text.lowercase_of_isDigit (hdigits a ha), List.flatMap_singleton']
    have hletter : c = 'n' ∨ c = 'N' := by simpa using hc
    rcases hletter with rfl | rfl <;> exact (List.append_nil _).symm
  next hc =>
    refine (spelling_of_notMem n fun a ha hletter => hc ?_).symm
    obtain ⟨b, hb, hab⟩ := List.mem_flatMap.mp ha
    obtain rfl := List.mem_singleton.mp (List.mem_of_mem_filter hb)
    obtain rfl := List.mem_singleton.mp hletter
    simpa using Text.mem_lowercase_n.mp hab

theorem cleaned_spelledOut (text : String) : cleaned (spelledOut n text) = spelling n ['n'] (cleaned text) := by
  rw [cleaned, cleaned, spelledOut, String.toList_ofList]
  induction text.toList with
  | nil => rfl
  | cons c cs ih =>
    rw [spelling_cons, List.filter_append, List.flatMap_append, ih, clean_spelled hn, ← spelling_append,
      ← List.flatMap_append, ← List.filter_append, List.singleton_append]

/-! ### Numerals in a spelled text -/

theorem admits_spell {c : Char} (hc : Numeral.admits c) : ∀ a ∈ spell n ['n'] c, Numeral.admits a := by
  intro a ha
  rw [spell] at ha
  split at ha
  next => rw [Numeral.admits, isDigit_of_mem_toString hn ha, Bool.true_or]
  next => rwa [List.mem_singleton.mp ha]

theorem takeWhile_spelled (cs : List Char) :
    (spelling n ['n'] cs).takeWhile Numeral.admits = spelling n ['n'] (cs.takeWhile Numeral.admits) := by
  induction cs with
  | nil => rfl
  | cons c cs ih =>
    by_cases hc : Numeral.admits c
    · rw [spelling_cons, List.takeWhile_append_of_pos (admits_spell hn hc), ih, List.takeWhile_cons_of_pos hc,
        spelling_cons]
    · rw [spelling_cons, spell_of_notMem n (notMem_of_not_admits hc), List.singleton_append,
        List.takeWhile_cons_of_neg hc, List.takeWhile_cons_of_neg hc]
      rfl

theorem dropWhile_spelled (cs : List Char) :
    (spelling n ['n'] cs).dropWhile Numeral.admits = spelling n ['n'] (cs.dropWhile Numeral.admits) := by
  induction cs with
  | nil => rfl
  | cons c cs ih =>
    by_cases hc : Numeral.admits c
    · rw [spelling_cons, List.dropWhile_append_of_pos (admits_spell hn hc), ih, List.dropWhile_cons_of_pos hc]
    · rw [spelling_cons, spell_of_notMem n (notMem_of_not_admits hc), List.singleton_append,
        List.dropWhile_cons_of_neg hc, List.dropWhile_cons_of_neg hc, spelling_cons,
        spell_of_notMem n (notMem_of_not_admits hc), List.singleton_append]

end Digits

/-! ### The two readings -/

/-- The same fault with the same data, wherever it was found and whatever character stood there. -/
inductive Fault.SameKind : Fault → Fault → Prop where
  | unexpectedChar {found found' position position' expected} :
      SameKind (.unexpectedChar found position expected) (.unexpectedChar found' position' expected)
  | malformedNumber {text position position'} :
      SameKind (.malformedNumber text position) (.malformedNumber text position')
  | keepTarget {position position'} : SameKind (.keepTarget position) (.keepTarget position')
  | placeless {cause} : cause.place? = none → SameKind cause cause

section Spelled
variable {n : Int64} (hn : 0 ≤ n)
include hn

theorem exists_cons_of_spelled {c : Cell} {s t : List Cell}
    (h : t.map Cell.char = spelling n ['n'] ((c :: s).map Cell.char)) :
    ∃ d t', t = d :: t' ∧ d.isNumeric = c.isNumeric ∧
      (c.isNumeric = false → d.char = c.char ∧ t'.map Cell.char = spelling n ['n'] (s.map Cell.char)) := by
  rw [List.map_cons, spelling_cons] at h
  by_cases hc : c.char ∈ ['n']
  · obtain ⟨a, as, hdigits⟩ := List.exists_cons_of_ne_nil (toString_ne_nil hn)
    rw [spell, if_pos hc, hdigits] at h
    obtain ⟨d, t', rfl, hd, -⟩ := List.map_eq_cons_iff.mp h
    have hdigit : Text.isDigit d.char := isDigit_of_mem_toString hn (by rw [hd, hdigits]; exact List.mem_cons_self ..)
    have hnumeric : c.isNumeric = true := by rw [Cell.isNumeric, List.mem_singleton.mp hc]; rfl
    refine ⟨d, t', rfl, by rw [hnumeric, Cell.isNumeric, hdigit]; rfl, fun hfalse => ?_⟩
    rw [hnumeric] at hfalse
    cases hfalse
  · rw [spell_of_notMem n hc, List.singleton_append] at h
    obtain ⟨d, t', rfl, hd, ht⟩ := List.map_eq_cons_iff.mp h
    exact ⟨d, t', rfl, by rw [Cell.isNumeric, Cell.isNumeric, hd], fun _ => ⟨hd, ht⟩⟩

variable (n) in
/-- A text beside the same text with the digits of `n` written out. -/
def spelled : Likeness where
  cells s t := t.map Cell.char = spelling n ['n'] (s.map Cell.char)
  numerals m m' := m'.symbols = m.text n
  faults := Fault.SameKind
  nil := rfl
  eq_nil h := List.map_eq_nil_iff.mp h
  cons h := exists_cons_of_spelled hn h
  front := by
    intro c s d t h hc
    have hnumeric : Cell.isNumeric = Numeral.admits ∘ Cell.char := rfl
    obtain ⟨d', t', heq, hd, -⟩ := exists_cons_of_spelled hn h
    obtain ⟨rfl, rfl⟩ := List.cons.inj heq
    rw [hc] at hd
    have htake := takeWhile_spelled hn ((c :: s).map Cell.char)
    have hdrop := dropWhile_spelled hn ((c :: s).map Cell.char)
    rw [← h, List.takeWhile_map, List.takeWhile_map, ← hnumeric, List.takeWhile_cons_of_pos hc,
      List.takeWhile_cons_of_pos hd] at htake
    rw [← h, List.dropWhile_map, List.dropWhile_map, ← hnumeric, List.dropWhile_cons_of_pos hc,
      List.dropWhile_cons_of_pos hd] at hdrop
    exact ⟨htake, hdrop⟩
  unexpected := by
    intro s t e h
    cases s with
    | nil =>
      obtain rfl := List.map_eq_nil_iff.mp h
      exact .placeless rfl
    | cons c s =>
      obtain ⟨d, t', rfl, -⟩ := exists_cons_of_spelled hn h
      exact .unexpectedChar
  keepTarget _ _ := .keepTarget

/-- No letter is left in a numeral that is written out, so no number is asked for. -/
theorem spelled_agrees (m : Int64) : (spelled n hn).Agrees n m where
  value := by
    intro u v (huv : v.symbols = u.text n)
    have htext : v.text m = u.text n := by
      rw [Numeral.text, huv]
      exact spelling_of_notMem m fun a ha => notMem_of_mem_spelling hn ha
    rw [Numeral.value, Numeral.value, htext]
    cases Text.readInt64? (u.text n) with
    | some v => exact .ok rfl
    | none => exact .error .malformedNumber
  placeless := .placeless

end Spelled

variable {W : Type} [Weight W]

/-- With the digits of `n` written out a text has the same distribution, with the same note, whatever number is
given for `n` then, and where it has none the same kind of fault. -/
theorem evaluate_spelledOut (limits : Limits) {n : Int64} (hn : 0 ≤ n) (m : Int64) (text : String) :
    (∀ d : Distribution W, evaluate ⟨limits, n⟩ text = .ok d ↔ evaluate ⟨limits, m⟩ (spelledOut n text) = .ok d) ∧
    ∀ cause : Fault, evaluate (W := W) ⟨limits, n⟩ text = .error cause →
      ∃ cause' : Fault, evaluate (W := W) ⟨limits, m⟩ (spelledOut n text) = .error cause' ∧ cause.SameKind cause' := by
  have hcells : (spelled n hn).cells (ofText text) (ofText (spelledOut n text)) := by
    change (ofText (spelledOut n text)).map Cell.char = spelling n ['n'] ((ofText text).map Cell.char)
    rw [map_char_ofText, map_char_ofText, cleaned_spelledOut hn]
  have hparallel : Parallel Fault.SameKind Eq (evaluate (W := W) ⟨limits, n⟩ text)
      (evaluate ⟨limits, m⟩ (spelledOut n text)) := evaluate_like (spelled_agrees hn m) hcells
  generalize evaluate (W := W) ⟨limits, n⟩ text = x, evaluate (W := W) ⟨limits, m⟩ (spelledOut n text) = y
    at hparallel ⊢
  cases hparallel with
  | ok hsame =>
    refine ⟨fun d => by rw [hsame], ?_⟩
    rintro cause ⟨⟩
  | @error cause cause' hkind =>
    refine ⟨fun d => iff_of_false ?_ ?_, ?_⟩
    · rintro ⟨⟩
    · rintro ⟨⟩
    · rintro _ ⟨⟩
      exact ⟨cause', rfl, hkind⟩

/-- Letters are spliced in as a count, as sides and as a digit. Behind `k` a letter is refused as its digit is. -/
theorem evaluate_spelledOut_kept_dice :
    (0 : Int64) ≤ 2 ∧
    (∃ d : Distribution Rat, evaluate ⟨{}, 2⟩ "Nkh1 dn + 1n" = .ok d ∧ evaluate ⟨{}, 7⟩ "2kh1 d2 + 12" = .ok d) ∧
    ∃ cause, evaluate (W := Rat) ⟨{}, 7⟩ "d6 + k2" = .error cause ∧
      Fault.SameKind (.unexpectedChar 'n' 6 .keepEnd) cause := by
  have hn : (0 : Int64) ≤ 2 := by decide
  have hkept : spelledOut 2 "Nkh1 dn + 1n" = "2kh1 d2 + 12" := by decide +kernel
  have hrefused : spelledOut 2 "d6 + kn" = "d6 + k2" := by decide +kernel
  obtain ⟨d, hd⟩ := Option.isSome_iff_exists.mp
    (show (evaluate (W := Rat) ⟨{}, 2⟩ "Nkh1 dn + 1n").toOption.isSome = true by decide +kernel)
  have hd := toOption_eq_some.mp hd
  have hfault : evaluate (W := Rat) ⟨{}, 2⟩ "d6 + kn" = .error (.unexpectedChar 'n' 6 .keepEnd) :=
    fault?_eq_some.mp (by decide +kernel)
  refine ⟨hn, ⟨d, hd, ?_⟩, ?_⟩
  · exact hkept ▸ ((evaluate_spelledOut {} hn 7 "Nkh1 dn + 1n").1 d).mp hd
  · exact hrefused ▸ (evaluate_spelledOut {} hn 7 "d6 + kn").2 _ hfault

end DiceLaw.Notation
