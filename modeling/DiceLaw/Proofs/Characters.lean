import DiceLaw.Text
import Mathlib.Data.List.Basic

/-! Characters in a text that is being cleaned. Digits are neither dropped nor changed, and one capital apart every
character becomes a single one; an `n` comes of an `n` in either case and of nothing else. -/
namespace DiceLaw.Text

/-! ### Digits -/

theorem isDigit_iff {c : Char} : isDigit c ↔ 48 ≤ c.toNat ∧ c.toNat ≤ 57 := by
  simp only [isDigit, Bool.and_eq_true, decide_eq_true_eq]
  exact Iff.rfl

theorem isDigit_of_mem_toDigits {k : Nat} {c : Char} (hc : c ∈ Nat.toDigits 10 k) : isDigit c := by
  have h := Nat.isDigit_of_mem_toDigits (by decide) (by decide) hc
  simp only [Char.isDigit, Bool.and_eq_true, decide_eq_true_eq] at h
  exact isDigit_iff.mpr h

theorem isBlank_of_isDigit {c : Char} (h : isDigit c) : isBlank c = false := by
  have hbounds := isDigit_iff.mp h
  simp [isBlank]
  omega

theorem lowercase_of_isDigit {c : Char} (h : isDigit c) : lowercase c = [c] := by
  have hbounds := isDigit_iff.mp h
  have hascii : c.val < 0x80 := UInt32.lt_iff_toNat_lt.mpr (show c.toNat < 128 by omega)
  have hcapital : ¬ (c.val ≥ 'A'.val ∧ c.val ≤ 'Z'.val) := by
    rintro ⟨hcapital, -⟩
    have : 65 ≤ c.toNat := UInt32.le_iff_toNat_le.mp hcapital
    omega
  have hsame : c.toLower = c := dif_neg hcapital
  rw [lowercase, if_pos hascii, hsame]

/-! ### Lower case -/

theorem lowercase_of_mem {a c : Char} (h : a ∈ lowercase c) (hi : a ≠ 'i') (hdot : a ≠ '\u0307') :
    lowercase c = [a] := by
  unfold lowercase at h ⊢
  split at h
  next hascii =>
    rw [if_pos hascii, List.mem_singleton.mp h]
  next hascii =>
    rw [if_neg hascii]
    split at h
    next => simp [hi, hdot] at h
    next hcapital => rw [if_neg hcapital, List.mem_singleton.mp h]

/-- A number that is no code point stands for the first character. -/
theorem toNat_ofNat_eq (k : Nat) : (Char.ofNat k).toNat = k ∨ (Char.ofNat k).toNat = 0 := by
  by_cases hvalid : k.isValidChar
  · have hchar : Char.ofNat k = Char.ofNatAux k hvalid := dif_pos hvalid
    exact .inl (by rw [hchar]; rfl)
  · have hchar : Char.ofNat k = '\x00' := dif_neg hvalid
    exact .inr (by rw [hchar]; rfl)

/-- No row moves a character beyond the first 128 to an `n`. -/
theorem add_lowercaseShift_ne {code : Nat} (h : 128 ≤ code) : ((code : Int) + lowercaseShift code).toNat ≠ 110 := by
  have hrows : (lowercaseRows.all fun row => decide (row.2.1 < 128 ∨ 110 < (row.1 : Int) + row.2.2.2 ∨
      (row.2.1 : Int) + row.2.2.2 < 110)) = true := by decide
  unfold lowercaseShift
  split
  next row hfound =>
    have hrow := List.all_eq_true.mp hrows row (List.mem_of_find?_eq_some hfound)
    have hrange := List.find?_some hfound
    simp only [Bool.and_eq_true, decide_eq_true_eq] at hrow hrange
    omega
  next => omega

theorem mem_lowercase_n {c : Char} : 'n' ∈ lowercase c ↔ c = 'n' ∨ c = 'N' := by
  constructor
  · intro h
    by_cases hascii : c.val < 0x80
    · have hsmall : ∀ k < 128, 'n' ∈ lowercase (Char.ofNat k) → k = 110 ∨ k = 78 := by decide
      have hcode : c.toNat = 110 ∨ c.toNat = 78 :=
        hsmall c.toNat (UInt32.lt_iff_toNat_lt.mp hascii) (by rwa [Char.ofNat_toNat])
      exact hcode.imp (fun hcode => by rw [← Char.ofNat_toNat c, hcode]) fun hcode => by
        rw [← Char.ofNat_toNat c, hcode]
    · have hlarge : 128 ≤ c.toNat := Nat.le_of_not_lt fun hlt => hascii (UInt32.lt_iff_toNat_lt.mpr hlt)
      rw [lowercase, if_neg hascii] at h
      split at h
      next => simp at h
      next =>
        have hcode := congrArg Char.toNat (List.mem_singleton.mp h)
        rcases toNat_ofNat_eq (c.toNat + lowercaseShift c.toNat).toNat with hsame | hzero
        · exact absurd (hsame.symm.trans hcode.symm) (add_lowercaseShift_ne hlarge)
        · rw [hzero] at hcode
          cases hcode
  · rintro (rfl | rfl) <;> decide

end DiceLaw.Text
