import DiceLaw.Proofs.Notation.Steps

/-! What the reader accepts is derived by the grammar. A tree without a fault in it is a derivation of the
cells it was read off, up to those left over. -/
namespace DiceLaw.Notation

/-! ### Trees without faults -/

mutual

/-- No fault stands anywhere in the tree. -/
def Primary.Intact : Primary → Prop
  | .number _ | .die _ | .halfDie _ => True
  | .keep _ _ target => target.Intact
  | .group inner => inner.Intact
  | .broken _ => False

def Term.Intact : Term → Prop
  | .one first => first.Intact
  | .copies counts die => counts.Intact ∧ die.Intact

def Branch.Intact : Branch → Prop
  | .whole | .half => True
  | .own argument => argument.Intact

def Crit.Intact : Crit → Prop
  | .absent => True
  | .one branch | .many _ branch => branch.Intact
  | .broken _ => False

def Save.Intact : Save → Prop
  | .absent => True
  | .one branch => branch.Intact
  | .broken _ => False

def Argument.Intact : Argument → Prop
  | .itself => True
  | .own argument => argument.Intact

def Expression.Intact : Expression → Prop
  | .term first => first.Intact
  | .apply left _ argument _ crit save => left.Intact ∧ argument.Intact ∧ crit.Intact ∧ save.Intact
  | .broken _ _ => False

end

/-! ### Leaves -/

theorem Word.cons {c : Cell} {w : List Char} {s rest : List Cell} (h : Word w s rest) :
    Word (c.char :: w) (c :: s) rest := by
  obtain ⟨front, hw, rfl⟩ := h
  exact ⟨c :: front, by simp [hw], rfl⟩

theorem word_nil_iff {s rest : List Cell} : Word [] s rest ↔ s = rest := by
  simp [Word]

theorem Word.nil (s : List Cell) : Word [] s s := word_nil_iff.mpr rfl

theorem numeral_sound {s : List Cell} {r : Reading Numeral s.length} (h : numeral s = .ok r) :
    r.value.Derives s r.rest := by
  cases s with
  | nil => cases h
  | cons c s =>
    rw [numeral] at h
    split at h
    next hc =>
      cases h
      refine ⟨c, s.takeWhile Cell.isNumeric, ?_, ?_, by simp, rfl⟩
      · intro d hd
        rcases List.mem_cons.mp hd with rfl | hd
        · exact hc
        · exact List.all_eq_true.mp List.all_takeWhile d hd
      · intro d hd hn
        have hnot := List.head?_dropWhile_not Cell.isNumeric s
        rw [Option.mem_def.mp hd] at hnot
        simp [hn] at hnot
    next => cases h

theorem die?_sound {s : List Cell} {r : Reading Primary s.length} (h : die? s = some r) :
    r.value.Derives s r.rest := by
  unfold die? at h
  split at h
  next c d s =>
    split at h
    next hc =>
      split at h
      next sides after hl hn =>
        cases h
        exact .die (hc ▸ (Word.nil _).cons) (numeral_sound hn)
      next => cases h
    next =>
      split at h
      next hc =>
        split at h
        next sides after hl hn =>
          cases h
          exact .halfDie (hc.1 ▸ hc.2 ▸ (Word.nil _).cons.cons) (numeral_sound hn)
        next => cases h
      next => cases h
  next => cases h

theorem halved_sound {s rest : List Cell} {b : Bool} (h : (halved s).pair = (b, rest)) :
    Halved b s rest := by
  rw [pair_halved] at h
  split at h
  next hw => cases h; exact keyword_eq_ok.mp hw
  next => cases h; exact rfl

theorem operator?_sound {s : List Cell} {r : Reading Operator s.length} (h : operator? s = some (.ok r)) :
    Word r.value.word s r.rest := by
  rw [operator?] at h
  split at h
  next => cases h
  next =>
    split at h
    next rest hw =>
      cases h
      exact keyword_eq_ok.mp hw
    next => cases h

/-! ### Trees

One bound serves all readers: below it primaries are known to be read soundly, which the readers built on
them inherit, and an expression in parentheses is shorter than its primary. -/

section Inherited
variable {n : Nat} (hP : ∀ s : List Cell, s.length < n → ∀ r, primary? s = some r → r.value.Intact →
  r.value.Derives s r.rest)
include hP

theorem copies_sound {s : List Cell} (hs : s.length < n) {start : List Cell} {t : Term}
    (ht : t.Intact → t.Derives start s) {u : Term} {rest : List Cell} (h : (copies t s).pair = (u, rest))
    (hu : u.Intact) : u.Derives start rest := by
  induction hl : s.length using Nat.strongRecOn generalizing s t with
  | ind k ih =>
    rw [pair_copies] at h
    split at h
    next r hr =>
      have hlt := r.shorter
      exact ih r.rest.length (by omega) (by omega) (fun hi => .copies (ht hi.1) (hP s hs r hr hi.2)) h rfl
    next => cases h; exact ht hu

theorem term?_sound {s : List Cell} (hs : s.length < n) {r : Reading Term s.length}
    (h : term? s = some r) (hr : r.value.Intact) : r.value.Derives s r.rest := by
  have hp := pair_term? s
  rw [h] at hp
  cases hf : primary? s with
  | none => rw [hf] at hp; cases hp
  | some first =>
    rw [hf] at hp
    have hlt := first.shorter
    exact copies_sound hP (by omega) (fun hi => .one (hP s hs first hf hi)) (Option.some.inj hp).symm hr

theorem branch_sound {s : List Cell} (hs : s.length < n) {b : Branch} {rest : List Cell}
    (h : (branch s).pair = (b, rest)) (hb : b.Intact) : b.Derives s rest := by
  rw [pair_branch] at h
  split at h
  next hv =>
    cases h
    have hw := halved_sound (s := s) rfl
    rw [hv] at hw
    exact .half hw
  next =>
    split at h
    next r hr => cases h; exact .own (term?_sound hP hs hr hb)
    next => cases h; exact .whole

theorem argument_sound {op : Operator} {s : List Cell} (hs : s.length < n) {a : Argument}
    {rest : List Cell} (h : (argument op s).pair = (a, rest)) (ha : a.Intact) :
    Argument.Derives op a s rest := by
  rw [pair_argument] at h
  split at h
  next hu => cases h; exact .itself hu
  next hu =>
    split at h
    next r hr => cases h; exact .own hu (term?_sound hP hs hr ha)
    next => cases h; exact ha.elim

theorem crit_sound {s : List Cell} (hs : s.length < n) {c : Crit} {rest : List Cell}
    (h : (crit s).pair = (c, rest)) (hc : c.Intact) : c.Derives s rest := by
  cases s with
  | nil => rw [crit] at h; cases h; exact .absent
  | cons d s =>
    rw [pair_crit] at h
    split at h
    next =>
      split at h
      next after hw =>
        cases h
        have hlen := length_of_keyword hw
        exact .one (keyword_eq_ok.mp hw) (branch_sound hP (by omega) rfl hc)
      next => cases h; exact hc.elim
    next =>
      split at h
      next =>
        split at h
        next after hw =>
          have hlen := length_of_keyword hw
          split at h
          next count hn =>
            cases h
            have hlt := count.shorter
            exact .many (keyword_eq_ok.mp hw) (numeral_sound hn) (branch_sound hP (by omega) rfl hc)
          next => cases h; exact hc.elim
        next => cases h; exact hc.elim
      next => cases h; exact .absent

theorem save_sound {s : List Cell} (hs : s.length < n) {c : Save} {rest : List Cell}
    (h : (save s).pair = (c, rest)) (hc : c.Intact) : c.Derives s rest := by
  cases s with
  | nil => rw [save] at h; cases h; exact .absent
  | cons d s =>
    rw [pair_save] at h
    split at h
    next =>
      split at h
      next after hw =>
        cases h
        have hlen := length_of_keyword hw
        exact .one (keyword_eq_ok.mp hw) (branch_sound hP (by omega) rfl hc)
      next => cases h; exact hc.elim
    next => cases h; exact .absent

/-- An expression grows by one operator at a time; what is already read stays derived. -/
theorem applications_sound {s : List Cell} (hs : s.length < n) {start : List Cell} {left : Expression}
    (hl : left.Intact → left.Derives start s) {e : Expression} {rest : List Cell}
    (h : (applications left s).pair = (e, rest)) (he : e.Intact) : e.Derives start rest := by
  induction hk : s.length using Nat.strongRecOn generalizing s left with
  | ind k ih =>
    rw [pair_applications] at h
    split at h
    next => cases h; exact hl he
    next => cases h; exact he.elim
    next o ho =>
      have h₁ := o.shorter
      have h₂ := (argument o.value o.rest).shorter
      have h₃ := (halved (argument o.value o.rest).rest).shorter
      have h₄ := (crit (halved (argument o.value o.rest).rest).rest).shorter
      have h₅ := (save (crit (halved (argument o.value o.rest).rest).rest).rest).shorter
      refine ih _ (by omega) (by omega) (fun hi => ?_) h rfl
      obtain ⟨hleft, hargument, hcrit, hsave⟩ := hi
      exact .apply (hl hleft) (operator?_sound ho) (argument_sound hP (by omega) rfl hargument)
        (halved_sound rfl) (crit_sound hP (by omega) rfl hcrit) (save_sound hP (by omega) rfl hsave)

theorem expression_sound_below {s : List Cell} (hs : s.length < n) {e : Expression} {rest : List Cell}
    (h : (expression s).pair = (e, rest)) (he : e.Intact) : e.Derives s rest := by
  rw [pair_expression] at h
  split at h
  next r hr =>
    have hlt := r.shorter
    exact applications_sound hP (by omega) (fun hi => .term (term?_sound hP hs hr hi)) h he
  next => cases h; exact he.elim

end Inherited

theorem selector_sound {c : Cell} {s rest : List Cell} (hc : c.char = 'k')
    {r : Reading (Direction × Numeral) (c :: s).length} (h : selector (c :: s) = .ok r) {p : Primary}
    (hp : p.Derives r.rest rest) : (Primary.keep r.value.1 r.value.2 p).Derives (c :: s) rest := by
  cases s with
  | nil => cases h
  | cons d s =>
    rw [selector] at h
    split at h
    next hd =>
      split at h
      next count after hl hn =>
        cases h
        by_cases hh : d.char = 'h'
        · rw [if_pos hh]
          exact .keepHighest (hc ▸ hh ▸ (Word.nil _).cons.cons) (numeral_sound hn) hp
        · rw [if_neg hh]
          exact .keepLowest (hc ▸ hd.resolve_left hh ▸ (Word.nil _).cons.cons) (numeral_sound hn) hp
      next => cases h
    next => cases h

/-- A primary is derived wherever one is read. The induction is on the length of the text, since what is
read inside parentheses is read by the same functions. -/
theorem primary?_sound {s : List Cell} {p : Primary} {rest : List Cell}
    (h : (primary? s).map Reading.pair = some (p, rest)) (hi : p.Intact) : p.Derives s rest := by
  induction hn : s.length using Nat.strongRecOn generalizing s p rest with
  | ind n ih =>
    have hP : ∀ s' : List Cell, s'.length < n → ∀ r, primary? s' = some r → r.value.Intact →
        r.value.Derives s' r.rest := fun s' hs' r hr hi => ih s'.length hs' (by rw [hr]; rfl) hi rfl
    cases s with
    | nil => rw [primary?] at h; cases h
    | cons c s =>
      rw [List.length_cons] at hn
      rw [pair_primary?] at h
      split at h
      next hc =>
        split at h
        next after hw =>
          cases h
          exact .group (hc ▸ (Word.nil _).cons) (expression_sound_below hP (by omega) rfl hi)
            (keyword_eq_ok.mp hw)
        next => cases h; exact hi.elim
      next =>
        split at h
        next =>
          obtain ⟨r, hr, hpair⟩ := Option.map_eq_some_iff.mp h
          cases hpair
          exact die?_sound hr
        next =>
          split at h
          next hk =>
            split at h
            next r hr =>
              have hlt := r.shorter
              split at h
              next target ht =>
                cases h
                exact selector_sound hk hr (hP r.rest (by simp only [List.length_cons] at hlt; omega) target ht hi)
              next => cases h; exact hi.elim
            next => cases h; exact hi.elim
          next =>
            split at h
            next r hr => cases h; exact .number (numeral_sound hr)
            next => cases h

theorem expression_sound {s : List Cell} {e : Expression} {rest : List Cell}
    (h : (expression s).pair = (e, rest)) (he : e.Intact) : e.Derives s rest :=
  expression_sound_below (fun _ _ _ hr hi => primary?_sound (by rw [hr]; rfl) hi) (Nat.lt_succ_self _) h he

end DiceLaw.Notation
