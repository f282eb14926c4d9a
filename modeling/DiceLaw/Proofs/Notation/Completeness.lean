import DiceLaw.Proofs.Notation.Soundness
import DiceLaw.Proofs.Notation.Meaning

/-! Every derivation is found by the reader, so there is at most one. What may follow a part of an expression
never continues it: the words that follow start no primary, and each optional suffix has a first letter of
its own. -/
namespace DiceLaw.Notation

/-! ### What may follow -/

/-- The end of the text, or one of the words. -/
def Follows (words : List (List Char)) (s : List Cell) : Prop :=
  s = [] ∨ ∃ w ∈ words, ∃ rest, Word w s rest

/-- What ends an expression or continues it with an operator. -/
def closers : List (List Char) := [')'] :: Operator.all.map Operator.word

def afterCrit : List (List Char) := ['s', 'a', 'v', 'e'] :: closers

def afterHalf : List (List Char) := ['c', 'r', 'i', 't'] :: ['x', 'c', 'r', 'i', 't'] :: afterCrit

def afterArgument : List (List Char) := ['h', 'a', 'l', 'f'] :: afterHalf

theorem Follows.mono {v w : List (List Char)} (hvw : v ⊆ w) {s : List Cell} (h : Follows v s) :
    Follows w s := by
  rcases h with rfl | ⟨a, ha, hs⟩
  · exact .inl rfl
  · exact .inr ⟨a, hvw ha, hs⟩

theorem Follows.of_word {words : List (List Char)} {w : List Char} (hw : w ∈ words) {s rest : List Cell}
    (h : Word w s rest) : Follows words s := .inr ⟨w, hw, rest, h⟩

theorem Word.exists_cons {a : Char} {w : List Char} {s rest : List Cell} (h : Word (a :: w) s rest) :
    ∃ c s', s = c :: s' ∧ c.char = a ∧ Word w s' rest := by
  obtain ⟨front, hw, rfl⟩ := h
  cases front with
  | nil => cases hw
  | cons c front =>
    obtain ⟨hc, hw⟩ := List.cons.inj hw
    exact ⟨c, front ++ rest, rfl, hc, front, hw, rfl⟩

theorem operator_word_mem_closers (op : Operator) : op.word ∈ closers := by
  cases op <;> decide

/-- A text starts with the first letter of what it starts with. -/
theorem Follows.head_mem {words : List (List Char)} (hne : [] ∉ words) {c : Cell} {s : List Cell}
    (h : Follows words (c :: s)) : c.char ∈ words.filterMap List.head? := by
  rcases h with h | ⟨w, hw, rest, h⟩
  · cases h
  · cases w with
    | nil => exact absurd hw hne
    | cons a w =>
      obtain ⟨d, s', hs, rfl, -⟩ := h.exists_cons
      cases hs
      exact List.mem_filterMap.mpr ⟨_, hw, rfl⟩

/-! ### Where nothing starts -/

theorem numeral_of_not_numeric {c : Cell} {s : List Cell} (hc : c.isNumeric = false) :
    numeral (c :: s) = .error (unexpected .number (c :: s)) := by
  rw [numeral, if_neg (by simp [hc])]

/-- The letters that start a primary stand first in two of these words only, in neither of which a die
follows. -/
private theorem afterArgument_head : ∀ w ∈ afterArgument, w ≠ ['h', 'a', 'l', 'f'] → w ≠ ['d', 'c'] →
    (w.head?.all fun a => !(['(', 'd', 'h', 'k'].contains a) && !(Text.isDigit a || a == 'n')) = true := by
  decide

theorem primary?_eq_none {s : List Cell} (h : Follows afterArgument s) : primary? s = none := by
  rcases h with rfl | ⟨w, hw, rest, h⟩
  · rw [primary?]
  · by_cases hhalf : w = ['h', 'a', 'l', 'f']
    · subst hhalf
      obtain ⟨c, s, rfl, hc, h⟩ := h.exists_cons
      obtain ⟨d, s, rfl, hd, -⟩ := h.exists_cons
      have hdie : die? (c :: d :: s) = none := by simp [die?, hc, hd]
      have hp := pair_primary? c (d :: s)
      simpa [hc, hdie] using hp
    · by_cases hdc : w = ['d', 'c']
      · subst hdc
        obtain ⟨c, s, rfl, hc, h⟩ := h.exists_cons
        obtain ⟨d, s, rfl, hd, -⟩ := h.exists_cons
        have hdn : d.isNumeric = false := by rw [Cell.isNumeric, hd]; decide
        have hdie : die? (c :: d :: s) = none := by simp [die?, hc, numeral_of_not_numeric hdn]
        have hp := pair_primary? c (d :: s)
        simpa [hc, hdie] using hp
      · cases w with
        | nil => exact absurd hw (by decide)
        | cons a w =>
          obtain ⟨c, s, rfl, rfl, -⟩ := h.exists_cons
          have hhead := afterArgument_head _ hw hhalf hdc
          rw [List.head?_cons, Option.all_some, Bool.and_eq_true, Bool.not_eq_true', Bool.not_eq_true'] at hhead
          obtain ⟨hno, hnum⟩ := hhead
          simp only [List.contains_eq_mem, decide_eq_false_iff_not, List.mem_cons, List.not_mem_nil, or_false,
            not_or] at hno
          have hp := pair_primary? c s
          simpa [hno, numeral_of_not_numeric hnum] using hp

theorem term?_eq_none {s : List Cell} (h : Follows afterArgument s) : term? s = none := by
  have hp := pair_term? s
  rw [primary?_eq_none h] at hp
  simpa using hp

theorem copies_eq_self (t : Term) {s : List Cell} (h : Follows afterArgument s) :
    (copies t s).pair = (t, s) := by
  rw [pair_copies, primary?_eq_none h]

theorem halved_eq_false {s : List Cell} (h : ∀ rest, ¬ Word ['h', 'a', 'l', 'f'] s rest) :
    (halved s).pair = (false, s) := by
  rw [pair_halved]
  split
  next rest hw => exact absurd (keyword_eq_ok.mp hw) (h rest)
  next => rfl

theorem halved_of_follows {s : List Cell} (h : Follows afterHalf s) : (halved s).pair = (false, s) := by
  apply halved_eq_false
  intro rest hw
  obtain ⟨c, s, rfl, hc, -⟩ := hw.exists_cons
  have hmem := h.head_mem (by decide)
  rw [hc] at hmem
  exact absurd hmem (by decide)

theorem crit_of_follows {s : List Cell} (h : Follows afterCrit s) : (crit s).pair = (.absent, s) := by
  cases s with
  | nil => rw [crit]; rfl
  | cons c s =>
    have hmem := h.head_mem (by decide)
    have hc : c.char ≠ 'c' := fun hc => absurd (hc ▸ hmem) (by decide)
    have hx : c.char ≠ 'x' := fun hx => absurd (hx ▸ hmem) (by decide)
    rw [pair_crit, if_neg hc, if_neg hx]

theorem save_of_follows {s : List Cell} (h : Follows closers s) : (save s).pair = (.absent, s) := by
  cases s with
  | nil => rw [save]; rfl
  | cons c s =>
    have hmem := h.head_mem (by decide)
    have hs : c.char ≠ 's' := fun hs => absurd (hs ▸ hmem) (by decide)
    rw [pair_save, if_neg hs]

/-! ### What starts is read -/

theorem Numeral.Derives.exists_cons {m : Numeral} {s rest : List Cell} (h : m.Derives s rest) :
    ∃ c s', s = c :: s' ∧ c.isNumeric = true := by
  obtain ⟨first, others, hall, -, rfl, -⟩ := h
  exact ⟨first, others ++ rest, rfl, hall first (by simp)⟩

theorem numeral_complete {m : Numeral} {s rest : List Cell} (h : m.Derives s rest) :
    ∃ hlt, numeral s = .ok ⟨m, rest, hlt⟩ := by
  obtain ⟨first, others, hall, hend, rfl, rfl⟩ := h
  have hothers : ∀ c ∈ others, c.isNumeric = true := fun c hc => hall c (List.mem_cons_of_mem _ hc)
  have htake : (others ++ rest).takeWhile Cell.isNumeric = others := by
    rw [List.takeWhile_append_of_pos hothers]
    cases rest with
    | nil => simp
    | cons c rest => simp [hend c rfl]
  have hdrop : (others ++ rest).dropWhile Cell.isNumeric = rest := by
    rw [List.dropWhile_append_of_pos hothers]
    cases rest with
    | nil => rfl
    | cons c rest => simp [hend c rfl]
  have hlt : rest.length < (first :: others ++ rest).length := by
    rw [List.length_append, List.length_cons]
    omega
  exact ⟨hlt, by simp [numeral, hall first (by simp), htake, hdrop]⟩

theorem die?_complete {p : Primary} {s s₁ rest : List Cell} {m : Numeral} (hm : m.Derives s₁ rest)
    (h : Word ['d'] s s₁ ∧ p = .die m ∨ Word ['h', 'd'] s s₁ ∧ p = .halfDie m) :
    (die? s).map Reading.pair = some (p, rest) := by
  obtain ⟨hlt, hn⟩ := numeral_complete hm
  rcases h with ⟨hw, rfl⟩ | ⟨hw, rfl⟩
  · obtain ⟨c, s, rfl, hc, hw⟩ := hw.exists_cons
    obtain rfl := word_nil_iff.mp hw
    cases s with
    | nil => cases hn
    | cons d s => simp [die?, hc, hn, Reading.pair]
  · obtain ⟨c, s, rfl, hc, hw⟩ := hw.exists_cons
    obtain ⟨d, s, rfl, hd, hw⟩ := hw.exists_cons
    obtain rfl := word_nil_iff.mp hw
    simp [die?, hc, hd, hn, Reading.pair]

private theorem announced?_word (op : Operator) : op.word.head?.bind announced? =
    some (if op = .divideFloor then .divideCeil else op) := by
  cases op <;> rfl

private theorem operator?_of_announced {announced op : Operator} {s rest : List Cell}
    (ha : (s.head?.bind fun c => announced? c.char) = some announced) (hl : lengthened announced s = op)
    (hw : Word op.word s rest) : ∃ hlt, operator? s = some (.ok ⟨op, rest, hlt⟩) := by
  subst hl
  have hk := keyword_eq_ok.mpr hw
  have hlen := length_of_keyword hk
  have hpos := (lengthened announced s).length_word_pos
  refine ⟨by omega, ?_⟩
  rw [operator?]
  split
  next h => rw [ha] at h; cases h
  next a h =>
    cases ha.symm.trans h
    split
    next after h => cases hk.symm.trans h; rfl
    next cause h => cases hk.symm.trans h

theorem operator?_complete {op : Operator} {s rest : List Cell} (h : Word op.word s rest)
    (hceil : op = .divideCeil → ∀ after, ¬ Word ['/'] rest after) :
    ∃ hlt, operator? s = some (.ok ⟨op, rest, hlt⟩) := by
  have ha : (s.head?.bind fun c => announced? c.char) =
      some (if op = .divideFloor then .divideCeil else op) := by
    obtain ⟨front, hw, rfl⟩ := h
    rw [← announced?_word, ← hw]
    cases front with
    | nil => exact absurd op.length_word_pos (by simp [← hw])
    | cons c front => rfl
  refine operator?_of_announced ha ?_ h
  cases op with
  | divideFloor => simp [lengthened, keyword_eq_ok.mpr h]
  | divideCeil =>
    cases hk : keyword Operator.divideFloor.word s with
    | error cause => simp [lengthened, hk]
    | ok after =>
      obtain ⟨c, s, rfl, -, hs⟩ := (keyword_eq_ok.mp hk).exists_cons
      obtain ⟨d, s', hcd, -, hw⟩ := h.exists_cons
      obtain rfl := word_nil_iff.mp hw
      cases hcd
      exact absurd hs (hceil rfl after)
  | _ => rfl

theorem selector_complete {direction : Direction} {m : Numeral} {s s₁ rest : List Cell}
    (hw : Word ['k', if direction = .highest then 'h' else 'l'] s s₁) (hm : m.Derives s₁ rest) :
    ∃ hlt, selector s = .ok ⟨(direction, m), rest, hlt⟩ := by
  obtain ⟨hlt, hn⟩ := numeral_complete hm
  obtain ⟨c, s, rfl, hc, hw⟩ := hw.exists_cons
  obtain ⟨d, s, rfl, hd, hw⟩ := hw.exists_cons
  obtain rfl := word_nil_iff.mp hw
  refine ⟨Nat.lt_succ_of_lt (Nat.lt_succ_of_lt hlt), ?_⟩
  cases direction <;> simp_all [selector]

/-! ### Trees -/

/-- A whole part is read off its text, and the loop behind it goes on from there. -/
theorem pair_keep {direction : Direction} {m : Numeral} {p : Primary} {s s₁ s₂ rest : List Cell}
    (hw : Word ['k', if direction = .highest then 'h' else 'l'] s s₁) (hm : m.Derives s₁ s₂)
    (hp : (primary? s₂).map Reading.pair = some (p, rest)) :
    (primary? s).map Reading.pair = some (.keep direction m p, rest) := by
  obtain ⟨hlt, hsel⟩ := selector_complete hw hm
  obtain ⟨c, s, rfl, hc, -⟩ := hw.exists_cons
  obtain ⟨r, hr, hpair⟩ := Option.map_eq_some_iff.mp hp
  cases hpair
  rw [pair_primary?, hsel]
  simp [hc, hr]

theorem char_ne_of_numeric {c : Cell} (hc : c.isNumeric = true) {a : Char}
    (ha : (Text.isDigit a || a == 'n') = false) : c.char ≠ a := by
  rintro rfl
  exact absurd hc (by rw [Cell.isNumeric, ha]; decide)

theorem halved_of_word {s rest : List Cell} (h : Word ['h', 'a', 'l', 'f'] s rest) :
    (halved s).pair = (true, rest) := by
  rw [pair_halved, keyword_eq_ok.mpr h]

/-- A term does not start with `half`. -/
theorem halved_of_term? {s : List Cell} {r : Reading Term s.length} (h : term? s = some r) :
    (halved s).pair = (false, s) := by
  apply halved_eq_false
  intro rest hw
  rw [term?_eq_none (.of_word (by decide) hw)] at h
  cases h

theorem Save.Derives.follows {c : Save} {s rest : List Cell} (h : c.Derives s rest)
    (hf : Follows closers rest) : Follows afterCrit s := by
  cases h with
  | absent => exact hf.mono (List.subset_cons_self ..)
  | one hw => exact .of_word (by decide) hw

theorem Crit.Derives.follows {c : Crit} {s rest : List Cell} (h : c.Derives s rest)
    (hf : Follows afterCrit rest) : Follows afterHalf s := by
  cases h with
  | absent => exact hf.mono (by decide)
  | one hw => exact .of_word (by decide) hw
  | many hw => exact .of_word (by decide) hw

theorem Halved.follows {b : Bool} {s rest : List Cell} (h : Halved b s rest)
    (hf : Follows afterHalf rest) : Follows afterArgument s := by
  cases b with
  | false =>
    obtain rfl : s = rest := h
    exact hf.mono (List.subset_cons_self ..)
  | true => exact .of_word (by decide) h

theorem Halved.complete {b : Bool} {s rest : List Cell} (h : Halved b s rest) (hf : Follows afterHalf rest) :
    (halved s).pair = (b, rest) := by
  cases b with
  | false =>
    obtain rfl : s = rest := h
    exact halved_of_follows hf
  | true => exact halved_of_word h

mutual

theorem Primary.complete : ∀ (p : Primary) {s rest : List Cell}, p.Derives s rest →
    (primary? s).map Reading.pair = some (p, rest)
  | .number m, s, rest, .number hm => by
    obtain ⟨c, s, rfl, hc⟩ := hm.exists_cons
    obtain ⟨hlt, hn⟩ := numeral_complete hm
    have hne {a : Char} (ha : (Text.isDigit a || a == 'n') = false) := char_ne_of_numeric hc ha
    rw [pair_primary?, if_neg (hne (by decide)), if_neg (not_or.mpr ⟨hne (by decide), hne (by decide)⟩),
      if_neg (hne (by decide)), hn]
  | .die m, s, rest, .die hw hm => by
    have hdie := die?_complete hm (.inl ⟨hw, rfl⟩)
    obtain ⟨c, s, rfl, hc, -⟩ := hw.exists_cons
    rwa [pair_primary?, if_neg (by simp [hc]), if_pos (.inl hc)]
  | .halfDie m, s, rest, .halfDie hw hm => by
    have hdie := die?_complete hm (.inr ⟨hw, rfl⟩)
    obtain ⟨c, s, rfl, hc, -⟩ := hw.exists_cons
    rwa [pair_primary?, if_neg (by simp [hc]), if_pos (.inr hc)]
  | .keep .highest m p, s, rest, .keepHighest hw hm hp => pair_keep hw hm (p.complete hp)
  | .keep .lowest m p, s, rest, .keepLowest hw hm hp => pair_keep hw hm (p.complete hp)
  | .group e, s, rest, @Primary.Derives.group _ _ _ s₂ _ hw he hclose => by
    have hpair : (expression _).pair = (applications e s₂).pair := e.complete he (.of_word (by decide) hclose)
    have hend : operator? s₂ = none := by
      obtain ⟨c, s₂, rfl, hc, -⟩ := hclose.exists_cons
      simp [operator?, hc, announced?]
    rw [pair_applications, hend] at hpair
    obtain ⟨hv, hr⟩ := Prod.mk.inj hpair
    obtain ⟨c, s, rfl, hc, hw⟩ := hw.exists_cons
    obtain rfl := word_nil_iff.mp hw
    rw [pair_primary?, if_pos hc, hr, keyword_eq_ok.mpr hclose, hv]
  | .broken _, s, rest, h => nomatch h

theorem Term.complete : ∀ (t : Term) {s rest : List Cell}, t.Derives s rest →
    (term? s).map Reading.pair = some (copies t rest).pair
  | .one p, s, rest, .one hp => by
    rw [pair_term?]
    obtain ⟨r, hr, hpair⟩ := Option.map_eq_some_iff.mp (p.complete hp)
    cases hpair
    simp [hr]
  | .copies t p, s, rest, .copies ht hp => by
    rw [t.complete ht, pair_copies]
    obtain ⟨r, hr, hpair⟩ := Option.map_eq_some_iff.mp (p.complete hp)
    cases hpair
    simp [hr]

theorem Branch.complete : ∀ (b : Branch) {s rest : List Cell}, b.Derives s rest → Follows afterCrit rest →
    (branch s).pair = (b, rest)
  | .whole, s, _, .whole, hf => by
    have hh := halved_of_follows (hf.mono (show afterCrit ⊆ afterHalf by decide))
    rw [pair_branch, if_neg (by simp [Prod.mk.inj hh]), term?_eq_none (hf.mono (by decide))]
  | .half, s, rest, .half hw, hf => by
    obtain ⟨hv, hr⟩ := Prod.mk.inj (halved_of_word hw)
    rw [pair_branch, if_pos hv, hr]
  | .own t, s, rest, .own ht, hf => by
    obtain ⟨r, hr, hpair⟩ := Option.map_eq_some_iff.mp (t.complete ht)
    rw [copies_eq_self t (hf.mono (by decide))] at hpair
    cases hpair
    rw [pair_branch, if_neg (by simp [Prod.mk.inj (halved_of_term? hr)]), hr]

theorem Crit.complete : ∀ (c : Crit) {s rest : List Cell}, c.Derives s rest → Follows afterCrit rest →
    (crit s).pair = (c, rest)
  | .absent, s, _, .absent, hf => crit_of_follows hf
  | .one b, s, rest, .one hw hb, hf => by
    have hk := keyword_eq_ok.mpr hw
    obtain ⟨c, s, rfl, hc, -⟩ := hw.exists_cons
    obtain ⟨hv, hr⟩ := Prod.mk.inj (b.complete hb hf)
    simp [pair_crit, hc, hk, hv, hr]
  | .many m b, s, rest, .many hw hm hb, hf => by
    have hk := keyword_eq_ok.mpr hw
    obtain ⟨hlt, hn⟩ := numeral_complete hm
    obtain ⟨c, s, rfl, hc, -⟩ := hw.exists_cons
    obtain ⟨hv, hr⟩ := Prod.mk.inj (b.complete hb hf)
    simp [pair_crit, hc, hk, hn, hv, hr]
  | .broken _, s, rest, h, _ => nomatch h

theorem Save.complete : ∀ (c : Save) {s rest : List Cell}, c.Derives s rest → Follows closers rest →
    (save s).pair = (c, rest)
  | .absent, s, _, .absent, hf => save_of_follows hf
  | .one b, s, rest, .one hw hb, hf => by
    have hk := keyword_eq_ok.mpr hw
    obtain ⟨c, s, rfl, hc, -⟩ := hw.exists_cons
    obtain ⟨hv, hr⟩ := Prod.mk.inj (b.complete hb (hf.mono (List.subset_cons_self ..)))
    simp [pair_save, hc, hk, hv, hr]
  | .broken _, s, rest, h, _ => nomatch h

theorem Argument.complete : ∀ (a : Argument) {op : Operator} {s rest : List Cell},
    Argument.Derives op a s rest → Follows afterArgument rest → (argument op s).pair = (a, rest)
  | .itself, op, s, _, .itself hu, hf => by rw [pair_argument, if_pos hu]
  | .own t, op, s, rest, .own hu ht, hf => by
    obtain ⟨r, hr, hpair⟩ := Option.map_eq_some_iff.mp (t.complete ht)
    rw [copies_eq_self t hf] at hpair
    cases hpair
    rw [pair_argument, if_neg hu, hr]

theorem Expression.complete : ∀ (e : Expression) {s rest : List Cell}, e.Derives s rest →
    Follows closers rest → (expression s).pair = (applications e rest).pair
  | .term t, s, rest, .term ht, hf => by
    obtain ⟨r, hr, hpair⟩ := Option.map_eq_some_iff.mp (t.complete ht)
    rw [copies_eq_self t (hf.mono (by decide))] at hpair
    cases hpair
    rw [pair_expression, hr]
  | .apply left op argument halved crit save, s, rest,
      @Expression.Derives.apply _ _ _ _ _ _ _ _ s₂ _ _ _ _ hl hop ha hh hc hs, hf => by
    have hf₁ := hs.follows hf
    have hf₂ := hc.follows hf₁
    have hf₃ := hh.follows hf₂
    have harg := argument.complete ha hf₃
    have hceil : op = .divideCeil → ∀ after, ¬ Word ['/'] s₂ after := by
      rintro rfl after hw
      rw [pair_argument, if_neg (by decide), term?_eq_none (.of_word (by decide) hw)] at harg
      cases harg
      cases ha with | own _ ht => cases ht with | one hp => cases hp
    obtain ⟨hlt, ho⟩ := operator?_complete hop hceil
    rw [left.complete hl (.of_word (operator_word_mem_closers op) hop)]
    exact pair_applications_of_ok ho harg (hh.complete hf₂) (crit.complete hc hf₁) (save.complete hs hf)
  | .broken _ _, s, rest, h, _ => nomatch h

end

/-- A derivation of a whole text is the tree that is read off it. -/
theorem Expression.pair_of_derives {e : Expression} {s : List Cell} (h : e.Derives s []) :
    (expression s).pair = (e, []) := by
  rw [e.complete h (.inl rfl), pair_applications]
  rfl

end DiceLaw.Notation
