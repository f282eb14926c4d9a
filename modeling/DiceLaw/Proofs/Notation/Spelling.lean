import DiceLaw.Proofs.Characters
import DiceLaw.Proofs.KeepEnds
import DiceLaw.Proofs.Notation.Cleaning
import DiceLaw.Proofs.Notation.Mass
import DiceLaw.Proofs.Notation.Union
import DiceLaw.Proofs.Scaling

/-! Different spellings of one roll. Texts in parentheses are put together to longer ones: rolled twice with the
better kept, used on themselves, or rolled several times and summed. Spelled either way, every face has the same
chance. -/
namespace DiceLaw

/-! ### Digits -/

namespace Text

theorem cleaned_of_digits {text : String} (h : ∀ c ∈ text.toList, isDigit c) :
    Notation.Cell.cleaned text = text.toList := by
  rw [Notation.Cell.cleaned, List.filter_eq_self.mpr fun c hc => by rw [isBlank_of_isDigit (h c hc)]; rfl,
    List.flatMap_congr fun c hc => lowercase_of_isDigit (h c hc), List.flatMap_singleton']

theorem readInteger?_toDigits (k : Nat) : readInteger? (Nat.toDigits 10 k) = some (k : Int) := by
  have hdigits : ∀ c ∈ Nat.toDigits 10 k, isDigit c := fun c hc => isDigit_of_mem_toDigits hc
  have hvalue : digitsValue (Nat.toDigits 10 k) = k := Nat.ofDigitChars_toDigits (by decide) (by decide)
  have hread : readNatural? (Nat.toDigits 10 k) = some k := by
    rw [readNatural?, if_pos ⟨Nat.toDigits_ne_nil, List.all_eq_true.mpr hdigits⟩, hvalue]
  have hsign {sign : Char} (hsign : isDigit sign = false) (cs : List Char) : Nat.toDigits 10 k ≠ sign :: cs := by
    intro hcs
    have hdigit := hdigits sign (by simp [hcs])
    rw [hsign] at hdigit
    cases hdigit
  rw [readInteger?.eq_3 _ (hsign (by decide)) (hsign (by decide)), hread]
  rfl

theorem readInt64?_toDigits {k : Nat} (hk : (k : Int) ≤ Int64.maxValue.toInt) :
    readInt64? (Nat.toDigits 10 k) = some (Int64.ofInt k) := by
  have hmin : Int64.minValue.toInt ≤ 0 := by decide
  rw [readInt64?, readInteger?_toDigits, Option.bind_some, if_pos ⟨by omega, hk⟩]

end Text

namespace Notation
open DiceLaw.Distribution

theorem exists_derives_toString {k : Nat} (hk : (k : Int) ≤ Int64.maxValue.toInt) :
    ∃ m : Numeral, m.Derives (Cell.ofText (toString k)) [] ∧ ∀ n, m.value n = .ok (Int64.ofInt k) := by
  have htext : (toString k).toList = Nat.toDigits 10 k := by rw [Nat.toString_eq_repr, Nat.toList_repr]
  have hchars : (Cell.ofText (toString k)).map Cell.char = Nat.toDigits 10 k := by
    rw [Cell.map_char_ofText, Text.cleaned_of_digits, htext]
    exact fun c hc => Text.isDigit_of_mem_toDigits (htext ▸ hc)
  have hdigit (c : Cell) (hc : c ∈ Cell.ofText (toString k)) : Text.isDigit c.char :=
    Text.isDigit_of_mem_toDigits (hchars ▸ List.mem_map_of_mem hc)
  have hne : Cell.ofText (toString k) ≠ [] := fun h => Nat.toDigits_ne_nil (by rw [← hchars, h]; rfl)
  obtain ⟨m, hm, hsymbols⟩ := exists_numeral hne fun c hc => by rw [Cell.isNumeric, hdigit c hc]; rfl
  refine ⟨m, hm, fun n => ?_⟩
  have hletter (c : Char) (hc : c ∈ Nat.toDigits 10 k) : c ∉ ['n'] := by
    intro hn
    obtain rfl := List.mem_singleton.mp hn
    exact absurd (Text.isDigit_of_mem_toDigits hc) (by decide)
  have hsame : m.text n = Nat.toDigits 10 k := by
    rw [Numeral.text, hsymbols, hchars, spelling_of_notMem n hletter]
  rw [Numeral.value, hsame, Text.readInt64?_toDigits hk]

theorem evaluate_toString (s : Setting) {k : Nat} (hk : (k : Int) ≤ Int64.maxValue.toInt) :
    (∃ t : Term, t.Derives (Cell.ofText (toString k)) []) ∧ (Expression.ofText (toString k)).nesting = 0 ∧
      evaluate s (toString k) = .ok (scalar (Int64.ofInt k) : Distribution Rat) := by
  obtain ⟨m, hm, hvalue⟩ := exists_derives_toString hk
  have hterm : (Term.one (.number m)).Derives (Cell.ofText (toString k)) [] := .one (.number hm)
  refine ⟨⟨_, hterm⟩, ?_, ?_⟩
  · rw [Expression.ofText, Expression.ofCells_of_derives (.term hterm), Expression.nesting, Term.nesting,
      Primary.nesting]
  · rw [evaluate_of_derives (.term hterm), Expression.eval, Term.eval, Primary.eval, hvalue]
    rfl

/-! ### Primaries put together -/

/-- A text is a primary, which has the distribution wherever it may nest so much deeper. -/
def IsPrimary {W : Type} [Weight W] (s : Setting) (text : String) (height : Nat) (d : Distribution W) : Prop :=
  ∃ p : Primary, p.Derives (Cell.ofText text) [] ∧
    ∀ depth, depth + height ≤ s.limits.maxDepth.toNat → p.eval s depth = .ok d

/-- A text in parentheses. -/
def parens (text : String) : String := "(" ++ text ++ ")"

/-- A keep selector for one. -/
def keepOne : Direction → String
  | .highest => "kh1"
  | .lowest => "kl1"

section Texts
open Cell
variable {W : Type} [Weight W] {s : Setting} {text : String} {height : Nat} {d : Distribution W}

theorem IsPrimary.term (h : IsPrimary s text height d) : ∃ t : Term, t.Derives (ofText text) [] := by
  obtain ⟨p, hp, -⟩ := h
  exact ⟨_, .one hp⟩

theorem IsPrimary.evaluate_eq (h : IsPrimary s text height d) (hheight : height ≤ s.limits.maxDepth.toNat) :
    evaluate s text = .ok d := by
  obtain ⟨p, hp, heval⟩ := h
  rw [evaluate_of_derives (.term (.one hp)), Expression.eval, Term.eval]
  exact heval 0 (by omega)

/-- Parentheses make a primary of any text that has a distribution. -/
theorem isPrimary_group (h : evaluate s text = .ok d) :
    IsPrimary s (parens text) ((Expression.ofText text).nesting + 1) d := by
  obtain ⟨hderives, -, hmeaning⟩ := Expression.ofText_of_evaluate h
  let close := (ofText ")").map (relocate (· + ("(" ++ text).toList.length))
  have hcells : ofText (parens text) = ofText "(" ++ placed (· + "(".toList.length) close (ofText text) := by
    rw [parens, ofText_append, ofText_append, List.append_assoc]
    rfl
  have hclose : NoNumeral close := NoNumeral.map_relocate (by decide) _
  refine ⟨.group ((Expression.ofText text).relocate (· + "(".toList.length)), ?_, fun depth hdepth => ?_⟩
  · rw [hcells]
    exact .group ⟨_, rfl, rfl⟩ (Expression.derives_placed hclose _ hderives) ⟨close, rfl, (List.append_nil _).symm⟩
  · have hgroup := (Primary.group (Expression.ofText text)).eval_relocate (W := W) (· + "(".toList.length) s depth
    rw [Primary.relocate] at hgroup
    rw [hgroup, (Primary.eval_eq_ok _ (by omega)).mpr]
    · rfl
    · rw [Primary.nesting, Primary.denotation]
      exact ⟨by omega, hmeaning⟩

/-- Behind a word that asks to keep one. -/
theorem IsPrimary.keep (h : IsPrimary s text height d) (hnumeral : NoNumeral (ofText text)) (direction : Direction) :
    IsPrimary s (keepOne direction ++ text) (height + 1) (d.withKeep ⟨direction, 1⟩) := by
  obtain ⟨p, hp, heval⟩ := h
  let behind := (ofText text).map (relocate (· + 3))
  have hbehind : NoNumeral behind := hnumeral.map_relocate _
  have hderives : (p.relocate (· + 3)).Derives behind [] := Primary.derives_relocate hp _
  have hone : Numeral.Derives ⟨['1'], 2⟩ (⟨'1', 2⟩ :: behind) behind :=
    ⟨⟨'1', 2⟩, [], by decide, hbehind, rfl, rfl⟩
  refine ⟨.keep direction ⟨['1'], 2⟩ (p.relocate (· + 3)), ?_, fun depth hdepth => ?_⟩
  · rw [ofText_append]
    cases direction with
    | highest => exact .keepHighest ⟨[⟨'k', 0⟩, ⟨'h', 1⟩], rfl, rfl⟩ hone hderives
    | lowest => exact .keepLowest ⟨[⟨'k', 0⟩, ⟨'l', 1⟩], rfl, rfl⟩ hone hderives
  · have hcount : Numeral.count .keepCount 4294967295 s.n ⟨['1'], 2⟩ = .ok 1 := rfl
    have hdeeper : deeper s depth = .ok (depth + 1) := deeper_eq_ok.mpr ⟨by omega, rfl⟩
    rw [Primary.eval, hcount, hdeeper]
    change ((p.relocate (· + 3)).eval s (depth + 1) >>= _) = _
    rw [Primary.eval_relocate, heval (depth + 1) (by omega)]
    rfl

/-- A primary behind a term is rolled as often as that says. -/
theorem IsPrimary.evaluate_copies (h : IsPrimary s text height d) (hnumeral : NoNumeral (ofText text))
    (hheight : height ≤ s.limits.maxDepth.toNat) {times : String} {counts : Distribution W}
    (hterm : ∃ t : Term, t.Derives (ofText times) []) (htimes : evaluate s times = .ok counts) :
    evaluate s (times ++ text) = lift (repeated s.limits counts d) := by
  obtain ⟨p, hp, heval⟩ := h
  obtain ⟨t, ht⟩ := hterm
  rw [evaluate_of_derives (.term ht), Expression.eval] at htimes
  let behind := (ofText text).map (relocate (· + times.toList.length))
  have hbehind : NoNumeral behind := hnumeral.map_relocate _
  have hderives : (p.relocate (· + times.toList.length)).Derives behind [] := Primary.derives_relocate hp _
  have hcopies : (Term.copies (t.relocate id) (p.relocate (· + times.toList.length))).Derives
      (ofText (times ++ text)) [] := by
    rw [ofText_append, ← placed_id]
    exact .copies (t.derives_placed hbehind ht) hderives
  rw [evaluate_of_derives (.term hcopies), Expression.eval, Term.eval, Term.eval_relocate, Primary.eval_relocate,
    htimes, heval 0 (by omega)]
  rfl

theorem noNumeral_parens (text : String) : NoNumeral (ofText (parens text)) := by
  rw [parens, ofText_append, ofText_append, List.append_assoc]
  rintro _ ⟨⟩
  decide

end Texts

end Notation

/-! ### Chances -/

namespace Distribution
variable {d e : Distribution Rat}

theorem chance_congr (h : d.table = e.table) (f : Face) : d.chance f = e.chance f := by
  rw [chance_eq, chance_eq, weight, weight, total, total, h]

/-- Copies in a certain number have the chances of those copies, even if they weigh nothing. -/
theorem repeated_scalar {limits : Limits} {die b : Distribution Rat} {v : Int64} (hb : copies limits die v = .ok b)
    (htotal : 0 ≤ b.total) : ∃ r, repeated limits (scalar v) die = .ok r ∧ ∀ f, r.chance f = b.chance f := by
  refine ⟨_, repeated_eq_ok.mpr ⟨fun _ => b, ?_, rfl⟩, fun f => ?_⟩
  · intro e he
    rw [numbers_scalar, List.mem_singleton] at he
    rw [he, hb]
  · rw [chance_mixture_counts (fun _ => b), chance_eq, living, numbers_scalar]
    rcases htotal.lt_or_eq with hpos | hzero
    · simp [hpos]
    · simp [← hzero]

/-- The better of two copies is one roll against another. -/
theorem Numeric.table_keptCopies_two (h : d.Numeric) (direction : Direction) :
    (keptCopies 2 d ⟨direction, 1⟩).table = (pairUp direction.better d d).table :=
  (h.resultOf_keptCopies 2 ⟨direction, 1⟩).table_eq (h.resultOf_foldl_better direction 1)

theorem total_foldl_add (d : Distribution Rat) (n : Nat) :
    ((List.replicate n d).foldl add d).total = d.total ^ (n + 1) := by
  induction n with
  | zero => rw [pow_one]; rfl
  | succ n ih =>
    rw [List.replicate_succ', List.foldl_append, List.foldl_cons, List.foldl_nil, total_add, ih, ← pow_succ']

end Distribution

namespace Notation
open DiceLaw.Distribution

theorem operate_pairUp {op : Operator} {g : Int64 → Int64 → Int64} {d e : Distribution Rat}
    (h : op.apply d e = .ok (pairUp g d e)) :
    operate op d e none none = .ok ((pairUp g d e).scale (if 0 < d.total then e.total else 1)) := by
  rw [operate_of_apply h, total_pairUp]
  congr 2
  split
  next hpos => rw [mul_div_cancel_right₀ _ hpos.ne']
  next => rfl

private theorem factor_pos {before argument : Rat} (h : 0 < before → 0 < argument) :
    0 < if 0 < before then argument else 1 := by
  split
  next hpos => exact h hpos
  next => exact zero_lt_one

/-! ### Spellings -/

/-- Both texts have a distribution, with the same chance for every face. -/
def SameRoll (s : Setting) (a b : String) : Prop :=
  ∃ d e : Distribution Rat, evaluate s a = .ok d ∧ evaluate s b = .ok e ∧ ∀ f, d.chance f = e.chance f

section Spellings
variable {s : Setting} {X : String} {d : Distribution Rat} (h : evaluate s X = .ok d)
include h

theorem evaluate_parens (hdepth : (Expression.ofText X).nesting + 1 ≤ s.limits.maxDepth.toNat) :
    evaluate s (parens X) = .ok d := (isPrimary_group h).evaluate_eq hdepth

theorem evaluate_advantage (hdepth : (Expression.ofText X).nesting + 1 ≤ s.limits.maxDepth.toNat) :
    evaluate s (parens X ++ "!") = .ok ((d.max d).scale (if 0 < d.total then d.total else 1)) := by
  have hunary : Operator.advantage.isUnary := rfl
  rw [evaluate_append_unary hunary rfl (evaluate_parens h hdepth), operate_pairUp rfl]
  rfl

theorem evaluate_against_itself (hdepth : (Expression.ofText X).nesting + 1 ≤ s.limits.maxDepth.toNat)
    {op : Operator} (hop : ¬ op.isUnary) {symbol : String}
    (hsymbol : (Cell.ofText symbol).map Cell.char = op.word) {g : Int64 → Int64 → Int64}
    (happly : op.apply d d = .ok (pairUp g d d)) :
    evaluate s (parens X ++ symbol ++ parens X) =
      .ok ((pairUp g d d).scale (if 0 < d.total then d.total else 1)) := by
  have hX := evaluate_parens h hdepth
  rw [evaluate_append hop hsymbol hX (isPrimary_group h).term hX, operate_pairUp happly]
  rfl

/-- Rolled twice, with one kept. -/
theorem evaluate_keep_one (hplain : d.Plain) (hdepth : (Expression.ofText X).nesting + 2 ≤ s.limits.maxDepth.toNat)
    (hrepeat : 2 ≤ s.limits.maxRepeat.toNat)
    (hcombinations : d.numbers.length ^ 2 ≤ s.limits.maxKeepCombinations.toNat) (direction : Direction) :
    ∃ r, evaluate s ("2" ++ (keepOne direction ++ parens X)) = .ok r ∧
      ∀ f, r.chance f = (pairUp direction.better d d).chance f := by
  let die := d.withKeep ⟨direction, 1⟩
  have hdie : die.Plain := ⟨hplain.numeric, hplain.nonneg⟩
  have htwo : Distribution.copies s.limits die 2 = .ok (keptCopies 2 die ⟨direction, 1⟩) :=
    copies_eq_ok.mpr ⟨⟨by decide, hrepeat⟩,
      keepOfCopies_eq_ok.mpr ⟨⟨hcombinations, drawsInRange_of_count_le_one le_rfl _ _⟩, rfl⟩⟩
  obtain ⟨r, hr, hchance⟩ := repeated_scalar htwo (hdie.keptCopies 2 _).nonneg.total_nonneg
  obtain ⟨hterm, -, htimes⟩ := evaluate_toString s (k := 2) (by decide)
  have hselector : Cell.NoNumeral (Cell.ofText (keepOne direction ++ parens X)) := by
    rw [Cell.ofText_append]
    cases direction <;> rintro _ ⟨⟩ <;> decide
  have hkept := (isPrimary_group h).keep (noNumeral_parens X) direction
  have hcopies := hkept.evaluate_copies hselector hdepth hterm htimes
  refine ⟨r, hcopies.trans (congrArg lift hr), fun f => ?_⟩
  rw [hchance, chance_congr (Numeric.table_keptCopies_two hdie.numeric direction)]
  rfl

/-- Rolled in a certain number, and summed. -/
theorem evaluate_times (hplain : d.Plain) (hdepth : (Expression.ofText X).nesting + 1 ≤ s.limits.maxDepth.toNat)
    {k : Nat} (hrepeat : k ≤ s.limits.maxRepeat.toNat) (hkeep : d.keep? = none) :
    ∃ r, evaluate s (parens (toString k) ++ parens X) = .ok r ∧ ∀ f, r.chance f = (sumOfCopies k d).chance f := by
  have hsmall : (k : Int) ≤ Int64.maxValue.toInt := by
    have hlimit : s.limits.maxRepeat.toNat < 2 ^ 32 := s.limits.maxRepeat.toNat_lt
    have hmax : (2 ^ 32 : Int) ≤ Int64.maxValue.toInt := by decide
    omega
  have htoInt : (Int64.ofInt k).toInt = k := by
    have hmax : Int64.maxValue.toInt = 2 ^ 63 - 1 := by decide
    exact Int64.toInt_ofInt_of_le (by omega) (by omega)
  obtain ⟨-, hnone, htimes⟩ := evaluate_toString s hsmall
  have hcount : Distribution.copies s.limits d (Int64.ofInt k) = .ok (sumOfCopies k d) := by
    refine copies_eq_ok.mpr ⟨?_, ?_⟩
    · rw [htoInt]
      exact ⟨Int.natCast_nonneg k, hrepeat⟩
    · rw [Distribution.branch, hkeep, htoInt]
      rfl
  obtain ⟨r, hr, hchance⟩ := repeated_scalar hcount (hplain.sumOfCopies k).nonneg.total_nonneg
  have hgroup := isPrimary_group htimes
  have hcopies := (isPrimary_group h).evaluate_copies (noNumeral_parens X) hdepth hgroup.term
    (hgroup.evaluate_eq (by omega))
  exact ⟨r, hcopies.trans (congrArg lift hr), hchance⟩

/-- Added up one by one. -/
theorem evaluate_chain (hplain : d.Plain) (hdepth : (Expression.ofText X).nesting + 1 ≤ s.limits.maxDepth.toNat)
    (n : Nat) : ∃ c : Rat, 0 < c ∧
    evaluate s ((List.replicate n (parens X)).foldl (fun text t => text ++ " ~+ " ++ t) (parens X)) =
      .ok (((List.replicate n d).foldl Distribution.add d).scale c) := by
  have hX := evaluate_parens h hdepth
  induction n with
  | zero => exact ⟨1, zero_lt_one, by rw [scale_one]; exact hX⟩
  | succ n ih =>
    obtain ⟨c, hc, htext⟩ := ih
    let sum := (List.replicate n d).foldl Distribution.add d
    have hfactor : 0 < if 0 < (sum.scale c).total then d.total else 1 := factor_pos fun hpos => by
      refine hplain.nonneg.total_nonneg.lt_of_ne' fun hzero => ?_
      rw [total_scale, total_foldl_add, hzero, zero_pow (Nat.succ_ne_zero n), zero_mul] at hpos
      exact lt_irrefl 0 hpos
    refine ⟨c * (if 0 < (sum.scale c).total then d.total else 1), mul_pos hc hfactor, ?_⟩
    have hbinary : ¬ Operator.add.isUnary := by decide
    rw [List.replicate_succ', List.foldl_append, List.foldl_cons, List.foldl_nil, List.replicate_succ',
      List.foldl_append, List.foldl_cons, List.foldl_nil,
      evaluate_append hbinary rfl htext (isPrimary_group h).term hX, operate_pairUp rfl]
    have hscale := pairUp_scale Value.add sum d c 1
    rw [scale_one, mul_one] at hscale
    rw [hscale, scale_scale]
    rfl

end Spellings

/-- Different spellings of a roll agree, within the limits on the longer one. A text in parentheses with advantage
is that text against itself with the larger kept, and two of it with the highest kept; likewise for the smaller and
the lowest. A certain number of it, unless it is marked to keep some, is that many of it added up, as long as no sum
can leave the range. -/
theorem evaluate_spellings {s : Setting} {X : String} {d : Distribution Rat} (h : evaluate s X = .ok d)
    (hdepth : (Expression.ofText X).nesting + 1 ≤ s.limits.maxDepth.toNat) :
    SameRoll s (parens X ++ "!") (parens X ++ " > " ++ parens X) ∧
    ((Expression.ofText X).nesting + 2 ≤ s.limits.maxDepth.toNat → 2 ≤ s.limits.maxRepeat.toNat →
      d.numbers.length ^ 2 ≤ s.limits.maxKeepCombinations.toNat →
      SameRoll s (parens X ++ "!") ("2kh1" ++ parens X) ∧
      SameRoll s (parens X ++ " < " ++ parens X) ("2kl1" ++ parens X)) ∧
    ∀ k : Nat, 0 < k → k ≤ s.limits.maxRepeat.toNat → d.keep? = none →
      (∀ v, .number v ∈ d.table.faces → |v.toInt| * k ≤ Int64.maxValue.toInt) →
      SameRoll s (parens (toString k) ++ parens X) (" ~+ ".intercalate (List.replicate k (parens X))) := by
  have hplain : d.Plain := (Expression.mass _ (Expression.ofText_of_evaluate h).2.2).1
  have hscale : 0 < if 0 < d.total then d.total else 1 := factor_pos id
  have hbetter := evaluate_advantage h hdepth
  have hmax : evaluate s (parens X ++ " > " ++ parens X) = _ :=
    evaluate_against_itself h hdepth (show ¬ Operator.max.isUnary by decide) rfl rfl
  have hmin : evaluate s (parens X ++ " < " ++ parens X) = _ :=
    evaluate_against_itself h hdepth (show ¬ Operator.min.isUnary by decide) rfl rfl
  refine ⟨⟨_, _, hbetter, hmax, fun f => rfl⟩, ?_, ?_⟩
  · intro hnesting hrepeat hcombinations
    obtain ⟨high, hhigh, hhighChance⟩ := evaluate_keep_one h hplain hnesting hrepeat hcombinations .highest
    obtain ⟨low, hlow, hlowChance⟩ := evaluate_keep_one h hplain hnesting hrepeat hcombinations .lowest
    rw [← String.append_assoc] at hhigh hlow
    refine ⟨⟨_, _, hbetter, hhigh, fun f => ?_⟩, ⟨_, _, hmin, hlow, fun f => ?_⟩⟩
    · rw [chance_scale _ hscale, hhighChance]
      rfl
    · rw [chance_scale _ hscale, hlowChance]
      rfl
  · intro k hk hrepeat hkeep hrange
    obtain ⟨n, rfl⟩ := Nat.exists_eq_add_of_lt hk
    rw [Nat.zero_add] at hrepeat hrange ⊢
    obtain ⟨r, hr, hchance⟩ := evaluate_times h hplain hdepth hrepeat hkeep
    obtain ⟨c, hc, hchain⟩ := evaluate_chain h hplain hdepth n
    rw [foldl_append_eq_intercalate, ← List.replicate_succ] at hchain
    refine ⟨_, _, hr, hchain, fun f => ?_⟩
    rw [hchance, chance_scale _ hc, chance_congr (table_sumOfCopies_succ (.inl hrange))]

/-- A die around zero, with a fourth face of another weight. -/
theorem evaluate_spellings_three :
    SameRoll {} "(d3 - 2 & 5)!" "(d3 - 2 & 5) > (d3 - 2 & 5)" ∧ SameRoll {} "(d3 - 2 & 5)!" "2kh1(d3 - 2 & 5)" ∧
    SameRoll {} "(d3 - 2 & 5) < (d3 - 2 & 5)" "2kl1(d3 - 2 & 5)" ∧
    SameRoll {} "(3)(d3 - 2 & 5)" "(d3 - 2 & 5) ~+ (d3 - 2 & 5) ~+ (d3 - 2 & 5)" := by
  have hX : ((evaluate (W := Rat) {} "d3 - 2 & 5").toOption.map fun d => (d.table.faces, d.keep?, d.numbers.length)) =
      some ([.number (-1), .number 0, .number 1, .number 5], none, 4) := by decide +kernel
  obtain ⟨d, hd, hvalues⟩ := Option.map_eq_some_iff.mp hX
  obtain ⟨hfaces, hvalues⟩ := Prod.mk.inj hvalues
  obtain ⟨hkeep, hlength⟩ := Prod.mk.inj hvalues
  have hnesting : (Expression.ofText "d3 - 2 & 5").nesting = 0 := by decide +kernel
  obtain ⟨hagainst, hkept, htimes⟩ := evaluate_spellings (toOption_eq_some.mp hd) (by rw [hnesting]; decide)
  obtain ⟨hhigh, hlow⟩ := hkept (by rw [hnesting]; decide) (by decide) (by rw [hlength]; decide)
  refine ⟨hagainst, hhigh, hlow, htimes 3 (by decide) (by decide) hkeep fun v hv => ?_⟩
  rw [hfaces] at hv
  obtain rfl | rfl | rfl | rfl : v = -1 ∨ v = 0 ∨ v = 1 ∨ v = 5 := by simpa using hv
  all_goals decide

end Notation
end DiceLaw
