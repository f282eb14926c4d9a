import DiceLaw.Proofs.Notation.Likeness

/-! Two texts read side by side. The reader sees letters one at a time and numerals only whole. A relation of cells
that keeps in step with it is therefore kept by everything that is read: both texts have trees of one shape, with
related numerals and faults in them. Relating a text to itself shows what holds of every numeral and of every fault
in its tree. -/
namespace DiceLaw.Notation

namespace Likeness
variable {L : Likeness}

/-- Related parts, with related cells behind them. -/
structure Read (L : Likeness) {α : Type} (related : α → α → Prop) {m n : Nat} (x : Reading α m)
    (y : Reading α n) : Prop where
  value : related x.value y.value
  rest : L.cells x.rest y.rest

/-- The same for readings without their bounds. -/
def Beside (L : Likeness) {α : Type} (related : α → α → Prop) (x y : α × List Cell) : Prop :=
  related x.1 y.1 ∧ L.cells x.2 y.2

theorem Read.of_pair {α : Type} {related : α → α → Prop} {m n : Nat} {x : Reading α m} {y : Reading α n}
    (h : L.Beside related x.pair y.pair) : L.Read related x y :=
  ⟨h.1, h.2⟩

theorem Read.rel_of_map_pair {α : Type} {related : α → α → Prop} {m n : Nat} {x : Option (Reading α m)}
    {y : Option (Reading α n)} (h : Option.Rel (L.Beside related) (x.map Reading.pair) (y.map Reading.pair)) :
    Option.Rel (L.Read related) x y :=
  match x, y, h with
  | none, none, _ => .none
  | some _, some _, .some h => .some (of_pair h)

/-! ### Leaves -/

/-- No numeral has a character of this word. -/
def Lettered (w : List Char) : Prop := ∀ a ∈ w, (Text.isDigit a || a == 'n') = false

instance (w : List Char) : Decidable (Lettered w) :=
  List.decidableBAll (fun a => (Text.isDigit a || a == 'n') = false) w

theorem lettered_word (op : Operator) : Lettered op.word := by
  cases op <;> decide

theorem isNumeric_of_char {c : Cell} {a : Char} (hc : c.char = a) (ha : (Text.isDigit a || a == 'n') = false) :
    c.isNumeric = false := by
  rw [Cell.isNumeric, hc, ha]

theorem char_eq_iff {c d : Cell} {s t : List Cell} (h : L.cells (c :: s) (d :: t)) {a : Char}
    (ha : (Text.isDigit a || a == 'n') = false) : d.char = a ↔ c.char = a := by
  obtain ⟨d', t', heq, hnumeric, hsame⟩ := L.cons h
  obtain ⟨rfl, rfl⟩ := List.cons.inj heq
  cases hc : c.isNumeric with
  | false => rw [(hsame hc).1]
  | true => exact iff_of_false (char_ne_of_numeric (hnumeric.trans hc) ha) (char_ne_of_numeric hc ha)

theorem tail {c d : Cell} {s t : List Cell} (h : L.cells (c :: s) (d :: t)) (hc : c.isNumeric = false) :
    L.cells s t := by
  obtain ⟨d', t', heq, -, hsame⟩ := L.cons h
  obtain ⟨rfl, rfl⟩ := List.cons.inj heq
  exact (hsame hc).2

theorem exists_cons {c : Cell} {s t : List Cell} (h : L.cells (c :: s) t) : ∃ d t', t = d :: t' := by
  obtain ⟨d, t', rfl, -⟩ := L.cons h
  exact ⟨d, t', rfl⟩

theorem keyword_like {w : List Char} (hw : Lettered w) {s t : List Cell} (h : L.cells s t) :
    Parallel L.faults L.cells (keyword w s) (keyword w t) := by
  induction w generalizing s t with
  | nil => exact .ok h
  | cons a w ih =>
    obtain ⟨ha, hw⟩ := List.forall_mem_cons.mp hw
    cases s with
    | nil =>
      obtain rfl := L.eq_nil h
      exact .error (L.unexpected _ h)
    | cons c s =>
      obtain ⟨d, t, rfl⟩ := exists_cons h
      rw [keyword, keyword]
      simp only [char_eq_iff h ha]
      split
      next hc => exact ih hw (tail h (isNumeric_of_char hc ha))
      next => exact .error (L.unexpected _ h)

theorem numeral_like {s t : List Cell} (h : L.cells s t) :
    Parallel L.faults (L.Read L.numerals) (numeral s) (numeral t) := by
  cases s with
  | nil =>
    obtain rfl := L.eq_nil h
    exact .error (L.unexpected _ h)
  | cons c s =>
    obtain ⟨d, t, rfl, hnumeric, -⟩ := L.cons h
    rw [numeral, numeral, hnumeric]
    split
    next hc =>
      obtain ⟨hvalue, hrest⟩ := L.front h hc
      exact .ok ⟨hvalue, hrest⟩
    next => exact .error (L.unexpected _ h)

theorem toOption_numeral_like {related : Primary → Primary → Prop} {f : Numeral → Primary}
    (hf : ∀ m m', L.numerals m m' → related (f m) (f m')) {s t : List Cell} (h : L.cells s t) :
    Option.Rel (L.Beside related) ((numeral s).toOption.map fun r => (f r.value, r.rest))
      ((numeral t).toOption.map fun r => (f r.value, r.rest)) := by
  have hnumeral := numeral_like h
  generalize numeral s = x, numeral t = y at hnumeral ⊢
  cases hnumeral with
  | ok h => exact .some ⟨hf _ _ h.value, h.rest⟩
  | error => exact .none

theorem die?_like {c d : Cell} {s t : List Cell} (h : L.cells (c :: s) (d :: t)) :
    Option.Rel (L.Read (Primary.Like L)) (die? (c :: s)) (die? (d :: t)) := by
  have hd : (Text.isDigit 'd' || 'd' == 'n') = false := by decide
  have hh : (Text.isDigit 'h' || 'h' == 'n') = false := by decide
  refine Read.rel_of_map_pair ?_
  rw [pair_die?, pair_die?]
  simp only [char_eq_iff h hd, char_eq_iff h hh]
  split
  next hc => exact toOption_numeral_like (fun _ _ => .die) (tail h (isNumeric_of_char hc hd))
  next =>
    split
    next hc =>
      have hrest := tail h (isNumeric_of_char hc hh)
      cases s with
      | nil =>
        obtain rfl := L.eq_nil hrest
        exact .none
      | cons c s =>
        obtain ⟨d, t, rfl⟩ := exists_cons hrest
        simp only [char_eq_iff hrest hd]
        split
        next hc => exact toOption_numeral_like (fun _ _ => .halfDie) (tail hrest (isNumeric_of_char hc hd))
        next => exact .none
    next => exact .none

/-- The same end is kept, and related numbers of dice. -/
theorem selector_like {c d : Cell} {s t : List Cell} (h : L.cells s t) :
    Parallel L.faults (L.Read fun k k' => k.1 = k'.1 ∧ L.numerals k.2 k'.2)
      (selector (c :: s)) (selector (d :: t)) := by
  have hh : (Text.isDigit 'h' || 'h' == 'n') = false := by decide
  have hl : (Text.isDigit 'l' || 'l' == 'n') = false := by decide
  cases s with
  | nil =>
    obtain rfl := L.eq_nil h
    exact .error (L.unexpected _ h)
  | cons a s =>
    obtain ⟨b, t, rfl⟩ := exists_cons h
    rw [selector, selector]
    simp only [char_eq_iff h hh, char_eq_iff h hl]
    split
    next hend =>
      have hnumeral := numeral_like (tail h (hend.elim (isNumeric_of_char · hh) (isNumeric_of_char · hl)))
      generalize numeral s = x, numeral t = y at hnumeral ⊢
      cases hnumeral with
      | ok h => exact .ok ⟨⟨rfl, h.value⟩, h.rest⟩
      | error h => exact .error h
    next => exact .error (L.unexpected _ h)

theorem announced?_of_numeric {a : Char} (ha : (Text.isDigit a || a == 'n') = true) : announced? a = none := by
  unfold announced?
  split <;> first | rfl | exact absurd ha (by decide)

theorem announced?_like {s t : List Cell} (h : L.cells s t) :
    (t.head?.bind fun c => announced? c.char) = s.head?.bind fun c => announced? c.char := by
  cases s with
  | nil =>
    obtain rfl := L.eq_nil h
    rfl
  | cons c s =>
    obtain ⟨d, t, rfl, hnumeric, hsame⟩ := L.cons h
    change announced? d.char = announced? c.char
    cases hc : c.isNumeric with
    | false => rw [(hsame hc).1]
    | true => rw [announced?_of_numeric (hnumeric.trans hc), announced?_of_numeric hc]

theorem lengthened_like {s t : List Cell} (h : L.cells s t) (op : Operator) : lengthened op t = lengthened op s := by
  have hword := keyword_like (lettered_word .divideFloor) h
  unfold lengthened
  generalize keyword Operator.divideFloor.word s = x, keyword Operator.divideFloor.word t = y at hword ⊢
  cases hword <;> cases op <;> rfl

theorem operator?_like {s t : List Cell} (h : L.cells s t) :
    Option.Rel (Parallel L.faults (L.Read Eq)) (operator? s) (operator? t) := by
  rw [operator?, operator?]
  simp only [announced?_like h]
  cases s.head?.bind fun c => announced? c.char with
  | none => exact .none
  | some op =>
    have hword : Parallel L.faults L.cells (keyword (lengthened op s).word s) (keyword (lengthened op t).word t) := by
      rw [lengthened_like h]
      exact keyword_like (lettered_word _) h
    simp only
    -- A word that is found carries its own proof, so both lookups are split and then compared.
    split
    next rest hrest =>
      rw [hrest] at hword
      split
      next rest' hrest' =>
        rw [hrest'] at hword
        cases hword with
        | ok h' => exact .some (.ok ⟨(lengthened_like h op).symm, h'⟩)
      next cause hcause =>
        rw [hcause] at hword
        cases hword
    next cause hcause =>
      rw [hcause] at hword
      split
      next rest hrest =>
        rw [hrest] at hword
        cases hword
      next cause' hcause' =>
        rw [hcause'] at hword
        cases hword with
        | error h' => exact .some (.error h')

theorem halved_like {s t : List Cell} (h : L.cells s t) : L.Read Eq (halved s) (halved t) := by
  have hword := keyword_like (w := ['h', 'a', 'l', 'f']) (by decide) h
  refine .of_pair ?_
  rw [pair_halved, pair_halved]
  generalize keyword ['h', 'a', 'l', 'f'] s = x, keyword ['h', 'a', 'l', 'f'] t = y at hword ⊢
  cases hword with
  | ok hrest => exact ⟨rfl, hrest⟩
  | error => exact ⟨rfl, h⟩

/-! ### Readers

One bound serves all readers, as for their soundness: below it primaries are known to be read alike. -/

section Inherited
variable {n : Nat}
  (hP : ∀ s : List Cell, s.length < n → ∀ t, L.cells s t →
    Option.Rel (L.Read (Primary.Like L)) (primary? s) (primary? t))
include hP

theorem copies_like {s t : List Cell} (hs : s.length < n) (h : L.cells s t) {u u' : Term} (hu : u.Like L u') :
    L.Read (Term.Like L) (copies u s) (copies u' t) := by
  obtain ⟨k, hk⟩ : ∃ k, s.length = k := ⟨_, rfl⟩
  induction k using Nat.strongRecOn generalizing s t u u' with
  | ind k ih =>
    have hprimary := hP s hs t h
    refine .of_pair ?_
    rw [pair_copies, pair_copies]
    generalize primary? s = x, primary? t = y at hprimary ⊢
    cases hprimary with
    | none => exact ⟨hu, h⟩
    | @some x y hp =>
      have hlt := x.shorter
      have hrest := ih _ (by omega) (by omega) hp.rest (.copies hu hp.value) rfl
      exact ⟨hrest.value, hrest.rest⟩

theorem term?_like {s t : List Cell} (hs : s.length < n) (h : L.cells s t) :
    Option.Rel (L.Read (Term.Like L)) (term? s) (term? t) := by
  have hprimary := hP s hs t h
  refine Read.rel_of_map_pair ?_
  rw [pair_term?, pair_term?]
  generalize primary? s = x, primary? t = y at hprimary ⊢
  cases hprimary with
  | none => exact .none
  | @some x y hp =>
    have hlt := x.shorter
    have hcopies := copies_like hP (by omega) hp.rest (.one hp.value)
    exact .some ⟨hcopies.value, hcopies.rest⟩

theorem branch_like {s t : List Cell} (hs : s.length < n) (h : L.cells s t) :
    L.Read (Branch.Like L) (branch s) (branch t) := by
  have hhalf := halved_like h
  have hterm := term?_like hP hs h
  refine .of_pair ?_
  rw [pair_branch, pair_branch, ← hhalf.value]
  split
  · exact ⟨.half, hhalf.rest⟩
  · generalize term? s = x, term? t = y at hterm ⊢
    cases hterm with
    | none => exact ⟨.whole, h⟩
    | some ht => exact ⟨.own ht.value, ht.rest⟩

theorem argument_like {s t : List Cell} (hs : s.length < n) (h : L.cells s t) (op : Operator) :
    L.Read (Argument.Like L) (argument op s) (argument op t) := by
  have hterm := term?_like hP hs h
  refine .of_pair ?_
  rw [pair_argument, pair_argument]
  split
  · exact ⟨.itself, h⟩
  · generalize term? s = x, term? t = y at hterm ⊢
    cases hterm with
    | none => exact ⟨.own (.one (.broken (L.unexpected _ h))), L.nil⟩
    | some ht => exact ⟨.own ht.value, ht.rest⟩

theorem crit_like {s t : List Cell} (hs : s.length < n) (h : L.cells s t) :
    L.Read (Crit.Like L) (crit s) (crit t) := by
  have hc : (Text.isDigit 'c' || 'c' == 'n') = false := by decide
  have hx : (Text.isDigit 'x' || 'x' == 'n') = false := by decide
  refine .of_pair ?_
  cases s with
  | nil =>
    obtain rfl := L.eq_nil h
    rw [crit]
    exact ⟨.absent, h⟩
  | cons c s =>
    obtain ⟨d, t, rfl⟩ := exists_cons h
    rw [pair_crit, pair_crit]
    simp only [char_eq_iff h hc, char_eq_iff h hx]
    split
    · have hword := keyword_like (w := ['c', 'r', 'i', 't']) (by decide) h
      generalize hkeyword : keyword ['c', 'r', 'i', 't'] (c :: s) = x, keyword ['c', 'r', 'i', 't'] (d :: t) = y
        at hword ⊢
      cases hword with
      | ok hafter =>
        have hlen := length_of_keyword hkeyword
        have hbranch := branch_like hP (by omega) hafter
        exact ⟨.one hbranch.value, hbranch.rest⟩
      | error h => exact ⟨.broken h, L.nil⟩
    · split
      · have hword := keyword_like (w := ['x', 'c', 'r', 'i', 't']) (by decide) h
        generalize hkeyword : keyword ['x', 'c', 'r', 'i', 't'] (c :: s) = x,
          keyword ['x', 'c', 'r', 'i', 't'] (d :: t) = y at hword ⊢
        cases hword with
        | @ok after after' hafter =>
          have hlen := length_of_keyword hkeyword
          have hcount := numeral_like hafter
          simp only
          generalize numeral after = x, numeral after' = y at hcount ⊢
          cases hcount with
          | @ok x y hm =>
            have hlt := x.shorter
            have hbranch := branch_like hP (by omega) hm.rest
            exact ⟨.many hm.value hbranch.value, hbranch.rest⟩
          | error h => exact ⟨.broken h, L.nil⟩
        | error h => exact ⟨.broken h, L.nil⟩
      · exact ⟨.absent, h⟩

theorem save_like {s t : List Cell} (hs : s.length < n) (h : L.cells s t) :
    L.Read (Save.Like L) (save s) (save t) := by
  have hchar : (Text.isDigit 's' || 's' == 'n') = false := by decide
  refine .of_pair ?_
  cases s with
  | nil =>
    obtain rfl := L.eq_nil h
    rw [save]
    exact ⟨.absent, h⟩
  | cons c s =>
    obtain ⟨d, t, rfl⟩ := exists_cons h
    rw [pair_save, pair_save]
    simp only [char_eq_iff h hchar]
    split
    · have hword := keyword_like (w := ['s', 'a', 'v', 'e']) (by decide) h
      generalize hkeyword : keyword ['s', 'a', 'v', 'e'] (c :: s) = x, keyword ['s', 'a', 'v', 'e'] (d :: t) = y
        at hword ⊢
      cases hword with
      | ok hafter =>
        have hlen := length_of_keyword hkeyword
        have hbranch := branch_like hP (by omega) hafter
        exact ⟨.one hbranch.value, hbranch.rest⟩
      | error h => exact ⟨.broken h, L.nil⟩
    · exact ⟨.absent, h⟩

theorem applications_like {s t : List Cell} (hs : s.length < n) (h : L.cells s t) {left left' : Expression}
    (hleft : left.Like L left') : L.Read (Expression.Like L) (applications left s) (applications left' t) := by
  obtain ⟨k, hk⟩ : ∃ k, s.length = k := ⟨_, rfl⟩
  induction k using Nat.strongRecOn generalizing s t left left' with
  | ind k ih =>
    have hop := operator?_like h
    refine .of_pair ?_
    rw [pair_applications, pair_applications]
    generalize operator? s = x, operator? t = y at hop ⊢
    cases hop with
    | none => exact ⟨hleft, h⟩
    | some hop =>
      cases hop with
      | error h => exact ⟨.broken hleft h, L.nil⟩
      | @ok o o' ho =>
        obtain ⟨op, s₁, h₁⟩ := o
        obtain ⟨op', t₁, _⟩ := o'
        obtain ⟨rfl, h⟩ : op = op' ∧ L.cells s₁ t₁ := ⟨ho.value, ho.rest⟩
        -- Each part is read where the one before it ends.
        have h₂ := (argument op s₁).shorter
        have h₃ := (halved (argument op s₁).rest).shorter
        have h₄ := (crit (halved (argument op s₁).rest).rest).shorter
        have h₅ := (save (crit (halved (argument op s₁).rest).rest).rest).shorter
        have hargument := argument_like hP (by omega) h op
        have hhalf := halved_like hargument.rest
        have hcrit := crit_like hP (by omega) hhalf.rest
        have hsave := save_like hP (by omega) hcrit.rest
        have hread : Expression.Like L
            (.apply left op (argument op s₁).value (halved (argument op s₁).rest).value _ _)
            (.apply left' op (argument op t₁).value (halved (argument op s₁).rest).value _ _) :=
          .apply hleft hargument.value hcrit.value hsave.value
        have hrest := ih _ (by omega) (by omega) hsave.rest hread rfl
        simp only [← hhalf.value]
        exact ⟨hrest.value, hrest.rest⟩

theorem expression_like_below {s t : List Cell} (hs : s.length < n) (h : L.cells s t) :
    L.Read (Expression.Like L) (expression s) (expression t) := by
  have hterm := term?_like hP hs h
  refine .of_pair ?_
  rw [pair_expression, pair_expression]
  generalize term? s = x, term? t = y at hterm ⊢
  cases hterm with
  | none => exact ⟨.term (.one (.broken (L.unexpected _ h))), L.nil⟩
  | @some x y ht =>
    have hlt := x.shorter
    have happlications := applications_like hP (by omega) ht.rest (.term ht.value)
    exact ⟨happlications.value, happlications.rest⟩

end Inherited

/-- The induction is on the length of the first text, since what stands in parentheses or behind a keep selector is
read by the same functions. -/
theorem primary?_like {s t : List Cell} (h : L.cells s t) :
    Option.Rel (L.Read (Primary.Like L)) (primary? s) (primary? t) := by
  have hparen : (Text.isDigit '(' || '(' == 'n') = false := by decide
  have hd : (Text.isDigit 'd' || 'd' == 'n') = false := by decide
  have hh : (Text.isDigit 'h' || 'h' == 'n') = false := by decide
  have hk : (Text.isDigit 'k' || 'k' == 'n') = false := by decide
  obtain ⟨n, hn⟩ : ∃ n, s.length = n := ⟨_, rfl⟩
  induction n using Nat.strongRecOn generalizing s t with
  | ind n ih =>
    have hP : ∀ s' : List Cell, s'.length < n → ∀ t', L.cells s' t' →
        Option.Rel (L.Read (Primary.Like L)) (primary? s') (primary? t') := fun s' hs' t' h' => ih s'.length hs' h' rfl
    cases s with
    | nil =>
      obtain rfl := L.eq_nil h
      rw [primary?]
      exact .none
    | cons c s =>
      obtain ⟨d, t, rfl⟩ := exists_cons h
      rw [List.length_cons] at hn
      refine Read.rel_of_map_pair ?_
      rw [pair_primary?, pair_primary?]
      simp only [char_eq_iff h hparen, char_eq_iff h hd, char_eq_iff h hh, char_eq_iff h hk]
      split
      next hc =>
        have hinner := expression_like_below hP (by omega) (tail h (isNumeric_of_char hc hparen))
        have hclose := keyword_like (w := [')']) (by decide) hinner.rest
        generalize keyword [')'] (expression s).rest = x, keyword [')'] (expression t).rest = y at hclose ⊢
        cases hclose with
        | ok hafter => exact .some ⟨.group hinner.value, hafter⟩
        | error h => exact .some ⟨.group (.broken hinner.value h), L.nil⟩
      next =>
        split
        next =>
          have hdie := die?_like h
          generalize die? (c :: s) = x, die? (d :: t) = y at hdie ⊢
          cases hdie with
          | none => exact .none
          | some h => exact .some ⟨h.value, h.rest⟩
        next =>
          split
          next hc =>
            have hselector := selector_like (c := c) (d := d) (tail h (isNumeric_of_char hc hk))
            generalize selector (c :: s) = x, selector (d :: t) = y at hselector ⊢
            cases hselector with
            | error h => exact .some ⟨.broken h, L.nil⟩
            | @ok x y hchosen =>
              have hlt := x.shorter
              have htarget := hP x.rest (by simp only [List.length_cons] at hlt; omega) _ hchosen.rest
              obtain ⟨hdirection, hcount⟩ := hchosen.value
              simp only [← hdirection]
              generalize primary? x.rest = u, primary? y.rest = v at htarget ⊢
              cases htarget with
              | none => exact .some ⟨.keep hcount (.broken (L.keepTarget h hc)), L.nil⟩
              | some htarget => exact .some ⟨.keep hcount htarget.value, htarget.rest⟩
          next =>
            have hnumber := numeral_like h
            generalize numeral (c :: s) = x, numeral (d :: t) = y at hnumber ⊢
            cases hnumber with
            | ok h => exact .some ⟨.number h.value, h.rest⟩
            | error => exact .none

/-- Related texts have trees of one shape. -/
theorem ofCells_like {s t : List Cell} (h : L.cells s t) : (Expression.ofCells s).Like L (Expression.ofCells t) := by
  have hread := expression_like_below (fun _ _ _ h => primary?_like h) (Nat.lt_succ_self _) h
  rw [Expression.ofCells, Expression.ofCells]
  generalize expression s = x, expression t = y at hread ⊢
  obtain ⟨e, rest, hlt⟩ := x
  obtain ⟨e', rest', hlt'⟩ := y
  obtain ⟨hvalue, hrest⟩ := hread
  cases rest with
  | nil =>
    obtain rfl := L.eq_nil hrest
    exact hvalue
  | cons c rest =>
    obtain ⟨d, rest', rfl⟩ := exists_cons hrest
    exact .broken hvalue (L.unexpected _ hrest)

end Likeness

/-- Related texts have the same distribution, with the same note, or related faults. -/
theorem evaluate_like {L : Likeness} {n n' : Int64} {W : Type} [Weight W] {limits : Limits} (h : L.Agrees n n')
    {a b : String} (hcells : L.cells (Cell.ofText a) (Cell.ofText b)) :
    Parallel L.faults Eq (evaluate (W := W) ⟨limits, n⟩ a) (evaluate ⟨limits, n'⟩ b) :=
  (Expression.ofText a).eval_like h 0 (Likeness.ofCells_like hcells)

end DiceLaw.Notation
