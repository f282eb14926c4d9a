import DiceLaw.Proofs.Notation.Language

/-! A piece of notation means the same wherever it stands in a text. Moved, it comes to the same distribution, or to
the same fault in another place; and its derivation needs nothing of what follows it but that no numeral goes on
there. -/
namespace DiceLaw.Notation

/-! ### Cells -/

namespace Cell

/-- The same character in another place. -/
def relocate (g : Nat → Nat) (c : Cell) : Cell := { c with position := g c.position }

/-- Cells moved, in front of others. -/
def placed (g : Nat → Nat) (tail s : List Cell) : List Cell := s.map (relocate g) ++ tail

theorem placed_id (tail s : List Cell) : placed id tail s = s ++ tail := by
  rw [placed, show relocate id = id from rfl, List.map_id]

theorem placed_nil (g : Nat → Nat) (s : List Cell) : placed g [] s = s.map (relocate g) := List.append_nil _

/-- No numeral goes on here. -/
def NoNumeral (s : List Cell) : Prop := ∀ c ∈ s.head?, ¬ c.isNumeric

instance (s : List Cell) : Decidable (NoNumeral s) := inferInstanceAs (Decidable (∀ c ∈ s.head?, ¬ c.isNumeric))

theorem NoNumeral.map_relocate {s : List Cell} (h : NoNumeral s) (g : Nat → Nat) : NoNumeral (s.map (relocate g)) := by
  cases s with
  | nil => rintro c ⟨⟩
  | cons c s =>
    rintro _ ⟨⟩
    exact h c rfl

/-- The cells of a text behind another are its own, that much further on. -/
theorem ofText_append (a b : String) :
    ofText (a ++ b) = ofText a ++ (ofText b).map (relocate (· + a.toList.length)) := by
  have hshift : b.toList.zipIdx a.toList.length =
      b.toList.zipIdx.map fun e => (e.1, e.2 + a.toList.length) := by
    rw [List.zipIdx_eq_map_add]
    simp [Nat.add_comm]
  rw [ofText, String.toList_append, List.zipIdx_append, Nat.zero_add, hshift, List.filter_append,
    List.flatMap_append, List.filter_map, List.flatMap_map, ofText, ofText, List.map_flatMap]
  simp [Function.comp_def, relocate]

end Cell

/-! ### Trees -/

/-- The place that a fault tells. -/
def Fault.place? : Fault → Option Nat
  | .unexpectedChar _ position _ | .malformedNumber _ position | .keepTarget position => some position
  | _ => none

/-- The same fault in another place. -/
def Fault.relocate (g : Nat → Nat) : Fault → Fault
  | .unexpectedChar found position expected => .unexpectedChar found (g position) expected
  | .malformedNumber text position => .malformedNumber text (g position)
  | .keepTarget position => .keepTarget (g position)
  | cause => cause

def Numeral.relocate (g : Nat → Nat) (m : Numeral) : Numeral := { m with position := g m.position }

mutual

/-- The same tree from another place. -/
def Primary.relocate (g : Nat → Nat) : Primary → Primary
  | .number m => .number (m.relocate g)
  | .die m => .die (m.relocate g)
  | .halfDie m => .halfDie (m.relocate g)
  | .keep direction m target => .keep direction (m.relocate g) (target.relocate g)
  | .group inner => .group (inner.relocate g)
  | .broken cause => .broken (cause.relocate g)

def Term.relocate (g : Nat → Nat) : Term → Term
  | .one first => .one (first.relocate g)
  | .copies counts die => .copies (counts.relocate g) (die.relocate g)

def Branch.relocate (g : Nat → Nat) : Branch → Branch
  | .whole => .whole
  | .half => .half
  | .own argument => .own (argument.relocate g)

def Crit.relocate (g : Nat → Nat) : Crit → Crit
  | .absent => .absent
  | .one branch => .one (branch.relocate g)
  | .many m branch => .many (m.relocate g) (branch.relocate g)
  | .broken cause => .broken (cause.relocate g)

def Save.relocate (g : Nat → Nat) : Save → Save
  | .absent => .absent
  | .one branch => .one (branch.relocate g)
  | .broken cause => .broken (cause.relocate g)

def Argument.relocate (g : Nat → Nat) : Argument → Argument
  | .itself => .itself
  | .own argument => .own (argument.relocate g)

def Expression.relocate (g : Nat → Nat) : Expression → Expression
  | .term first => .term (first.relocate g)
  | .apply left op argument halved crit save =>
    .apply (left.relocate g) op (argument.relocate g) halved (crit.relocate g) (save.relocate g)
  | .broken left cause => .broken (left.relocate g) (cause.relocate g)

end

/-! ### Evaluation -/

section Evaluation
variable (g : Nat → Nat)

theorem lift_relocate {α : Type} (r : Except Distribution.Fault α) : lift r = (lift r).mapError (Fault.relocate g) := by
  cases r <;> rfl

theorem deeper_relocate (s : Setting) (depth : Nat) :
    deeper s depth = (deeper s depth).mapError (Fault.relocate g) := by
  rw [deeper]
  split <;> rfl

theorem Numeral.value_relocate (n : Int64) (m : Numeral) :
    (m.relocate g).value n = (m.value n).mapError (Fault.relocate g) := by
  rw [Numeral.value, Numeral.value, show (m.relocate g).text n = m.text n from rfl]
  cases Text.readInt64? (m.text n) <;> rfl

theorem Numeral.count_relocate (what : Counted) (most : UInt32) (n : Int64) (m : Numeral) :
    (m.relocate g).count what most n = (m.count what most n).mapError (Fault.relocate g) := by
  refine bind_eq_mapError (m.value_relocate g n) fun v => ?_
  split <;> rfl

variable {W : Type} [Weight W] (s : Setting)

mutual

theorem Primary.eval_relocate : ∀ (p : Primary) (depth : Nat),
    (p.relocate g).eval s depth = (p.eval s depth : Except Fault (Distribution W)).mapError (Fault.relocate g)
  | .number m, _ => by
    rw [Primary.relocate, Primary.eval, Primary.eval]
    exact bind_eq_mapError (m.value_relocate g s.n) fun _ => rfl
  | .die m, _ => by
    rw [Primary.relocate, Primary.eval, Primary.eval]
    exact bind_eq_mapError (m.count_relocate g ..) fun _ => rfl
  | .halfDie m, _ => by
    rw [Primary.relocate, Primary.eval, Primary.eval]
    exact bind_eq_mapError (m.count_relocate g ..) fun _ => rfl
  | .keep _ m target, depth => by
    rw [Primary.relocate, Primary.eval, Primary.eval]
    exact bind_eq_mapError (m.count_relocate g ..) fun _ => bind_eq_mapError (deeper_relocate g s depth) fun inner =>
      bind_eq_mapError (target.eval_relocate inner) fun _ => rfl
  | .group inner, depth => by
    rw [Primary.relocate, Primary.eval, Primary.eval]
    exact bind_eq_mapError (deeper_relocate g s depth) fun level => inner.eval_relocate level
  | .broken _, _ => by
    rw [Primary.relocate, Primary.eval, Primary.eval]
    rfl

theorem Term.eval_relocate : ∀ (t : Term) (depth : Nat),
    (t.relocate g).eval s depth = (t.eval s depth : Except Fault (Distribution W)).mapError (Fault.relocate g)
  | .one first, depth => by rw [Term.relocate, Term.eval, first.eval_relocate depth, Term.eval]
  | .copies counts die, depth => by
    rw [Term.relocate, Term.eval, Term.eval]
    exact bind_eq_mapError (counts.eval_relocate depth) fun _ => bind_eq_mapError (die.eval_relocate depth) fun _ =>
      lift_relocate g _

theorem Branch.eval_relocate : ∀ (b : Branch) (depth : Nat) (main : Distribution W),
    (b.relocate g).eval s depth main = (b.eval s depth main).mapError (Fault.relocate g)
  | .whole, _, _ => by
    rw [Branch.relocate, Branch.eval]
    rfl
  | .half, _, _ => by
    rw [Branch.relocate, Branch.eval]
    exact lift_relocate g _
  | .own argument, depth, _ => by rw [Branch.relocate, Branch.eval, argument.eval_relocate depth, Branch.eval]

theorem Crit.eval_relocate : ∀ (c : Crit) (depth : Nat) (main current : Distribution W),
    (c.relocate g).eval s depth main current = (c.eval s depth main current).mapError (Fault.relocate g)
  | .absent, _, _, _ => by
    rw [Crit.relocate, Crit.eval]
    rfl
  | .broken _, _, _, _ => by
    rw [Crit.relocate, Crit.eval, Crit.eval]
    rfl
  | .one branch, depth, main, _ => by
    rw [Crit.relocate, Crit.eval, Crit.eval]
    exact bind_eq_mapError (lift_relocate g _) fun _ => bind_eq_mapError (branch.eval_relocate depth main) fun _ => rfl
  | .many m branch, depth, main, _ => by
    rw [Crit.relocate, Crit.eval, Crit.eval]
    exact bind_eq_mapError (m.count_relocate g ..) fun _ => bind_eq_mapError (lift_relocate g _) fun _ =>
      bind_eq_mapError (branch.eval_relocate depth main) fun _ => rfl

theorem Save.eval_relocate : ∀ (c : Save) (depth : Nat) (main current : Distribution W),
    (c.relocate g).eval s depth main current = (c.eval s depth main current).mapError (Fault.relocate g)
  | .absent, _, _, _ => by
    rw [Save.relocate, Save.eval]
    rfl
  | .broken _, _, _, _ => by
    rw [Save.relocate, Save.eval, Save.eval]
    rfl
  | .one branch, depth, main, _ => by
    rw [Save.relocate, Save.eval, Save.eval]
    exact bind_eq_mapError (lift_relocate g _) fun _ => bind_eq_mapError (branch.eval_relocate depth main) fun _ => rfl

theorem Argument.eval_relocate : ∀ (a : Argument) (depth : Nat) (current : Distribution W),
    (a.relocate g).eval s depth current = (a.eval s depth current).mapError (Fault.relocate g)
  | .itself, _, _ => by
    rw [Argument.relocate, Argument.eval]
    rfl
  | .own argument, depth, _ => by
    rw [Argument.relocate, Argument.eval, argument.eval_relocate depth, Argument.eval]

/-- A tree from another place has the same distribution or, moved likewise, the same fault. -/
theorem Expression.eval_relocate : ∀ (e : Expression) (depth : Nat),
    (e.relocate g).eval s depth = (e.eval s depth : Except Fault (Distribution W)).mapError (Fault.relocate g)
  | .term first, depth => by rw [Expression.relocate, Expression.eval, first.eval_relocate depth, Expression.eval]
  | .apply left op argument halved crit save, depth => by
    rw [Expression.relocate, Expression.eval, Expression.eval]
    refine bind_eq_mapError (left.eval_relocate depth) fun current =>
      bind_eq_mapError (argument.eval_relocate depth current) fun whole => ?_
    -- Both ways to the main argument go on alike.
    have hparts (main : Distribution W) := bind_eq_mapError (crit.eval_relocate depth main current) fun top =>
      bind_eq_mapError (save.eval_relocate depth main top.2) fun bottom =>
        lift_relocate g (applyParts op ⟨bottom.2, main⟩ (top.1 ++ bottom.1))
    cases halved with
    | true => exact bind_eq_mapError (lift_relocate g _) hparts
    | false => exact hparts whole
  | .broken left _, depth => by
    rw [Expression.relocate, Expression.eval, Expression.eval]
    exact bind_eq_mapError (left.eval_relocate depth) fun _ => rfl

end
end Evaluation

/-! ### Derivations -/

section Derivations
open Cell
variable {g : Nat → Nat} {tail : List Cell}

theorem Word.placed {w : List Char} {s rest : List Cell} (h : Word w s rest) :
    Word w (placed g tail s) (placed g tail rest) := by
  obtain ⟨front, hw, rfl⟩ := h
  refine ⟨front.map (Cell.relocate g), ?_, ?_⟩
  · rw [← hw, List.map_map]
    rfl
  · rw [Cell.placed, List.map_append, List.append_assoc, Cell.placed]

theorem Halved.placed {halved : Bool} {s rest : List Cell} (h : Halved halved s rest) :
    Halved halved (placed g tail s) (placed g tail rest) := by
  cases halved with
  | false => exact congrArg (Cell.placed g tail) h
  | true => exact Word.placed h

theorem Numeral.Derives.placed {m : Numeral} {s rest : List Cell} (h : m.Derives s rest) (htail : NoNumeral tail) :
    (m.relocate g).Derives (placed g tail s) (placed g tail rest) := by
  obtain ⟨first, others, hnumeric, hrest, rfl, rfl⟩ := h
  refine ⟨first.relocate g, others.map (Cell.relocate g), ?_, ?_, ?_, ?_⟩
  · intro c hc
    rw [← List.map_cons] at hc
    obtain ⟨a, ha, rfl⟩ := List.mem_map.mp hc
    exact hnumeric a ha
  · cases rest with
    | nil => exact htail
    | cons a rest =>
      rintro c ⟨⟩
      exact hrest a rfl
  · simp [Cell.placed]
  · simp [Numeral.relocate, Cell.relocate, Function.comp_def]

mutual

theorem Primary.derives_placed (htail : NoNumeral tail) : ∀ (p : Primary) {s rest : List Cell},
    p.Derives s rest → (p.relocate g).Derives (placed g tail s) (placed g tail rest)
  | .number _, _, _, .number hm => .number (hm.placed htail)
  | .die _, _, _, .die hw hm => .die hw.placed (hm.placed htail)
  | .halfDie _, _, _, .halfDie hw hm => .halfDie hw.placed (hm.placed htail)
  | .keep .highest _ p, _, _, .keepHighest hw hm hp =>
    .keepHighest hw.placed (hm.placed htail) (p.derives_placed htail hp)
  | .keep .lowest _ p, _, _, .keepLowest hw hm hp =>
    .keepLowest hw.placed (hm.placed htail) (p.derives_placed htail hp)
  | .group e, _, _, .group hw he hclose => .group hw.placed (e.derives_placed htail he) hclose.placed
  | .broken _, _, _, h => nomatch h

theorem Term.derives_placed (htail : NoNumeral tail) : ∀ (t : Term) {s rest : List Cell},
    t.Derives s rest → (t.relocate g).Derives (placed g tail s) (placed g tail rest)
  | .one p, _, _, .one hp => .one (p.derives_placed htail hp)
  | .copies t p, _, _, .copies ht hp => .copies (t.derives_placed htail ht) (p.derives_placed htail hp)

theorem Branch.derives_placed (htail : NoNumeral tail) : ∀ (b : Branch) {s rest : List Cell},
    b.Derives s rest → (b.relocate g).Derives (placed g tail s) (placed g tail rest)
  | .whole, _, _, .whole => .whole
  | .half, _, _, .half hw => .half hw.placed
  | .own t, _, _, .own ht => .own (t.derives_placed htail ht)

theorem Crit.derives_placed (htail : NoNumeral tail) : ∀ (c : Crit) {s rest : List Cell},
    c.Derives s rest → (c.relocate g).Derives (placed g tail s) (placed g tail rest)
  | .absent, _, _, .absent => .absent
  | .one b, _, _, .one hw hb => .one hw.placed (b.derives_placed htail hb)
  | .many _ b, _, _, .many hw hm hb => .many hw.placed (hm.placed htail) (b.derives_placed htail hb)
  | .broken _, _, _, h => nomatch h

theorem Save.derives_placed (htail : NoNumeral tail) : ∀ (c : Save) {s rest : List Cell},
    c.Derives s rest → (c.relocate g).Derives (placed g tail s) (placed g tail rest)
  | .absent, _, _, .absent => .absent
  | .one b, _, _, .one hw hb => .one hw.placed (b.derives_placed htail hb)
  | .broken _, _, _, h => nomatch h

theorem Argument.derives_placed (htail : NoNumeral tail) : ∀ (a : Argument) {op : Operator} {s rest : List Cell},
    a.Derives op s rest → (a.relocate g).Derives op (placed g tail s) (placed g tail rest)
  | .itself, _, _, _, .itself hop => .itself hop
  | .own t, _, _, _, .own hop ht => .own hop (t.derives_placed htail ht)

/-- A derivation holds for the same characters in another place, with more behind them. -/
theorem Expression.derives_placed (htail : NoNumeral tail) : ∀ (e : Expression) {s rest : List Cell},
    e.Derives s rest → (e.relocate g).Derives (placed g tail s) (placed g tail rest)
  | .term t, _, _, .term ht => .term (t.derives_placed htail ht)
  | .apply left _ argument _ crit save, _, _, .apply hl hw ha hh hc hs =>
    .apply (left.derives_placed htail hl) hw.placed (argument.derives_placed htail ha) hh.placed
      (crit.derives_placed htail hc) (save.derives_placed htail hs)
  | .broken _ _, _, _, h => nomatch h

end

theorem Primary.derives_relocate {p : Primary} {s : List Cell} (h : p.Derives s []) (g : Nat → Nat) :
    (p.relocate g).Derives (s.map (Cell.relocate g)) [] := by
  have hplaced : (p.relocate g).Derives (placed g [] s) (placed g [] []) := p.derives_placed (by rintro c ⟨⟩) h
  rwa [placed_nil] at hplaced

theorem Term.derives_relocate {t : Term} {s : List Cell} (h : t.Derives s []) (g : Nat → Nat) :
    (t.relocate g).Derives (s.map (Cell.relocate g)) [] := by
  have hplaced : (t.relocate g).Derives (placed g [] s) (placed g [] []) := t.derives_placed (by rintro c ⟨⟩) h
  rwa [placed_nil] at hplaced

end Derivations

/-! ### Texts put together -/

/-- Neither an operator nor a closing parenthesis starts like a numeral. -/
theorem Follows.noNumeral {s : List Cell} (h : Follows closers s) : Cell.NoNumeral s := by
  have hheads : ((closers.filterMap List.head?).all fun a => !(Text.isDigit a || a == 'n')) = true := by decide
  cases s with
  | nil => rintro c ⟨⟩
  | cons c s =>
    rintro _ ⟨⟩
    have hhead := List.all_eq_true.mp hheads c.char (h.head_mem (by decide))
    simpa [Cell.isNumeric] using hhead

/-- A run of digits and `n`s is a numeral. -/
theorem exists_numeral {text : String} (hne : Cell.ofText text ≠ []) (hnumeric : ∀ c ∈ Cell.ofText text, c.isNumeric) :
    ∃ m : Numeral, m.Derives (Cell.ofText text) [] ∧ m.symbols = (Cell.ofText text).map Cell.char := by
  obtain ⟨first, others, hcells⟩ := List.exists_cons_of_ne_nil hne
  rw [hcells] at hnumeric ⊢
  exact ⟨_, ⟨first, others, hnumeric, by rintro c ⟨⟩, (List.append_nil _).symm, rfl⟩, rfl⟩

theorem Expression.derives_append {op : Operator} (hop : ¬ op.isUnary) {symbol : String}
    (hsymbol : (Cell.ofText symbol).map Cell.char = op.word) {text argument : String} {left : Expression} {t : Term}
    (hleft : left.Derives (Cell.ofText text) []) (ht : t.Derives (Cell.ofText argument) []) :
    (Expression.apply (left.relocate id) op (.own (t.relocate (· + (text ++ symbol).toList.length))) false .absent
      .absent).Derives (Cell.ofText (text ++ symbol ++ argument)) [] := by
  let right := (Cell.ofText argument).map (Cell.relocate (· + (text ++ symbol).toList.length))
  let behind := (Cell.ofText symbol).map (Cell.relocate (· + text.toList.length)) ++ right
  have hcells : Cell.ofText (text ++ symbol ++ argument) = Cell.placed id behind (Cell.ofText text) := by
    rw [Cell.placed_id, Cell.ofText_append, Cell.ofText_append, List.append_assoc]
  have hword : Word op.word behind right := ⟨_, by rw [List.map_map, ← hsymbol]; rfl, rfl⟩
  have hbehind : Cell.NoNumeral behind := (Follows.of_word (operator_word_mem_closers op) hword).noNumeral
  rw [hcells]
  exact .apply (left.derives_placed hbehind hleft) hword (.own hop (Term.derives_relocate ht _)) rfl .absent .absent

section Texts
variable {W : Type} [Weight W] {s : Setting}

theorem Expression.ofText_of_evaluate {text : String} {d : Distribution W} (h : evaluate s text = .ok d) :
    (Expression.ofText text).Derives (Cell.ofText text) [] ∧
      (Expression.ofText text).nesting ≤ s.limits.maxDepth.toNat ∧
        Expression.denotation s (Expression.ofText text) = some d := by
  rw [evaluate, Expression.eval_eq_ok _ (Nat.zero_le _), Nat.zero_add] at h
  exact ⟨Expression.derives_of_intact (Expression.intact_of_denotation _ h.2), h⟩

theorem evaluate_of_derives {text : String} {e : Expression} (h : e.Derives (Cell.ofText text) []) :
    (evaluate s text : Except Fault (Distribution W)) = e.eval s 0 := by
  rw [evaluate, Expression.ofText, Expression.ofCells_of_derives h]

/-- An operator written between a text and a term is used on what they evaluate to. -/
theorem evaluate_append {op : Operator} (hop : ¬ op.isUnary) {symbol : String}
    (hsymbol : (Cell.ofText symbol).map Cell.char = op.word) {text argument : String} {d e : Distribution W}
    (htext : evaluate s text = .ok d) (hterm : ∃ t : Term, t.Derives (Cell.ofText argument) [])
    (hargument : evaluate s argument = .ok e) :
    evaluate s (text ++ symbol ++ argument) = lift (operate op d e none none) := by
  obtain ⟨t, ht⟩ := hterm
  have hleft := (Expression.ofText_of_evaluate htext).1
  rw [evaluate_of_derives (.term ht), Expression.eval] at hargument
  rw [evaluate_of_derives (Expression.derives_append hop hsymbol hleft ht)]
  refine Expression.eval_apply_eq_lift_operate (Nat.zero_le _) ?_ ?_ rfl (Nat.zero_le _) rfl (Nat.zero_le _) rfl
  · rw [Expression.eval_relocate, ← evaluate, htext]
    rfl
  · rw [Argument.eval, Term.eval_relocate, hargument]
    rfl

/-- An operator without a written argument is used on what stands before it twice. -/
theorem evaluate_append_unary {op : Operator} (hop : op.isUnary) {symbol : String}
    (hsymbol : (Cell.ofText symbol).map Cell.char = op.word) {text : String} {d : Distribution W}
    (h : evaluate s text = .ok d) : evaluate s (text ++ symbol) = lift (operate op d d none none) := by
  obtain ⟨hderives, -, -⟩ := Expression.ofText_of_evaluate h
  let behind := (Cell.ofText symbol).map (Cell.relocate (· + text.toList.length))
  have hword : Word op.word behind [] :=
    ⟨behind, by rw [List.map_map, ← hsymbol]; rfl, (List.append_nil _).symm⟩
  have hbehind : Cell.NoNumeral behind := (Follows.of_word (operator_word_mem_closers op) hword).noNumeral
  have happly : (Expression.apply ((Expression.ofText text).relocate id) op .itself false .absent .absent).Derives
      (Cell.ofText (text ++ symbol)) [] := by
    rw [Cell.ofText_append, ← Cell.placed_id]
    exact .apply (Expression.derives_placed hbehind _ hderives) hword (.itself hop) rfl .absent .absent
  rw [evaluate_of_derives happly]
  refine Expression.eval_apply_eq_lift_operate (Nat.zero_le _) ?_ ?_ rfl (Nat.zero_le _) rfl (Nat.zero_le _) rfl
  · rw [Expression.eval_relocate, ← evaluate, h]
    rfl
  · rw [Argument.eval]

end Texts

end DiceLaw.Notation
