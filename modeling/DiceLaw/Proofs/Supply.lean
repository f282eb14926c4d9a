import DiceLaw.Calculator
import DiceLaw.Proofs.CommandLine

/-! Who takes words from the supply. A roll takes one word for each face that it shows, and nothing else takes any: no
chances, no fault, no roll that nothing can come of. So what else is asked in between, or goes wrong, does not show in
the rolls, and neither does whether faces are rolled in one go or in two. A sum out of range, or a roll of a total that
is not finite, stops the run; from there on nothing is answered. -/
namespace DiceLaw

namespace Calculator
variable (W : Type) [Weight W]

/-! ### Questions -/

/-- How many words a question takes. -/
def drawn (limits : Limits) : Question → Nat
  | .chances _ _ => 0
  | .rolls text n count =>
    match evaluate (W := W) ⟨limits, n⟩ text with
    | .ok d => if d.Rollable then count else 0
    | .error _ => 0

/-- How many words some questions take, one after the other. -/
def drawnInAll (limits : Limits) : List Question → Nat
  | [] => 0
  | q :: qs => drawn W limits q + drawnInAll limits qs

/-- A question that the run does not survive: its text has no value for a reason that is not answered, or faces are
asked for whose total is not finite. -/
def Stops (limits : Limits) : Question → Prop
  | .chances text n => ∃ cause, evaluate (W := W) ⟨limits, n⟩ text = .error cause ∧ cause.stops = true
  | .rolls text n count =>
    (∃ cause, evaluate (W := W) ⟨limits, n⟩ text = .error cause ∧ cause.stops = true) ∨
      ∃ d : Distribution W, evaluate ⟨limits, n⟩ text = .ok d ∧ count ≠ 0 ∧ d.Overweight

/-- The calculator behind some questions, if the run has not stopped. -/
def after (c : Calculator) (qs : List Question) : Option Calculator :=
  qs.foldlM (fun c q => (c.ask (W := W) q).map (·.2)) c

/-- The answers of what is left of a run: none of them once it has stopped. -/
def resumed : Option Calculator → List Question → List (Option (Answer W))
  | some c, qs => c.answers qs
  | none, qs => qs.map fun _ => none

/-- An answer that joins two others to the same question: their faces in a row, or the fault of both. Where the run
stops the whole has none, and the second part has none; the first may have asked for no face. -/
inductive Answer.Joins {W : Type} : Option (Answer W) → Option (Answer W) → Option (Answer W) → Prop where
  | rolls (text : String) (fs gs : List Face) :
      Joins (some (.rolls text (fs ++ gs))) (some (.rolls text fs)) (some (.rolls text gs))
  | failed (cause : Notation.Fault) : Joins (some (.failed cause)) (some (.failed cause)) (some (.failed cause))
  | stopped : Joins none none none
  | stoppedSecond (text : String) : Joins none (some (.rolls text [])) none

/-- The members of a row whose mark is true. -/
def chosen {α : Type} (marks : List Bool) (l : List α) : List α := ((l.zip marks).filter (·.2)).map (·.1)

/-- The answer that tells what a single roll came to. -/
def Answer.ofRoll {W : Type} (text : String) : Except Notation.Fault (List Face) → Answer W
  | .ok faces => .rolls text faces
  | .error cause => .failed cause

/-! ### What is asked -/

/-- What the text of a question stands for. -/
def Question.value (limits : Limits) : Question → Except Notation.Fault (Distribution W)
  | .chances text n | .rolls text n _ => evaluate ⟨limits, n⟩ text

section Ask
variable {W} {limits : Limits} {c : Calculator} {q : Question} {text : String} {n : Int64} {count : Nat}
  {d : Distribution W} {cause : Notation.Fault}

/-- A text without a value is answered with its fault, if it is answered. -/
theorem ask_of_error (h : q.value W c.limits = .error cause) :
    c.ask (W := W) q = if cause.stops then none else some (.failed cause, c) := by
  cases q with
  | chances text n | rolls text n count =>
    rw [Question.value] at h
    rw [ask, h, reported?]
    split <;> rfl

theorem stops_of_error (h : q.value W limits = .error cause) : Stops W limits q ↔ cause.stops = true := by
  cases q with
  | chances text n | rolls text n count =>
    rw [Question.value] at h
    simp [Stops, h]

theorem drawn_of_error (h : q.value W limits = .error cause) : drawn W limits q = 0 := by
  cases q with
  | chances text n => rfl
  | rolls text n count =>
    rw [Question.value] at h
    rw [drawn, h]

theorem ask_chances_of_ok (h : evaluate ⟨c.limits, n⟩ text = .ok d) :
    c.ask (.chances text n) = some (.chances (.ofDistribution d), c) := by
  rw [ask, h]
  rfl

theorem ask_rolls_of_ok (h : evaluate ⟨c.limits, n⟩ text = .ok d) :
    c.ask (W := W) (.rolls text n count) =
      (d.rolls? count c.words).map fun r => (.rolls text r.1, { c with words := r.2 }) := by
  rw [ask, h, reported?]
  cases hrolls : d.rolls? count c.words <;> simp [hrolls]

end Ask

/-- A question stops the run, or is answered from the words that it takes, and the supply goes on behind them. -/
theorem ask_cases (limits : Limits) (q : Question) :
    (Stops W limits q ∧ ∀ words : WordStream, ask (W := W) ⟨limits, words⟩ q = none) ∨
      (¬ Stops W limits q ∧ ∃ answer : List UInt64 → Answer W, ∀ words : WordStream,
        ask ⟨limits, words⟩ q =
          some (answer (words.take (drawn W limits q)).1, ⟨limits, (words.take (drawn W limits q)).2⟩)) := by
  cases hd : q.value W limits with
  | error cause =>
    have hask (words : WordStream) : ask (W := W) ⟨limits, words⟩ q =
        if cause.stops then none else some (.failed cause, ⟨limits, words⟩) := ask_of_error hd
    by_cases hstops : cause.stops = true
    · exact .inl ⟨(stops_of_error hd).mpr hstops, fun words => (hask words).trans (if_pos hstops)⟩
    · refine .inr ⟨mt (stops_of_error hd).mp hstops, fun _ => .failed cause, fun words => ?_⟩
      rw [hask, if_neg hstops, drawn_of_error hd]
      rfl
  | ok d =>
    cases q with
    | chances text n =>
      rw [Question.value] at hd
      exact .inr ⟨by simp [Stops, hd], fun _ => .chances (.ofDistribution d), fun words => ask_chances_of_ok hd⟩
    | rolls text n count =>
      rw [Question.value] at hd
      by_cases hstops : count ≠ 0 ∧ d.Overweight
      · refine .inl ⟨.inr ⟨d, hd, hstops⟩, fun words => ?_⟩
        rw [ask_rolls_of_ok hd, Distribution.rolls?, if_pos hstops]
        rfl
      · have hgoes : ¬ Stops W limits (.rolls text n count) := by simpa [Stops, hd] using hstops
        have hrolls (words : WordStream) : ask (W := W) ⟨limits, words⟩ (.rolls text n count) =
            some (.rolls text (d.rolls count words).1, ⟨limits, (d.rolls count words).2⟩) := by
          rw [ask_rolls_of_ok hd, Distribution.rolls?, if_neg hstops]
          rfl
        by_cases h : d.Rollable
        · obtain ⟨face, hface⟩ := Distribution.rolls_of_rollable h
          refine .inr ⟨hgoes, fun words => .rolls text (words.map face), fun words => ?_⟩
          simp only [hrolls, drawn, hd, if_pos h, hface]
        · refine .inr ⟨hgoes, fun _ => .rolls text [], fun words => ?_⟩
          simp only [hrolls, drawn, hd, if_neg h, Distribution.rolls_of_not_rollable h]
          rfl

theorem ask_eq_none_iff {c : Calculator} {q : Question} : c.ask (W := W) q = none ↔ Stops W c.limits q := by
  rcases ask_cases W c.limits q with ⟨hstops, hnone⟩ | ⟨hgoes, answer, h⟩
  · exact iff_of_true (hnone c.words) hstops
  · exact iff_of_false (by simp [h c.words]) hgoes

instance (limits : Limits) (q : Question) : Decidable (Stops W limits q) :=
  decidable_of_iff (ask (W := W) ⟨limits, .cycle []⟩ q = none) (ask_eq_none_iff W)

/-- What a question that is answered leaves behind. -/
theorem ask_eq_some {c : Calculator} {q : Question} (h : ¬ Stops W c.limits q) : ∃ answer : Answer W,
    c.ask q = some (answer, { c with words := (c.words.take (drawn W c.limits q)).2 }) := by
  rcases ask_cases W c.limits q with ⟨hstops, -⟩ | ⟨-, answer, hask⟩
  · exact absurd hstops h
  · exact ⟨_, hask c.words⟩

theorem ask_eq_some_of_drawn_eq_zero {c : Calculator} {q : Question} (h : ¬ Stops W c.limits q)
    (hdrawn : drawn W c.limits q = 0) : ∃ answer : Answer W, c.ask q = some (answer, c) := by
  obtain ⟨answer, hask⟩ := ask_eq_some W h
  rw [hdrawn] at hask
  exact ⟨answer, hask⟩

/-! ### Rows of questions -/

theorem answers_cons (c : Calculator) (q : Question) (qs : List Question) :
    c.answers (W := W) (q :: qs) = (c.ask q).map (·.1) :: resumed W ((c.ask (W := W) q).map (·.2)) qs := by
  rw [answers]
  cases c.ask (W := W) q <;> rfl

theorem resumed_cons (c? : Option Calculator) (q : Question) (qs : List Question) :
    resumed W c? (q :: qs) =
      (c?.bind (·.ask q)).map (·.1) :: resumed W ((c?.bind (·.ask (W := W) q)).map (·.2)) qs := by
  cases c? with
  | none => rfl
  | some c => exact answers_cons W c q qs

theorem after_eq {c : Calculator} {qs : List Question} (h : ∀ q ∈ qs, ¬ Stops W c.limits q) :
    c.after W qs = some { c with words := (c.words.take (drawnInAll W c.limits qs)).2 } := by
  induction qs generalizing c with
  | nil => rfl
  | cons q qs ih =>
    obtain ⟨hq, hqs⟩ := List.forall_mem_cons.mp h
    obtain ⟨answer, hask⟩ := ask_eq_some W hq
    have hrest : after W { c with words := (c.words.take (drawn W c.limits q)).2 } qs = _ := ih hqs
    rw [drawnInAll, WordStream.take_add, after, List.foldlM_cons, hask]
    exact hrest

theorem answers_append (c : Calculator) (qs rs : List Question) :
    (c.answers (qs ++ rs) : List (Option (Answer W))) = c.answers qs ++ resumed W (c.after W qs) rs := by
  induction qs generalizing c with
  | nil => rfl
  | cons q qs ih =>
    rw [List.cons_append, answers_cons, answers_cons, List.cons_append, after, List.foldlM_cons]
    refine congrArg _ ?_
    cases c.ask (W := W) q with
    | none => exact List.map_append
    | some r => exact ih r.2

theorem map_chosen {α β : Type} (f : α → β) (marks : List Bool) (l : List α) :
    (chosen marks l).map f = chosen marks (l.map f) := by
  simp [chosen, List.zip_map_left, List.filter_map, Function.comp_def]

/-- Questions that take no word, and do not stop the run, can be left out, with their answers. -/
theorem answers_chosen (c : Calculator) (qs : List Question) (marks : List Bool)
    (h : ∀ e ∈ qs.zip marks, e.2 = false → drawn W c.limits e.1 = 0 ∧ ¬ Stops W c.limits e.1) :
    (c.answers (chosen marks qs) : List (Option (Answer W))) = chosen marks (c.answers qs) := by
  induction qs generalizing c marks with
  | nil => rfl
  | cons q qs ih =>
    cases marks with
    | nil => simp [chosen, answers]
    | cons mark marks =>
      have hqs : ∀ e ∈ qs.zip marks, e.2 = false → drawn W c.limits e.1 = 0 ∧ ¬ Stops W c.limits e.1 :=
        fun e he => h e (List.mem_cons_of_mem _ he)
      rw [answers_cons]
      cases mark with
      | true =>
        refine (answers_cons W c q (chosen marks qs)).trans (congrArg _ ?_)
        rcases ask_cases W c.limits q with ⟨-, hnone⟩ | ⟨-, answer, hask⟩
        · rw [hnone c.words]
          exact map_chosen (fun _ => none) marks qs
        · rw [hask c.words]
          exact ih _ marks hqs
      | false =>
        obtain ⟨hdrawn, hgoes⟩ := h (q, false) List.mem_cons_self rfl
        obtain ⟨answer, hask⟩ := ask_eq_some_of_drawn_eq_zero W hgoes hdrawn
        rw [hask]
        exact ih c marks hqs

/-- A roll in two goes is answered by the parts of its answer, and leaves the same behind. -/
theorem ask_rolls_add (c : Calculator) (text : String) (n : Int64) (a b : Nat) :
    let whole := c.ask (W := W) (.rolls text n (a + b))
    let first := c.ask (W := W) (.rolls text n a)
    let second := (first.map (·.2)).bind (·.ask (W := W) (.rolls text n b))
    Answer.Joins (whole.map (·.1)) (first.map (·.1)) (second.map (·.1)) ∧ whole.map (·.2) = second.map (·.2) := by
  simp only
  cases hd : evaluate (W := W) ⟨c.limits, n⟩ text with
  | error cause =>
    have hask (count : Nat) : c.ask (W := W) (.rolls text n count) =
        if cause.stops then none else some (.failed cause, c) := ask_of_error hd
    by_cases hstops : cause.stops = true
    · simp only [hask, if_pos hstops]
      exact ⟨.stopped, rfl⟩
    · simp only [hask, if_neg hstops, Option.map_some, Option.bind_some]
      exact ⟨.failed cause, trivial⟩
  | ok d =>
    have hnext (words : WordStream) (count : Nat) : ask (W := W) { c with words := words } (.rolls text n count) =
        (d.rolls? count words).map fun r => (.rolls text r.1, { c with words := r.2 }) := ask_rolls_of_ok hd
    rw [ask_rolls_of_ok hd, ask_rolls_of_ok hd]
    by_cases h : d.Overweight
    · by_cases ha : a = 0
      · subst ha
        rw [Nat.zero_add, Distribution.rolls?_of_overweight h 0, if_pos rfl, Distribution.rolls?_of_overweight h b]
        simp only [Option.map_some, Option.bind_some, hnext, Distribution.rolls?_of_overweight h b]
        split
        · exact ⟨.rolls text [] [], trivial⟩
        · exact ⟨.stoppedSecond text, trivial⟩
      · have hsum : a + b ≠ 0 := fun hsum => ha (Nat.eq_zero_of_add_eq_zero_right hsum)
        rw [Distribution.rolls?_of_overweight h, if_neg hsum, Distribution.rolls?_of_overweight h, if_neg ha]
        exact ⟨.stopped, rfl⟩
    · simp only [Distribution.rolls?_of_not_overweight h, Option.map_some, Option.bind_some, hnext,
        Distribution.rolls_add]
      exact ⟨.rolls .., trivial⟩

/-- Where a roll is done in two goes, the answers around it stay as they are. -/
theorem answers_rolls_add (c : Calculator) (before : List Question) (text : String) (n : Int64) (a b : Nat)
    (rest : List Question) :
    ∃ (whole first second : Option (Answer W)) (tail : List (Option (Answer W))),
      c.answers (before ++ .rolls text n (a + b) :: rest) = c.answers before ++ whole :: tail ∧
      c.answers (before ++ .rolls text n a :: .rolls text n b :: rest) = c.answers before ++ first :: second :: tail ∧
      Answer.Joins whole first second := by
  simp only [answers_append, resumed_cons]
  cases c.after W before with
  | none => exact ⟨none, none, none, _, rfl, rfl, .stopped⟩
  | some c =>
    obtain ⟨hjoins, hsame⟩ := ask_rolls_add W c text n a b
    refine ⟨_, _, _, _, rfl, ?_, hjoins⟩
    rw [Option.bind_some, Option.bind_some, hsame]

/-- Each face that is shown has taken a word. -/
theorem length_of_ask_eq_rolls {c next : Calculator} {q : Question} {text : String} {faces : List Face}
    (h : c.ask (W := W) q = some (.rolls text faces, next)) : faces.length = drawn W c.limits q := by
  cases hd : q.value W c.limits with
  | error cause => simp [ask_of_error hd] at h
  | ok d =>
    cases q with
    | chances text n =>
      rw [Question.value] at hd
      simp [ask_chances_of_ok hd] at h
    | rolls text n count =>
      rw [Question.value] at hd
      rw [ask_rolls_of_ok hd, Option.map_eq_some_iff] at h
      obtain ⟨r, hr, hanswer⟩ := h
      obtain ⟨-, rfl⟩ := Answer.rolls.inj (Prod.mk.inj hanswer).1
      obtain rfl := Distribution.eq_rolls_of_rolls? hr
      simp only [drawn, hd]
      by_cases h : d.Rollable
      · obtain ⟨face, hface⟩ := Distribution.rolls_of_rollable h
        simp [h, hface]
      · simp [h, Distribution.rolls_of_not_rollable h]

/-- A calculator takes words for the faces that it shows, and for nothing else. -/
structure TakesForFaces (c : Calculator) : Prop where
  stops : ∀ q, c.ask (W := W) q = none ↔ Stops W c.limits q
  /-- Whatever the supply, a question that does not stop the run is answered from the words drawn for it, and the supply
  goes on behind them. -/
  ask : ∀ q, ¬ Stops W c.limits q → ∃ answer : List UInt64 → Answer W, ∀ words : WordStream,
    Calculator.ask { c with words := words } q =
      some (answer (words.take (drawn W c.limits q)).1, { c with words := (words.take (drawn W c.limits q)).2 })
  shown : ∀ q text faces next, c.ask (W := W) q = some (.rolls text faces, next) → faces.length = drawn W c.limits q
  after : ∀ qs, (∀ q ∈ qs, ¬ Stops W c.limits q) →
    c.after W qs = some { c with words := (c.words.take (drawnInAll W c.limits qs)).2 }
  /-- Questions that nothing is drawn for can be left out, as long as they do not stop the run. -/
  chosen : ∀ qs marks, (∀ e ∈ qs.zip marks, e.2 = false → drawn W c.limits e.1 = 0 ∧ ¬ Stops W c.limits e.1) →
    (c.answers (chosen marks qs) : List (Option (Answer W))) = chosen marks (c.answers qs)
  /-- A roll can be done in two goes. -/
  split : ∀ before text n a b rest, ∃ (whole first second : Option (Answer W)) (tail : List (Option (Answer W))),
    c.answers (before ++ .rolls text n (a + b) :: rest) = c.answers before ++ whole :: tail ∧
    c.answers (before ++ .rolls text n a :: .rolls text n b :: rest) = c.answers before ++ first :: second :: tail ∧
    Answer.Joins whole first second

theorem takesForFaces (c : Calculator) : c.TakesForFaces W where
  stops _ := ask_eq_none_iff W
  ask q hgoes := (ask_cases W c.limits q).elim (fun h => absurd h.1 hgoes) (·.2)
  shown _ _ _ _ := length_of_ask_eq_rolls W
  after _ := after_eq W
  chosen := answers_chosen W c
  split := answers_rolls_add W c

/-! ### Seeds -/

theorem words_of_new? {limits : String} {seed : UInt64} {c : Calculator} (h : new? limits seed = some c) :
    c.words = ChaCha.stream seed := by
  rw [new?] at h
  split at h
  · cases h
    rfl
  · obtain ⟨l, -, rfl⟩ := Option.map_eq_some_iff.mp h
    rfl

theorem head?_answers_eq_rollOnce {limits : String} {seed : UInt64} {c : Calculator} (h : new? limits seed = some c)
    (hlimits : c.limits = {}) (text : String) (n : Int64) (qs : List Question) :
    (c.answers (W := W) (.rolls text n 1 :: qs)).head? =
      some ((rollOnce (W := W) text n seed).map (Answer.ofRoll text)) := by
  rw [answers_cons, List.head?_cons, rollOnce, ← words_of_new? h, ← hlimits]
  refine congrArg some ?_
  cases hd : evaluate (W := W) ⟨c.limits, n⟩ text with
  | ok d =>
    rw [ask_rolls_of_ok hd, reported?]
    cases hrolls : d.rolls? 1 c.words <;> simp [hrolls, Answer.ofRoll]
  | error cause =>
    rw [ask_of_error (q := .rolls text n 1) hd, reported?]
    split <;> rfl

end Calculator

/-- Words are taken by rolls, one for each face. So no other question, no fault and no roll that nothing can come of
shows in what is rolled after it; a single roll is the first that a fresh calculator makes; and an expression without a
value does not show in what the command line prints for the others. A question that stops the run is not answered, and
neither is what comes after it. -/
theorem words_taken_for_faces (W : Type) [Weight W] :
    (∀ c : Calculator, c.TakesForFaces W) ∧
    (∀ limits seed c, Calculator.new? limits seed = some c →
      c.words = ChaCha.stream seed ∧
      (c.limits = {} → ∀ text n qs, (c.answers (W := W) (.rolls text n 1 :: qs)).head? =
        some ((rollOnce (W := W) text n seed).map (.ofRoll text)))) ∧
    (∀ file before expression after o, CommandLine.Options.read {} before = .ok o →
      expression.startsWith "--" = false →
      CommandLine.Fails file (before ++ expression :: after) expression →
      CommandLine.Asks (before ++ expression :: after) → CommandLine.Asks (before ++ after) →
      (CommandLine.run file (before ++ expression :: after)).stdout =
        (CommandLine.run file (before ++ after)).stdout) := by
  refine ⟨Calculator.takesForFaces W, fun limits seed c hnew => ?_, ?_⟩
  · exact ⟨Calculator.words_of_new? hnew, fun hlimits => Calculator.head?_answers_eq_rollOnce W hnew hlimits⟩
  · intro file before expression after o hbefore hexpression hfails hasks hasks'
    exact CommandLine.stdout_run_of_fails hbefore hexpression hfails hasks hasks'

/-- Two rolls of a die, with a fault, an impossible roll and chances between them, answer as without; and so does the
command line with a fault before its expression. A kept sum out of range stops the run. -/
theorem words_taken_for_faces_between :
    let c : Calculator := ⟨{}, ChaCha.stream 7⟩
    let first := Calculator.Question.rolls "d6" 0 2
    let last := Calculator.Question.rolls "d8" 0 1
    let fault := Calculator.Question.rolls "?" 0 3
    let nothing := Calculator.Question.rolls "d0" 0 1
    let chances := Calculator.Question.chances "d6" 0
    let stop := Calculator.Question.rolls "2kh2(9223372036854775807)" 0 0
    Calculator.new? "" 7 = some c ∧ Calculator.drawn Rat {} first = 2 ∧ c.ask (W := Rat) stop = none ∧
      (c.answers [first, last] : List (Option (Calculator.Answer Rat))) =
        Calculator.chosen [true, false, false, false, true] (c.answers [first, fault, nothing, chances, last]) ∧
      (c.answers (W := Rat) [.rolls "d6" 0 1, last]).head? =
        some ((rollOnce (W := Rat) "d6" 0 7).map (.ofRoll "d6")) ∧
      (CommandLine.run (fun _ => none) ["--roll", "2", "?", "d6"]).stdout =
        (CommandLine.run (fun _ => none) ["--roll", "2", "d6"]).stdout := by
  intro c first last fault nothing chances stop
  obtain ⟨hfaces, hseed, hline⟩ := words_taken_for_faces Rat
  have hnew : Calculator.new? "" 7 = some c := rfl
  refine ⟨hnew, by decide +kernel, by decide +kernel, ?_, (hseed "" 7 c hnew).2 rfl "d6" 0 [last], ?_⟩
  · refine (hfaces c).chosen [first, fault, nothing, chances, last] [true, false, false, false, true] ?_
    decide +kernel
  · refine hline (fun _ => none) ["--roll", "2"] "?" ["d6"] { rolls := 2 } rfl (by decide +kernel) ?_ ?_ ?_
    · rintro o limits ho hlimits
      have hread : CommandLine.Options.read {} ["--roll", "2", "?", "d6"] =
          .ok { rolls := 2, expressions := ["?", "d6"] } := by
        change CommandLine.Options.read { rolls := 2 } ["?", "d6"] = _
        rw [CommandLine.Options.read_expression _ (by decide +kernel),
          CommandLine.Options.read_expression _ (by decide +kernel)]
        rfl
      obtain rfl := Except.ok.inj (hread.symm.trans ho)
      obtain rfl : ({} : Limits) = limits := Except.ok.inj hlimits
      exact ⟨.unexpectedChar '?' 0 .operand, fault?_eq_some.mp (by decide +kernel), rfl⟩
    · exact ⟨"--roll", rfl, by decide, by decide⟩
    · exact ⟨"--roll", rfl, by decide, by decide⟩

end DiceLaw
