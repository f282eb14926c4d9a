import DiceLaw.CommandLine
import DiceLaw.Proofs.Results

/-! What the command line prints. Arguments are read one after the other, and expressions are only put aside; so one
expression more is one report more. A report of a fault adds nothing to the output and takes nothing from the supply,
and the others come out the same, or stop the run at the same place. -/
namespace DiceLaw.CommandLine

/-! ### Arguments -/

/-- What does not look like an option is an expression. -/
theorem Options.read_expression (o : Options) {argument : String} (h : argument.startsWith "--" = false)
    (rest : List String) :
    Options.read o (argument :: rest) = Options.read { o with expressions := o.expressions ++ [argument] } rest := by
  have hne {option : String} (hoption : option.startsWith "--" = true) : argument ≠ option := by
    rintro rfl
    rw [h] at hoption
    cases hoption
  rw [Options.read, h, if_neg Bool.false_ne_true]
  all_goals
    intro value _ hoption
    exact absurd hoption (hne (by decide +kernel))

theorem Options.read_append {o o' : Options} {before : List String} (h : Options.read o before = .ok o')
    (rest : List String) : Options.read o (before ++ rest) = Options.read o' rest := by
  fun_induction Options.read o before with
  | case1 o =>
    cases h
    rfl
  | case2 o value before n hn ih =>
    simp only [List.cons_append, Options.read, hn]
    exact ih h
  | case3 => cases h
  | case4 o value before ih => exact ih h
  | case5 o value before ih => exact ih h
  | case6 o value before ih => exact ih h
  | case7 => cases h
  | case8 o argument before _ _ _ _ hargument ih =>
    rw [List.cons_append, Options.read_expression o (Bool.not_eq_true _ ▸ hargument)]
    exact ih h

/-- Expressions that were read before stay in front, and show in nothing else. -/
theorem Options.read_behind (o : Options) (es arguments : List String) :
    Options.read { o with expressions := es ++ o.expressions } arguments =
      (Options.read o arguments).map fun o => { o with expressions := es ++ o.expressions } := by
  fun_induction Options.read o arguments with
  | case1 o => rfl
  | case2 o value rest n hn ih =>
    simp only [Options.read, hn]
    exact ih
  | case3 o value rest hn =>
    simp only [Options.read, hn]
    rfl
  | case4 o value rest ih => exact ih
  | case5 o value rest ih => exact ih
  | case6 o value rest ih => exact ih
  | case7 o argument rest h₁ h₂ h₃ h₄ hargument =>
    rw [Options.read, if_pos hargument]
    · rfl
    all_goals assumption
  | case8 o argument rest _ _ _ _ hargument ih =>
    rw [Options.read_expression _ (Bool.not_eq_true _ ▸ hargument), ← ih]
    simp only [List.append_assoc]

theorem read_around {o : Options} {before : List String} (hbefore : Options.read {} before = .ok o)
    {expression : String} (hexpression : expression.startsWith "--" = false) (after : List String) :
    let behind (es : List String) := (Options.read { o with expressions := [] } after).map fun o =>
      { o with expressions := es ++ o.expressions }
    Options.read {} (before ++ after) = behind o.expressions ∧
      Options.read {} (before ++ expression :: after) = behind (o.expressions ++ [expression]) := by
  intro behind
  have hbehind (es : List String) : Options.read { o with expressions := es } after = behind es := by
    have h := Options.read_behind { o with expressions := [] } es after
    rwa [List.append_nil] at h
  constructor
  · rw [Options.read_append hbefore, ← hbehind]
  · rw [Options.read_append hbefore, Options.read_expression o hexpression, ← hbehind]

/-! ### Reports -/

/-- What of a run shows in its output, and what goes on in it. -/
def visible (state : Output × WordStream) : String × WordStream := (state.1.stdout, state.2)

/-- Two runs print the same and go on alike, or have both stopped. -/
abbrev PrintAlike (x y : Except Output (Output × WordStream)) : Prop :=
  Parallel (fun out out' => out.stdout = out'.stdout) (fun state state' => visible state = visible state') x y

theorem report_congr (limits : Limits) (o : Options) {state state' : Output × WordStream}
    (h : visible state = visible state') (expression : String) :
    PrintAlike (report limits o state expression) (report limits o state' expression) := by
  obtain ⟨out, words⟩ := state
  obtain ⟨out', words'⟩ := state'
  obtain ⟨hout, rfl⟩ := Prod.mk.inj h
  simp only at hout
  rw [report, report]
  cases evaluate (W := Float) ⟨limits, o.n⟩ expression with
  | error cause =>
    simp only
    split
    · exact .error hout
    · exact .ok h
  | ok d =>
    have hprinted (table rolls : String) : out.stdout ++ table ++ rolls = out'.stdout ++ table ++ rolls := by rw [hout]
    simp only
    split
    · exact .ok (by rw [visible, visible, hout])
    · cases d.rolls? o.rolls words with
      | none => exact .error (by rw [Output.stopped, Output.stopped, hout])
      | some rolled => exact .ok (by rw [visible, visible, hprinted])

theorem PrintAlike.stdout_printed {x y : Except Output (Output × WordStream)} (h : PrintAlike x y) :
    (printed x).stdout = (printed y).stdout :=
  match h with
  | .ok hvisible => congrArg Prod.fst hvisible
  | .error hout => hout

/-- A fault that is answered adds nothing to the output and takes nothing from the supply. -/
theorem report_of_error {limits : Limits} {o : Options} {expression : String} {cause : Notation.Fault}
    (h : evaluate (W := Float) ⟨limits, o.n⟩ expression = .error cause) (hstops : cause.stops = false)
    (state : Output × WordStream) :
    ∃ state', report limits o state expression = .ok state' ∧ visible state' = visible state := by
  rw [report, h]
  simp only [hstops]
  exact ⟨_, rfl, rfl⟩

/-! ### Runs -/

/-- The first argument does not ask for the usage, nor does its absence. -/
def Asks (arguments : List String) : Prop :=
  ∃ first, arguments.head? = some first ∧ first ≠ "--help" ∧ first ≠ "-h"

/-- With the options and limits that the arguments name, an expression has no value, for a reason that is answered. -/
def Fails (file : String → Option String) (arguments : List String) (expression : String) : Prop :=
  ∀ o limits, Options.read {} arguments = .ok o → Limits.Request.resolve { file := o.config.map file } = .ok limits →
    ∃ cause, evaluate (W := Float) ⟨limits, o.n⟩ expression = .error cause ∧ cause.stops = false

namespace Asks
variable {arguments : List String} (h : Asks arguments) {file : String → Option String}
include h

theorem run_of_misread {out : Output} (hread : Options.read {} arguments = .error out) : run file arguments = out := by
  obtain ⟨first, hfirst, hlong, hshort⟩ := h
  simp [run, hfirst, hlong, hshort, hread]

theorem stdout_run_of_misconfigured {o : Options} {cause : Limits.Fault} (hread : Options.read {} arguments = .ok o)
    (hlimits : Limits.Request.resolve { file := o.config.map file } = .error cause) :
    (run file arguments).stdout = "" := by
  obtain ⟨first, hfirst, hlong, hshort⟩ := h
  simp [run, hfirst, hlong, hshort, hread, hlimits]

theorem run_of_configured {o : Options} {limits : Limits} (hread : Options.read {} arguments = .ok o)
    (hlimits : Limits.Request.resolve { file := o.config.map file } = .ok limits) :
    run file arguments = printed (o.expressions.foldlM (report limits o) ({}, ChaCha.stream o.seed)) := by
  obtain ⟨first, hfirst, hlong, hshort⟩ := h
  simp [run, hfirst, hlong, hshort, hread, hlimits]

end Asks

/-- An expression that fails does not show in what is printed for the others. -/
theorem stdout_run_of_fails {file : String → Option String} {o : Options} {before after : List String}
    {expression : String} (hbefore : Options.read {} before = .ok o) (hexpression : expression.startsWith "--" = false)
    (hfails : Fails file (before ++ expression :: after) expression) (hasks : Asks (before ++ expression :: after))
    (hasks' : Asks (before ++ after)) :
    (run file (before ++ expression :: after)).stdout = (run file (before ++ after)).stdout := by
  obtain ⟨hwithout, hwith⟩ := read_around hbefore hexpression after
  cases hread : Options.read { o with expressions := [] } after with
  | error out =>
    rw [hread] at hwith hwithout
    rw [hasks.run_of_misread hwith, hasks'.run_of_misread hwithout]
  | ok p =>
    rw [hread] at hwith hwithout
    cases hlimits : Limits.Request.resolve { file := p.config.map file } with
    | error cause =>
      rw [hasks.stdout_run_of_misconfigured hwith hlimits, hasks'.stdout_run_of_misconfigured hwithout hlimits]
    | ok limits =>
      obtain ⟨cause, hcause, hstops⟩ := hfails _ limits hwith hlimits
      rw [hasks.run_of_configured hwith hlimits, hasks'.run_of_configured hwithout hlimits]
      -- The options differ in their expressions alone, and a report does not look at those.
      have hreports (es : List String) :
          report limits { p with expressions := es ++ p.expressions } = report limits p := rfl
      rw [hreports, hreports]
      simp only [List.foldlM_append, List.foldlM_cons, List.foldlM_nil]
      cases o.expressions.foldlM (report limits p) ({}, ChaCha.stream p.seed) with
      | error out => rfl
      | ok state =>
        obtain ⟨state', hreport, hsame⟩ : ∃ state', report limits p state expression = .ok state' ∧
            visible state' = visible state := report_of_error hcause hstops state
        have hrest : PrintAlike (p.expressions.foldlM (report limits p) state')
            (p.expressions.foldlM (report limits p) state) :=
          Parallel.foldlM (fun _ _ e h => report_congr limits p h e) hsame p.expressions
        simp only [bind, Except.bind, hreport, pure, Except.pure]
        exact hrest.stdout_printed

end DiceLaw.CommandLine
