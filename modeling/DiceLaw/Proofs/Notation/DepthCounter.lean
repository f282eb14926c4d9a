import DiceLaw.Proofs.Notation.Nesting
import DiceLaw.Proofs.Notation.Placement

/-! Evaluation with one counter for the depth. It is raised where a parenthesis or a keep selector opens, lowered
where it closes and left as it is on the way out of a fault. What comes out is what passing the depth down gives. -/
namespace DiceLaw.Notation

/-! ### The counter -/

structure Gauge where
  /-- The counter. -/
  depth : Int := 0
  /-- Primaries that are begun and not yet read to their end. -/
  begun : Int := 0

namespace Gauge

def begin (g : Gauge) : Gauge := { g with begun := g.begun + 1 }

def finish (g : Gauge) : Gauge := { g with begun := g.begun - 1 }

def raise (g : Gauge) : Gauge := { g with depth := g.depth + 1 }

def lower (g : Gauge) : Gauge := { g with depth := g.depth - 1 }

end Gauge

structure Meter where
  now : Gauge := {}
  /-- All that the gauge has shown. -/
  shown : List Gauge := [now]
  /-- The gauge before and behind each primary that was read. -/
  read : List (Gauge × Gauge) := []

def Meter.move (f : Gauge → Gauge) (m : Meter) : Meter := { m with now := f m.now, shown := f m.now :: m.shown }

def Meter.log (before : Gauge) (m : Meter) : Meter := { m with read := (before, m.now) :: m.read }

/-- A computation with a meter, which is left where it is by a fault. -/
def Metered (α : Type) : Type := Meter → Except Fault α × Meter

namespace Metered
variable {α β : Type}

instance : Monad Metered where
  pure a m := (.ok a, m)
  bind x f m := match x m with
    | (.ok a, after) => f a after
    | (.error cause, after) => (.error cause, after)

instance : MonadLift (Except Fault) Metered where
  monadLift r m := (r, m)

def fail (cause : Fault) : Metered α := fun m => (.error cause, m)

def now : Metered Gauge := fun m => (.ok m.now, m)

def move (f : Gauge → Gauge) : Metered Unit := fun m => (.ok (), m.move f)

def log (before : Gauge) : Metered Unit := fun m => (.ok (), m.log before)

/-- What is read as one primary. -/
def primary (x : Metered α) : Metered α := do
  let before ← now
  move .begin
  let a ← x
  move .finish
  log before
  return a

/-- Nothing is read beyond the limit. -/
def guarded (limit : UInt64) (depth : Int) (x : Metered α) : Metered α :=
  if limit.toNat < depth then fail (.nestingTooDeep limit.toNat) else x

/-- What is read one level deeper. -/
def opened (limit : UInt64) (x : Metered α) : Metered α := do
  move .raise
  let raised ← now
  let a ← guarded limit raised.depth x
  move .lower
  return a

end Metered

variable {W : Type} [Weight W]

/-- The fault of a keep selector that no die follows. -/
def Primary.missing? : Primary → Option Fault
  | .broken (.keepTarget position) => some (.keepTarget position)
  | _ => none

theorem Primary.eq_broken_of_missing? {p : Primary} {cause : Fault} (h : p.missing? = some cause) :
    p = .broken cause := by
  unfold Primary.missing? at h
  split at h
  next => cases h; rfl
  next => cases h

/-! ### Trees -/

mutual

def Primary.run (s : Setting) : Primary → Metered (Distribution W)
  | .number value => .primary do return Distribution.scalar (← value.value s.n)
  | .die sides => .primary do return Distribution.uniform (← sides.count .dieSize s.limits.maxSides s.n)
  | .halfDie sides => .primary do return Notation.halfDie (← sides.count .dieSize s.limits.maxSides s.n)
  | .keep direction count target => .primary do
    let m ← count.count .keepCount 4294967295 s.n
    match target.missing? with
    | some cause => do
      -- That nothing follows is found out a level deeper, and told once the selector is closed again.
      let _ ← Metered.opened s.limits.maxDepth (pure ())
      .fail cause
    | none => do
      let d ← Metered.opened s.limits.maxDepth (target.run s)
      return d.withKeep ⟨direction, m⟩
  | .group inner => .primary (.opened s.limits.maxDepth (inner.run s))
  | .broken cause => .fail cause

def Term.run (s : Setting) : Term → Metered (Distribution W)
  | .one first => first.run s
  | .copies counts die => do
    let c ← counts.run s
    let d ← die.run s
    lift (Distribution.repeated s.limits c d)

def Branch.run (s : Setting) (main : Distribution W) : Branch → Metered (Distribution W)
  | .whole => return main
  | .half => liftM (lift (halve main))
  | .own argument => argument.run s

def Crit.run (s : Setting) (main current : Distribution W) : Crit → Metered (List (Part W) × Distribution W)
  | .absent => return ([], current)
  | .one branch => do
    let (carved, rest) ← lift (carveTop 1 current)
    let argument ← branch.run s main
    return ([⟨carved, argument⟩], rest)
  | .many count branch => do
    let m ← count.count .critCount 4294967295 s.n
    let (carved, rest) ← lift (carveTop m current)
    let argument ← branch.run s main
    return ([⟨carved, argument⟩], rest)
  | .broken cause => .fail cause

def Save.run (s : Setting) (main current : Distribution W) : Save → Metered (List (Part W) × Distribution W)
  | .absent => return ([], current)
  | .one branch => do
    let (carved, rest) ← lift (carveBottom current)
    let argument ← branch.run s main
    return ([⟨carved, argument⟩], rest)
  | .broken cause => .fail cause

def Argument.run (s : Setting) (current : Distribution W) : Argument → Metered (Distribution W)
  | .itself => return current
  | .own argument => argument.run s

def Expression.run (s : Setting) : Expression → Metered (Distribution W)
  | .term first => first.run s
  | .apply left op argument halved crit save => do
    let current ← left.run s
    let whole ← argument.run s current
    let main ← lift (mainArgument halved whole)
    let top ← crit.run s main current
    let bottom ← save.run s main top.2
    lift (applyParts op ⟨bottom.2, main⟩ (top.1 ++ bottom.1))
  | .broken left cause => do
    let _ ← left.run s
    .fail cause

end

/-! ### With and without a meter -/

namespace Metered
variable {α β : Type} {P : Gauge → Prop} {g h final : Gauge} {x : Metered α} {f : α → Metered β}

/-- What comes out, beside a result that is known, of a computation that a meter `m` went through. -/
structure Outcome (P : Gauge → Prop) (m : Meter) (r : Except Fault α) (final : Gauge)
    (out : Except Fault α × Meter) : Prop where
  result : out.1 = r
  settled : ∀ a, r = .ok a → out.2.now = final
  shown : ∀ g ∈ out.2.shown, g ∈ m.shown ∨ P g
  read : ∀ e ∈ out.2.read, e ∈ m.read ∨ e.1 = e.2

/-- From gauge `g` on a computation comes out as it does without a meter, and unless it fails at gauge `final`. On the
way the gauge shows nothing but what it may, and the same before and behind each primary. -/
def Tracks (P : Gauge → Prop) (g : Gauge) (x : Metered α) (r : Except Fault α) (final : Gauge) : Prop :=
  ∀ m : Meter, m.now = g → Outcome P m r final (x m)

theorem tracks_lift (r : Except Fault α) : Tracks P g (liftM r) r g :=
  fun _ hm => ⟨rfl, fun _ _ => hm, fun _ => .inl, fun _ => .inl⟩

theorem tracks_pure (a : α) : Tracks P g (pure a) (.ok a) g :=
  fun _ hm => ⟨rfl, fun _ _ => hm, fun _ => .inl, fun _ => .inl⟩

theorem tracks_fail (cause : Fault) : Tracks P g (fail cause : Metered α) (.error cause) final :=
  fun _ _ => ⟨rfl, nofun, fun _ => .inl, fun _ => .inl⟩

theorem tracks_now : Tracks P g now (.ok g) g :=
  fun _ hm => ⟨congrArg _ hm, fun _ _ => hm, fun _ => .inl, fun _ => .inl⟩

theorem tracks_move {f : Gauge → Gauge} (hf : f g = final) (hfinal : P final) : Tracks P g (move f) (.ok ()) final := by
  intro m hm
  have hmoved : f m.now = final := hm ▸ hf
  refine ⟨rfl, fun _ _ => hmoved, fun g hg => ?_, fun _ => .inl⟩
  rcases List.mem_cons.mp hg with rfl | hg
  · exact .inr (hmoved ▸ hfinal)
  · exact .inl hg

theorem tracks_log : Tracks P g (log g) (.ok ()) g := by
  intro m hm
  refine ⟨rfl, fun _ _ => hm, fun _ => .inl, fun e he => ?_⟩
  rcases List.mem_cons.mp he with rfl | he
  · exact .inr hm.symm
  · exact .inl he

theorem Tracks.bind {r : Except Fault α} {next : α → Except Fault β} (hx : Tracks P g x r h)
    (hf : ∀ a, r = .ok a → Tracks P h (f a) (next a) final) : Tracks P g (x >>= f) (r >>= next) final := by
  intro m hm
  obtain ⟨hresult, hsettled, hshown, hread⟩ := hx m hm
  have hbind : (x >>= f) m = match x m with
      | (.ok a, after) => f a after
      | (.error cause, after) => (.error cause, after) := rfl
  rw [hbind]
  generalize x m = out at hresult hsettled hshown hread ⊢
  subst hresult
  match out with
  | (.error cause, after) => exact ⟨rfl, nofun, hshown, hread⟩
  | (.ok a, after) =>
    have hnext := hf a rfl after (hsettled a rfl)
    refine ⟨hnext.result, hnext.settled, fun g hg => ?_, fun e he => ?_⟩
    · exact (hnext.shown g hg).elim (hshown g) .inr
    · exact (hnext.read e he).elim (hread e) .inr

/-- A step that cannot fail. -/
theorem Tracks.seq {a : α} {r : Except Fault β} (hx : Tracks P g x (.ok a) h) (hf : Tracks P h (f a) r final) :
    Tracks P g (x >>= f) r final := by
  have hbind : Tracks P g (x >>= f) (.ok a >>= fun _ => r) final := hx.bind fun _ ha => Except.ok.inj ha ▸ hf
  exact hbind

/-- What follows is for the meter only. -/
theorem Tracks.andThen {f : α → Metered α} {r : Except Fault α} (hx : Tracks P g x r h)
    (hf : ∀ a, Tracks P h (f a) (.ok a) final) : Tracks P g (x >>= f) r final := by
  have hbind : Tracks P g (x >>= f) (r >>= .ok) final := hx.bind fun a _ => hf a
  cases r <;> exact hbind

end Metered

/-! ### The counter in a tree -/

/-- What the gauge shows where a primary may begin: as many are begun as levels are open. -/
def Gauge.level (depth : Nat) : Gauge := ⟨depth, depth⟩

/-- What the gauge may show under a limit, in a tree that nests so deep. -/
structure Gauge.Sound (limit : UInt64) (top : Nat) (g : Gauge) : Prop where
  depth_nonneg : 0 ≤ g.depth
  depth_le : g.depth ≤ top
  depth_le_begun : g.depth ≤ g.begun
  begun_le : g.begun ≤ limit.toNat + 1

theorem Gauge.sound_level {limit : UInt64} {top depth : Nat} (hlimit : depth ≤ limit.toNat + 1) (htop : depth ≤ top) :
    (level depth).Sound limit top := by
  constructor <;> simp only [level] <;> omega

theorem Gauge.sound_begin {limit : UInt64} {top depth : Nat} (hlimit : depth ≤ limit.toNat) (htop : depth ≤ top) :
    (level depth).begin.Sound limit top := by
  constructor <;> simp only [begin, level] <;> omega

section Trees
variable {s : Setting} {top depth : Nat}

namespace Metered
variable {α β : Type} {x : Metered α}

/-- Where a primary may begin so many levels deep, a computation comes out as it does without a meter, and leaves
the gauge at that level. -/
def TracksAt (s : Setting) (top depth : Nat) (x : Metered α) (r : Except Fault α) : Prop :=
  Tracks (Gauge.Sound s.limits.maxDepth top) (.level depth) x r (.level depth)

/-- The same within a primary that has begun. -/
def TracksWithin (s : Setting) (top depth : Nat) (x : Metered α) (r : Except Fault α) : Prop :=
  Tracks (Gauge.Sound s.limits.maxDepth top) (Gauge.level depth).begin x r (Gauge.level depth).begin

variable (hlimit : depth ≤ s.limits.maxDepth.toNat)
include hlimit

theorem TracksWithin.primary (htop : depth ≤ top) {r : Except Fault α} (hx : TracksWithin s top depth x r) :
    TracksAt s top depth (primary x) r := by
  have hfinish : (Gauge.level depth).begin.finish = .level depth := congrArg (Gauge.mk _) (Int.add_sub_cancel _ _)
  refine tracks_now.seq ((tracks_move rfl (Gauge.sound_begin hlimit htop)).seq (hx.andThen fun a => ?_))
  exact (tracks_move hfinish (Gauge.sound_level (by omega) htop)).seq (tracks_log.seq (tracks_pure a))

/-- What is opened within the limit is closed again. What is not is refused, as it is when the depth is passed down. -/
theorem tracksWithin_opened (htop : depth + 1 ≤ top) {k : Nat → Except Fault α}
    (hx : depth + 1 ≤ s.limits.maxDepth.toNat → TracksAt s top (depth + 1) x (k (depth + 1))) :
    TracksWithin s top depth (opened s.limits.maxDepth x) (deeper s depth >>= k) := by
  have hlower : (Gauge.level (depth + 1)).lower = (Gauge.level depth).begin :=
    congrArg (Gauge.mk · _) (Int.add_sub_cancel (depth : Int) 1)
  have hraise : (Gauge.level depth).begin.raise = .level (depth + 1) := rfl
  have hguarded : TracksAt s top (depth + 1) (guarded s.limits.maxDepth (Gauge.level (depth + 1)).depth x)
      (deeper s depth >>= k) := by
    have hdepth : (s.limits.maxDepth.toNat : Int) < (Gauge.level (depth + 1)).depth ↔
        s.limits.maxDepth.toNat < depth + 1 := Int.ofNat_lt
    rw [guarded, deeper]
    simp only [hdepth]
    split
    next => exact tracks_fail _
    next h => exact hx (by omega)
  refine (tracks_move hraise (Gauge.sound_level (by omega) htop)).seq (tracks_now.seq ?_)
  refine hguarded.andThen fun a => ?_
  exact (tracks_move hlower (Gauge.sound_begin hlimit (by omega))).seq (tracks_pure a)

theorem tracksWithin_opened_bind (htop : depth + 1 ≤ top) {k : Nat → Except Fault α}
    (hx : depth + 1 ≤ s.limits.maxDepth.toNat → TracksAt s top (depth + 1) x (k (depth + 1))) {f : α → Metered β}
    {r : α → Except Fault β} (hf : ∀ a, TracksWithin s top depth (f a) (r a)) :
    TracksWithin s top depth (opened s.limits.maxDepth x >>= f) (deeper s depth >>= fun level => k level >>= r) := by
  rw [← bind_assoc]
  exact (tracksWithin_opened hlimit htop hx).bind fun a _ => hf a

end Metered

open Metered

mutual

theorem Primary.run_tracks : ∀ (p : Primary) {depth : Nat}, depth ≤ s.limits.maxDepth.toNat →
    depth + p.nesting ≤ top → TracksAt s top depth (p.run (W := W) s) (p.eval s depth)
  | .number _, _, hlimit, htop => by
    rw [Primary.run, Primary.eval]
    exact TracksWithin.primary hlimit htop ((tracks_lift _).bind fun _ _ => tracks_pure _)
  | .die _, _, hlimit, htop => by
    rw [Primary.run, Primary.eval]
    exact TracksWithin.primary hlimit htop ((tracks_lift _).bind fun _ _ => tracks_pure _)
  | .halfDie _, _, hlimit, htop => by
    rw [Primary.run, Primary.eval]
    exact TracksWithin.primary hlimit htop ((tracks_lift _).bind fun _ _ => tracks_pure _)
  | .keep _ _ p, _, hlimit, htop => by
    rw [Primary.nesting] at htop
    rw [Primary.run, Primary.eval]
    refine TracksWithin.primary hlimit (by omega) ((tracks_lift _).bind fun _ _ => ?_)
    split
    next cause hmissing =>
      obtain rfl := p.eq_broken_of_missing? hmissing
      exact tracksWithin_opened_bind hlimit (by omega) (k := fun _ => .ok ()) (fun _ => tracks_pure ())
        fun _ => tracks_fail cause
    next =>
      exact tracksWithin_opened_bind hlimit (by omega) (fun hinner => p.run_tracks hinner (by omega))
        fun _ => tracks_pure _
  | .group e, _, hlimit, htop => by
    rw [Primary.nesting] at htop
    rw [Primary.run, Primary.eval]
    exact TracksWithin.primary hlimit (by omega)
      (tracksWithin_opened hlimit (by omega) fun hinner => e.run_tracks hinner (by omega))
  | .broken cause, _, _, _ => by
    rw [Primary.run, Primary.eval]
    exact tracks_fail cause

theorem Term.run_tracks : ∀ (t : Term) {depth : Nat}, depth ≤ s.limits.maxDepth.toNat →
    depth + t.nesting ≤ top → TracksAt s top depth (t.run (W := W) s) (t.eval s depth)
  | .one p, _, hlimit, htop => by
    rw [Term.run, Term.eval]
    exact p.run_tracks hlimit htop
  | .copies t p, _, hlimit, htop => by
    rw [Term.nesting] at htop
    rw [Term.run, Term.eval]
    exact (t.run_tracks hlimit (by omega)).bind fun _ _ =>
      (p.run_tracks hlimit (by omega)).bind fun _ _ => tracks_lift _

theorem Branch.run_tracks : ∀ (b : Branch) {depth : Nat} (main : Distribution W), depth ≤ s.limits.maxDepth.toNat →
    depth + b.nesting ≤ top → TracksAt s top depth (b.run s main) (b.eval s depth main)
  | .whole, _, _, _, _ => by
    rw [Branch.run, Branch.eval]
    exact tracks_pure _
  | .half, _, _, _, _ => by
    rw [Branch.run, Branch.eval]
    exact tracks_lift _
  | .own t, _, _, hlimit, htop => by
    rw [Branch.run, Branch.eval]
    exact t.run_tracks hlimit htop

theorem Crit.run_tracks : ∀ (c : Crit) {depth : Nat} (main current : Distribution W),
    depth ≤ s.limits.maxDepth.toNat → depth + c.nesting ≤ top →
    TracksAt s top depth (c.run s main current) (c.eval s depth main current)
  | .absent, _, _, _, _, _ => by
    rw [Crit.run, Crit.eval]
    exact tracks_pure _
  | .one b, _, main, _, hlimit, htop => by
    rw [Crit.run, Crit.eval]
    exact (tracks_lift _).bind fun _ _ => (b.run_tracks main hlimit htop).bind fun _ _ => tracks_pure _
  | .many _ b, _, main, _, hlimit, htop => by
    rw [Crit.run, Crit.eval]
    exact (tracks_lift _).bind fun _ _ => (tracks_lift _).bind fun _ _ =>
      (b.run_tracks main hlimit htop).bind fun _ _ => tracks_pure _
  | .broken cause, _, _, _, _, _ => by
    rw [Crit.run, Crit.eval]
    exact tracks_fail cause

theorem Save.run_tracks : ∀ (c : Save) {depth : Nat} (main current : Distribution W),
    depth ≤ s.limits.maxDepth.toNat → depth + c.nesting ≤ top →
    TracksAt s top depth (c.run s main current) (c.eval s depth main current)
  | .absent, _, _, _, _, _ => by
    rw [Save.run, Save.eval]
    exact tracks_pure _
  | .one b, _, main, _, hlimit, htop => by
    rw [Save.run, Save.eval]
    exact (tracks_lift _).bind fun _ _ => (b.run_tracks main hlimit htop).bind fun _ _ => tracks_pure _
  | .broken cause, _, _, _, _, _ => by
    rw [Save.run, Save.eval]
    exact tracks_fail cause

theorem Argument.run_tracks : ∀ (a : Argument) {depth : Nat} (current : Distribution W),
    depth ≤ s.limits.maxDepth.toNat → depth + a.nesting ≤ top →
    TracksAt s top depth (a.run s current) (a.eval s depth current)
  | .itself, _, _, _, _ => by
    rw [Argument.run, Argument.eval]
    exact tracks_pure _
  | .own t, _, _, hlimit, htop => by
    rw [Argument.run, Argument.eval]
    exact t.run_tracks hlimit htop

/-- A tree comes out with a counter as it does when the depth is passed down. -/
theorem Expression.run_tracks : ∀ (e : Expression) {depth : Nat}, depth ≤ s.limits.maxDepth.toNat →
    depth + e.nesting ≤ top → TracksAt s top depth (e.run (W := W) s) (e.eval s depth)
  | .term t, _, hlimit, htop => by
    rw [Expression.run, Expression.eval]
    exact t.run_tracks hlimit htop
  | .apply left op argument halved crit save, _, hlimit, htop => by
    rw [Expression.nesting] at htop
    rw [Expression.run, Expression.eval_apply]
    exact (left.run_tracks hlimit (by omega)).bind fun current _ =>
      (argument.run_tracks current hlimit (by omega)).bind fun whole _ => (tracks_lift _).bind fun main _ =>
        (crit.run_tracks main current hlimit (by omega)).bind fun top _ =>
          (save.run_tracks main top.2 hlimit (by omega)).bind fun bottom _ => tracks_lift _
  | .broken left cause, _, hlimit, htop => by
    rw [Expression.run, Expression.eval]
    exact (left.run_tracks hlimit htop).bind fun _ _ => tracks_fail cause

end
end Trees

/-! ### Whole texts -/

/-- A text that has a distribution has it under just those limits that its nesting keeps to, and under the others
fails by the limit. With a counter in place of a depth passed down every text comes out the same. The counter is
behind each primary what it was before, and it never falls below zero or rises by more than the text is long. No more
primaries are ever begun, one in another, than the limit and one. -/
theorem evaluate_limited_by_nesting (s : Setting) (text : String) :
    (∀ d : Distribution W, evaluate s text = .ok d → ∃ e : Expression, e.Derives (Cell.ofText text) [] ∧
      ∀ limit : UInt64, evaluate (s.nestingUpTo limit) text =
        if e.nesting ≤ limit.toNat then .ok d else .error (.nestingTooDeep limit.toNat)) ∧
    ∃ m : Meter, (Expression.ofText text).run s {} = ((evaluate s text : Except Fault (Distribution W)), m) ∧
      (∀ e ∈ m.read, e.1 = e.2) ∧ ∀ g ∈ m.shown, g.Sound s.limits.maxDepth (Cell.ofText text).length := by
  constructor
  · intro d hd
    refine ⟨_, (Expression.ofText_of_evaluate hd).1, fun limit => ?_⟩
    have hwithin := Expression.eval_nestingUpTo (Expression.ofText text) hd (Nat.zero_le limit.toNat)
    rwa [Nat.zero_add] at hwithin
  · have hnesting : 0 + (Expression.ofText text).nesting ≤ (Cell.ofText text).length := by
      rw [Nat.zero_add]
      exact Expression.nesting_ofCells_le _
    have htracks := Expression.run_tracks (W := W) (s := s) (Expression.ofText text) (Nat.zero_le _) hnesting {} rfl
    refine ⟨_, Prod.ext htracks.result rfl, fun e he => ?_, fun g hg => ?_⟩
    · exact (htracks.read e he).resolve_left List.not_mem_nil
    · refine (htracks.shown g hg).elim (fun hstart => ?_) id
      obtain rfl := List.mem_singleton.mp hstart
      exact Gauge.sound_level (Nat.zero_le _) (Nat.zero_le _)

/-- Two selectors in a row are two levels, and parentheses beside them are none more. -/
theorem evaluate_limited_by_nesting_keep_chain :
    (∃ d : Distribution Rat, evaluate {} "2kh1kl1d2 ~+ ((1))" = .ok d) ∧
    (∃ d : Distribution Rat, evaluate ⟨{ maxDepth := 2 }, 0⟩ "2kh1kl1d2 ~+ ((1))" = .ok d) ∧
    evaluate (W := Rat) ⟨{ maxDepth := 1 }, 0⟩ "2kh1kl1d2 ~+ ((1))" = .error (.nestingTooDeep 1) := by
  obtain ⟨d, hd⟩ := Option.isSome_iff_exists.mp
    (show (evaluate (W := Rat) {} "2kh1kl1d2 ~+ ((1))").toOption.isSome = true by decide +kernel)
  have hd := toOption_eq_some.mp hd
  obtain ⟨e, he, hlimit⟩ := (evaluate_limited_by_nesting {} "2kh1kl1d2 ~+ ((1))").1 d hd
  obtain rfl := Expression.ofCells_of_derives he
  have hnesting : (Expression.ofCells (Cell.ofText "2kh1kl1d2 ~+ ((1))")).nesting = 2 := by decide +kernel
  rw [hnesting] at hlimit
  exact ⟨⟨d, hd⟩, ⟨d, hlimit 2⟩, hlimit 1⟩

end DiceLaw.Notation
