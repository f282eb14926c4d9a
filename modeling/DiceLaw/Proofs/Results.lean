import Mathlib.Data.List.Forall2

/-! Computations that may fail: what it takes for one to succeed, and for two to do alike. -/
namespace DiceLaw

theorem bind_eq_ok {ε α β : Type} {x : Except ε α} {f : α → Except ε β} {b : β} :
    x >>= f = .ok b ↔ ∃ a, x = .ok a ∧ f a = .ok b := by
  cases x <;> simp [bind, Except.bind]

theorem pure_eq_ok {ε α : Type} {a b : α} : (pure a : Except ε α) = .ok b ↔ a = b := by
  simp [pure, Except.pure]

/-- What is done with a result does not decide whether there is one. -/
theorem exists_bind_pure_eq_ok {ε α β : Type} {x : Except ε α} {f : α → β} :
    (∃ b, (do let a ← x; pure (f a)) = .ok b) ↔ ∃ a, x = .ok a := by
  cases x <;> simp [bind, Except.bind, pure, Except.pure]

theorem toOption_eq_some {ε α : Type} {x : Except ε α} {a : α} : x.toOption = some a ↔ x = .ok a := by
  cases x <;> simp [Except.toOption]

/-- The fault of a computation that fails. -/
def fault? {ε α : Type} : Except ε α → Option ε
  | .ok _ => none
  | .error cause => some cause

theorem fault?_eq_some {ε α : Type} {x : Except ε α} {cause : ε} : fault? x = some cause ↔ x = .error cause := by
  cases x <;> simp [fault?]

/-- A list of computations succeeds when each does, with the results in a row. -/
theorem mapM_eq_ok {ε α β : Type} {f : α → Except ε β} {l : List α} {bs : List β} :
    l.mapM f = .ok bs ↔ l.map f = bs.map .ok := by
  induction l generalizing bs with
  | nil => cases bs <;> simp [pure_eq_ok]
  | cons a l ih =>
    simp only [List.mapM_cons, bind_eq_ok, pure_eq_ok, ih]
    constructor
    · intro hok
      obtain ⟨b, hb, bs, hbs, rfl⟩ := hok
      rw [List.map_cons, List.map_cons, hb, hbs]
    · intro h
      cases bs with
      | nil => cases h
      | cons b bs =>
        obtain ⟨hb, hbs⟩ := List.cons.inj h
        exact ⟨b, hb, bs, hbs, rfl⟩

theorem exists_mapM_eq_ok {ε α β : Type} {f : α → Except ε β} {l : List α} :
    (∃ bs, l.mapM f = .ok bs) ↔ ∀ a ∈ l, ∃ b, f a = .ok b := by
  induction l with
  | nil => simp [pure_eq_ok]
  | cons a l ih =>
    simp only [List.mapM_cons, bind_eq_ok, pure_eq_ok, List.forall_mem_cons, ← ih]
    constructor
    · rintro ⟨_, b, hb, bs, hbs, rfl⟩
      exact ⟨⟨b, hb⟩, bs, hbs⟩
    · rintro ⟨⟨b, hb⟩, bs, hbs⟩
      exact ⟨b :: bs, b, hb, bs, hbs, rfl⟩

/-- A list of computations fails as the first one does that fails. -/
theorem mapM_eq_error {ε α β : Type} {f : α → Except ε β} {before after : List α} {a : α} {cause : ε}
    (hbefore : ∀ b ∈ before, ∃ c, f b = .ok c) (ha : f a = .error cause) :
    (before ++ a :: after).mapM f = .error cause := by
  induction before with
  | nil => rw [List.nil_append, List.mapM_cons, ha]; rfl
  | cons b before ih =>
    obtain ⟨⟨c, hc⟩, hrest⟩ := List.forall_mem_cons.mp hbefore
    rw [List.cons_append, List.mapM_cons, hc, ih hrest]
    rfl

/-- Where faults are renamed, they may be so step by step. -/
theorem bind_eq_mapError {ε ε' α β : Type} {g : ε → ε'} {x : Except ε α} {x' : Except ε' α} {f : α → Except ε β}
    {f' : α → Except ε' β} (hx : x' = x.mapError g) (hf : ∀ a, f' a = (f a).mapError g) :
    x' >>= f' = (x >>= f).mapError g := by
  subst hx
  cases x with
  | error cause => rfl
  | ok a => exact hf a

/-- Two computations fail with related faults, or both succeed with related results. -/
inductive Parallel {ε ε' α β : Type} (faults : ε → ε' → Prop) (results : α → β → Prop) :
    Except ε α → Except ε' β → Prop where
  | ok {a b} : results a b → Parallel faults results (.ok a) (.ok b)
  | error {e f} : faults e f → Parallel faults results (.error e) (.error f)

/-- Two computations fail with the same fault, or both succeed and the results are related. -/
abbrev Alike {ε α β : Type} (related : α → β → Prop) : Except ε α → Except ε β → Prop := Parallel Eq related

namespace Parallel
variable {ε ε' α β γ δ : Type} {faults : ε → ε' → Prop} {results : α → β → Prop} {x : Except ε α} {y : Except ε' β}

theorem mono {wider : α → β → Prop} (h : Parallel faults results x y) (hwider : ∀ a b, results a b → wider a b) :
    Parallel faults wider x y :=
  match h with
  | .ok hab => .ok (hwider _ _ hab)
  | .error hef => .error hef

theorem bind {next : γ → δ → Prop} {f : α → Except ε γ} {g : β → Except ε' δ} (h : Parallel faults results x y)
    (hnext : ∀ a b, results a b → Parallel faults next (f a) (g b)) : Parallel faults next (x >>= f) (y >>= g) :=
  match h with
  | .ok hab => hnext _ _ hab
  | .error hef => .error hef

theorem bind_eq {next : γ → δ → Prop} {y : Except ε' α} {f : α → Except ε γ} {g : α → Except ε' δ}
    (h : Parallel faults Eq x y) (hnext : ∀ a, Parallel faults next (f a) (g a)) :
    Parallel faults next (x >>= f) (y >>= g) :=
  h.bind fun a _ hab => hab ▸ hnext a

/-- Success may be assumed of the results. -/
theorem with_ok (h : Parallel faults results x y) : Parallel faults (fun a b => x = .ok a ∧ results a b) x y :=
  match h with
  | .ok hab => .ok ⟨rfl, hab⟩
  | .error hef => .error hef

theorem exists_ok {a : α} (h : Parallel faults results x y) (hx : x = .ok a) : ∃ b, y = .ok b ∧ results a b := by
  subst hx
  cases h with
  | ok hab => exact ⟨_, rfl, hab⟩

theorem of_eq_map {ε α β : Type} {x : Except ε α} {y : Except ε β} {g : α → β} (h : y = x.map g) :
    Alike (fun a b => b = g a) x y := by
  subst h
  cases x with
  | ok a => exact .ok rfl
  | error e => exact .error rfl

theorem mapM {f : α → Except ε γ} {g : β → Except ε' δ} {next : γ → δ → Prop} {k : α → β}
    (h : ∀ a, Parallel faults next (f a) (g (k a))) (l : List α) :
    Parallel faults (List.Forall₂ next) (l.mapM f) ((l.map k).mapM g) := by
  induction l with
  | nil => exact .ok .nil
  | cons a l ih =>
    rw [List.map_cons, List.mapM_cons, List.mapM_cons]
    exact (h a).bind fun b c hbc => ih.bind fun bs cs hbcs => .ok (.cons hbc hbcs)

/-- Two runs over a row stay in parallel. -/
theorem foldlM {f : α → γ → Except ε α} {g : β → γ → Except ε' β}
    (h : ∀ a b c, results a b → Parallel faults results (f a c) (g b c)) {a : α} {b : β} (hab : results a b)
    (l : List γ) : Parallel faults results (l.foldlM f a) (l.foldlM g b) := by
  induction l generalizing a b with
  | nil => exact .ok hab
  | cons c l ih => exact (h a b c hab).bind fun _ _ => ih

end Parallel
end DiceLaw
