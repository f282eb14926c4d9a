import DiceLaw.Proofs.Mass
import DiceLaw.Proofs.Notation.Shares

/-! No text loses weight. Whatever is carved off, halved, kept or rolled again, a distribution that comes out
shows numbers only and weighs something, unless a die without sides went into it. -/
namespace DiceLaw.Notation
open DiceLaw.Distribution

/-! ### Parts -/

/-- Numbers with weights of zero or more on both sides. -/
structure Part.Plain (p : Part Rat) : Prop where
  carved : p.carved.Plain
  argument : p.argument.Plain

theorem Part.Plain.nonneg {p : Part Rat} (h : p.Plain) : p.Nonneg := ⟨h.carved.nonneg, h.argument.nonneg⟩

theorem Part.Plain.outcome {op : Operator} {p : Part Rat} (h : p.Plain)
    (hmet : op.apply p.carved p.argument = .ok (p.outcome op)) : (p.outcome op).Plain :=
  Operator.apply_plain h.carved h.argument hmet

theorem carveTop_plain {count : Nat} {d carved rest : Distribution Rat} (hd : d.Plain)
    (h : carveTop count d = .ok (carved, rest)) : carved.Plain ∧ rest.Plain := by
  rw [carveTop] at h
  split at h
  · cases h
  · obtain ⟨rfl, rfl⟩ := Prod.mk.inj (Except.ok.inj h)
    refine ⟨plain_ofWeights fun e he => nonneg_of_mem_numbers hd.nonneg (List.mem_of_mem_drop he), ?_⟩
    rw [Table.without_eq]
    exact hd.filter ..

theorem carveBottom_plain {d carved rest : Distribution Rat} (hd : d.Plain)
    (h : carveBottom d = .ok (carved, rest)) : carved.Plain ∧ rest.Plain := by
  simp only [carveBottom, bind_eq_ok, pure_eq_ok, Prod.mk.injEq] at h
  obtain ⟨low, -, rfl, rfl⟩ := h
  refine ⟨plain_ofWeights fun e he => ?_, hd.filter ..⟩
  rw [List.mem_singleton.mp he]
  exact hd.nonneg _

theorem carveCrit_plain {d rest : Distribution Rat} {crit : Option (Nat × Distribution Rat)}
    {parts : List (Part Rat)} (hd : d.Plain) (hcrit : ∀ c ∈ crit, c.2.Plain)
    (h : carveCrit d crit = .ok (parts, rest)) : rest.Plain ∧ ∀ p ∈ parts, p.Plain := by
  cases crit with
  | none =>
    obtain ⟨rfl, rfl⟩ : [] = parts ∧ d = rest := by simpa [carveCrit] using h
    exact ⟨hd, by simp⟩
  | some c =>
    obtain ⟨⟨carved, remains⟩, hc, he⟩ := carveCrit_some.mp h
    obtain ⟨rfl, rfl⟩ := Prod.mk.inj he
    obtain ⟨hcarved, hrest⟩ := carveTop_plain hd hc
    exact ⟨hrest, by simpa using ⟨hcarved, hcrit c rfl⟩⟩

theorem carveSave_plain {d rest : Distribution Rat} {save : Option (Distribution Rat)} {parts : List (Part Rat)}
    (hd : d.Plain) (hsave : ∀ a ∈ save, a.Plain) (h : carveSave d save = .ok (parts, rest)) :
    rest.Plain ∧ ∀ p ∈ parts, p.Plain := by
  cases save with
  | none =>
    obtain ⟨rfl, rfl⟩ : [] = parts ∧ d = rest := by simpa [carveSave] using h
    exact ⟨hd, by simp⟩
  | some a =>
    obtain ⟨⟨carved, remains⟩, hc, he⟩ := carveSave_some.mp h
    obtain ⟨rfl, rfl⟩ := Prod.mk.inj he
    obtain ⟨hcarved, hrest⟩ := carveBottom_plain hd hc
    exact ⟨hrest, by simpa using ⟨hcarved, hsave a rfl⟩⟩

/-! ### One use of an operator -/

theorem Part.Plain.rejoined {op : Operator} {share : Rat} {p : Part Rat} (h : p.Plain) (hshare : 0 ≤ share)
    (hmet : op.apply p.carved p.argument = .ok (p.outcome op)) : (p.rejoined op share).Plain := by
  refine (h.outcome hmet).scale ?_
  have hcarved := h.carved.nonneg.total_nonneg
  split
  · positivity
  · exact zero_le_one

theorem Part.Plain.rescaled {op : Operator} {p : Part Rat} (h : p.Plain)
    (hmet : op.apply p.carved p.argument = .ok (p.outcome op)) : (p.rescaled op).Plain := by
  refine (h.outcome hmet).scale ?_
  have houtcome := (h.outcome hmet).nonneg.total_nonneg
  split
  · positivity
  · exact zero_le_one

theorem foldlM_join_plain {op : Operator} {share : Rat} {carved : List (Part Rat)} {result r : Distribution Rat}
    (hshare : 0 ≤ share) (hresult : result.Plain) (hcarved : ∀ p ∈ carved, p.Plain)
    (h : carved.foldlM (join op share) result = .ok r) : r.Plain := by
  induction carved generalizing result with
  | nil =>
    cases h
    exact hresult
  | cons p carved ih =>
    rw [List.foldlM_cons, bind_eq_ok] at h
    obtain ⟨joined, hj, h⟩ := h
    obtain ⟨hmet, rfl⟩ := join_eq_ok.mp hj
    have hpart := hcarved p (by simp)
    exact ih (hresult.combine (hpart.rejoined hshare hmet)) (fun q hq => hcarved q (by simp [hq])) h

section Use
variable {op : Operator} {normal : Part Rat} {carved : List (Part Rat)} {r : Distribution Rat}
  (hparts : ∀ p ∈ normal :: carved, p.Plain) (h : applyParts op normal carved = .ok r)
include hparts h

theorem applyParts_plain : r.Plain := by
  obtain ⟨hmet, h⟩ := applyParts_eq_ok.mp h
  exact foldlM_join_plain (normal.share_pos op).le ((hparts normal (by simp)).rescaled hmet)
    (fun p hp => hparts p (by simp [hp])) h

/-- One of the parts weighs something before, and that part does so afterwards, be it the normal one or not. -/
theorem total_applyParts_pos (harguments : ∀ p ∈ normal :: carved, 0 < p.argument.total)
    (hpos : 0 < ((normal :: carved).map (·.carved.total)).sum) : 0 < r.total := by
  obtain ⟨hmet, h⟩ := applyParts_eq_ok.mp h
  obtain ⟨hmets, hr⟩ := foldlM_join h
  have hshare := normal.share_pos op
  have hlives (p : Part Rat) (hp : p ∈ normal :: carved) (hcarved : 0 < p.carved.total)
      (hmet : op.apply p.carved p.argument = .ok (p.outcome op)) : 0 < (p.outcome op).total :=
    Operator.total_apply_pos (hparts p hp).carved.nonneg hcarved (harguments p hp) hmet
  have htotal : r.total = (normal.rescaled op).total + normal.share op * (carved.map (·.carved.total)).sum := by
    rw [total_eq_integral, hr, ← total_eq_integral, ← List.sum_map_mul_left]
    congr 2
    refine List.map_congr_left fun p hp => ?_
    have hpart := List.mem_cons_of_mem normal hp
    rw [← total_eq_integral,
      (hparts p hpart).nonneg.total_rejoined (hmets p hp) fun hc => hlives p hpart hc (hmets p hp)]
  have hnormal := hparts normal (by simp)
  have hcarved : 0 ≤ (carved.map (·.carved.total)).sum :=
    List.sum_nonneg fun t ht => by
      obtain ⟨p, hp, rfl⟩ := List.mem_map.mp ht
      exact (hparts p (by simp [hp])).carved.nonneg.total_nonneg
  rw [htotal]
  by_cases hbefore : 0 < normal.carved.total
  · have houtcome := hlives normal (by simp) hbefore hmet
    have hrescaled : 0 < (normal.rescaled op).total := by
      rw [Part.rescaled, total_scale, if_pos hbefore]
      positivity
    positivity
  · have hempty : normal.carved.total = 0 := le_antisymm (not_lt.mp hbefore) hnormal.carved.nonneg.total_nonneg
    rw [List.map_cons, List.sum_cons, hempty, zero_add] at hpos
    have hrescaled := (hnormal.rescaled hmet).nonneg.total_nonneg
    positivity

end Use

section Operate
variable {op : Operator} {current main r : Distribution Rat} {crit : Option (Nat × Distribution Rat)}
  {save : Option (Distribution Rat)} (hcurrent : current.Plain) (hmain : main.Plain)
  (hcrit : ∀ c ∈ crit, c.2.Plain) (hsave : ∀ a ∈ save, a.Plain) (h : operate op current main crit save = .ok r)
include hcurrent hmain hcrit hsave h

theorem operate_parts : ∃ normal carved, applyParts op normal carved = .ok r ∧
    (∀ p ∈ normal :: carved, p.Plain) ∧ ((normal :: carved).map (·.carved.total)).sum = current.total ∧
    ∀ p ∈ normal :: carved, main = p.argument ∨ (∃ c ∈ crit, c.2 = p.argument) ∨ ∃ a ∈ save, a = p.argument := by
  rw [operate, bind_eq_ok] at h
  obtain ⟨⟨normal, carved⟩, hcarve, happly⟩ := h
  obtain ⟨-, hargument, harguments⟩ := carve_splits hcarve
  have hplain : ∀ p ∈ normal :: carved, p.Plain := by
    simp only [carve, bind_eq_ok, pure_eq_ok, Prod.mk.injEq] at hcarve
    obtain ⟨⟨top, rest⟩, ht, ⟨bottom, remains⟩, hb, rfl, rfl⟩ := hcarve
    obtain ⟨hrest, htop⟩ := carveCrit_plain hcurrent hcrit ht
    obtain ⟨hremains, hbottom⟩ := carveSave_plain hrest hsave hb
    intro p hp
    rcases List.mem_cons.mp hp with rfl | hp
    · exact ⟨hremains, hmain⟩
    · exact (List.mem_append.mp hp).elim (htop p) (hbottom p)
  refine ⟨normal, carved, happly, hplain, sum_total_carve hcarve, fun p hp => ?_⟩
  rcases List.mem_cons.mp hp with rfl | hp
  · exact .inl hargument.symm
  · exact .inr (harguments p hp)

theorem operate_plain : r.Plain := by
  obtain ⟨normal, carved, happly, hparts, -, -⟩ := operate_parts hcurrent hmain hcrit hsave h
  exact applyParts_plain hparts happly

theorem total_operate_pos (hcurrentPos : 0 < current.total) (hmainPos : 0 < main.total)
    (hcritPos : ∀ c ∈ crit, 0 < c.2.total) (hsavePos : ∀ a ∈ save, 0 < a.total) : 0 < r.total := by
  obtain ⟨normal, carved, happly, hparts, hsum, harguments⟩ := operate_parts hcurrent hmain hcrit hsave h
  refine total_applyParts_pos hparts happly (fun p hp => ?_) (hsum ▸ hcurrentPos)
  rcases harguments p hp with harg | ⟨c, hc, harg⟩ | ⟨a, ha, harg⟩
  · exact harg ▸ hmainPos
  · exact harg ▸ hcritPos c hc
  · exact harg ▸ hsavePos a ha

end Operate

theorem halve_plain {d r : Distribution Rat} (hd : d.Plain) (h : halve d = .ok r) :
    r.Plain ∧ (0 < d.total → 0 < r.total) := by
  have htwo : 0 < (scalar 2 : Distribution Rat).total := by
    rw [total_scalar]
    exact zero_lt_one
  have hdivide : Operator.divideFloor.apply d (scalar 2) = .ok r := h
  exact ⟨Operator.apply_plain hd (plain_scalar 2) hdivide,
    fun hpos => Operator.total_apply_pos hd.nonneg hpos htwo hdivide⟩

/-! ### Trees -/

mutual

/-- Every die in it has a side to show. -/
def Primary.Sided (n : Int64) : Primary → Prop
  | .number _ | .broken _ => True
  | .die sides | .halfDie sides => sides.number? n ≠ some 0
  | .keep _ _ target => target.Sided n
  | .group inner => inner.Sided n

def Term.Sided (n : Int64) : Term → Prop
  | .one first => first.Sided n
  | .copies counts die => counts.Sided n ∧ die.Sided n

def Branch.Sided (n : Int64) : Branch → Prop
  | .whole | .half => True
  | .own argument => argument.Sided n

def Crit.Sided (n : Int64) : Crit → Prop
  | .absent | .broken _ => True
  | .one branch | .many _ branch => branch.Sided n

def Save.Sided (n : Int64) : Save → Prop
  | .absent | .broken _ => True
  | .one branch => branch.Sided n

def Argument.Sided (n : Int64) : Argument → Prop
  | .itself => True
  | .own argument => argument.Sided n

def Expression.Sided (n : Int64) : Expression → Prop
  | .term first => first.Sided n
  | .apply left _ argument _ crit save => left.Sided n ∧ argument.Sided n ∧ crit.Sided n ∧ save.Sided n
  | .broken left _ => left.Sided n

end

mutual

def Primary.decidableSided (n : Int64) : (p : Primary) → Decidable (p.Sided n)
  | .number _ | .broken _ => .isTrue trivial
  | .die sides | .halfDie sides => inferInstanceAs (Decidable (sides.number? n ≠ some 0))
  | .keep _ _ target => target.decidableSided n
  | .group inner => inner.decidableSided n

def Term.decidableSided (n : Int64) : (t : Term) → Decidable (t.Sided n)
  | .one first => first.decidableSided n
  | .copies counts die => @instDecidableAnd _ _ (counts.decidableSided n) (die.decidableSided n)

def Branch.decidableSided (n : Int64) : (b : Branch) → Decidable (b.Sided n)
  | .whole | .half => .isTrue trivial
  | .own argument => argument.decidableSided n

def Crit.decidableSided (n : Int64) : (c : Crit) → Decidable (c.Sided n)
  | .absent | .broken _ => .isTrue trivial
  | .one branch | .many _ branch => branch.decidableSided n

def Save.decidableSided (n : Int64) : (c : Save) → Decidable (c.Sided n)
  | .absent | .broken _ => .isTrue trivial
  | .one branch => branch.decidableSided n

def Argument.decidableSided (n : Int64) : (a : Argument) → Decidable (a.Sided n)
  | .itself => .isTrue trivial
  | .own argument => argument.decidableSided n

def Expression.decidableSided (n : Int64) : (e : Expression) → Decidable (e.Sided n)
  | .term first => first.decidableSided n
  | .apply left _ argument _ crit save =>
    @instDecidableAnd _ _ (left.decidableSided n) (@instDecidableAnd _ _ (argument.decidableSided n)
      (@instDecidableAnd _ _ (crit.decidableSided n) (save.decidableSided n)))
  | .broken left _ => left.decidableSided n

end

instance (n : Int64) (e : Expression) : Decidable (e.Sided n) := e.decidableSided n

theorem Numeral.upTo?_pos {m : Numeral} {most k : Nat} {n : Int64} (h : m.upTo? most n = some k)
    (hsided : m.number? n ≠ some 0) : 0 < k := by
  simp only [Numeral.upTo?, Option.bind_eq_bind, Option.bind_eq_some_iff] at h
  obtain ⟨v, hv, h⟩ := h
  split at h
  next hrange =>
    cases h
    have hne : v.toInt ≠ 0 := by
      intro hzero
      obtain rfl : v = 0 := Int64.toInt_inj.mp hzero
      exact hsided hv
    omega
  next => cases h

theorem halfDie_plain (sides : Nat) : (Notation.halfDie sides : Distribution Rat).Plain :=
  ((plain_uniform sides).filter ..).combine (plain_uniform sides)

theorem total_halfDie_pos {sides : Nat} (h : 0 < sides) : 0 < (Notation.halfDie sides : Distribution Rat).total := by
  have hrest : 0 ≤ ((uniform sides : Distribution Rat).deleteFace (.number 1)).total :=
    ((plain_uniform sides).filter ..).nonneg.total_nonneg
  rw [Notation.halfDie, total_combine, total_uniform]
  positivity

mutual

theorem Primary.mass {s : Setting} : ∀ (p : Primary) {d : Distribution Rat}, p.denotation s = some d →
    d.Plain ∧ (p.Sided s.n → 0 < d.total)
  | .number m, d, h => by
    simp only [Primary.denotation, Option.bind_eq_bind, Option.bind_eq_some_iff, Option.some_inj] at h
    obtain ⟨v, -, rfl⟩ := h
    exact ⟨plain_scalar v, fun _ => by rw [total_scalar]; exact zero_lt_one⟩
  | .die m, d, h => by
    simp only [Primary.denotation, Option.bind_eq_bind, Option.bind_eq_some_iff, Option.some_inj] at h
    obtain ⟨k, hk, rfl⟩ := h
    refine ⟨plain_uniform k, fun hsided => ?_⟩
    rw [Primary.Sided] at hsided
    rw [total_uniform]
    exact_mod_cast Numeral.upTo?_pos hk hsided
  | .halfDie m, d, h => by
    simp only [Primary.denotation, Option.bind_eq_bind, Option.bind_eq_some_iff, Option.some_inj] at h
    obtain ⟨k, hk, rfl⟩ := h
    refine ⟨halfDie_plain k, fun hsided => ?_⟩
    rw [Primary.Sided] at hsided
    exact total_halfDie_pos (Numeral.upTo?_pos hk hsided)
  | .keep direction m p, d, h => by
    simp only [Primary.denotation, Option.bind_eq_bind, Option.bind_eq_some_iff, Option.some_inj] at h
    obtain ⟨k, -, inner, hp, rfl⟩ := h
    obtain ⟨hplain, hpos⟩ := p.mass hp
    rw [Primary.Sided]
    exact ⟨⟨hplain.numeric, hplain.nonneg⟩, hpos⟩
  | .group e, d, h => by
    rw [Primary.denotation] at h
    rw [Primary.Sided]
    exact e.mass h
  | .broken cause, d, h => by
    rw [Primary.denotation] at h
    cases h

theorem Term.mass {s : Setting} : ∀ (t : Term) {d : Distribution Rat}, t.denotation s = some d →
    d.Plain ∧ (t.Sided s.n → 0 < d.total)
  | .one p, d, h => by
    rw [Term.denotation] at h
    rw [Term.Sided]
    exact p.mass h
  | .copies t p, d, h => by
    simp only [Term.denotation, Option.bind_eq_bind, Option.bind_eq_some_iff, toOption_eq_some] at h
    obtain ⟨counts, ht, die, hp, h⟩ := h
    obtain ⟨hcounts, hcountsPos⟩ := t.mass ht
    obtain ⟨hdie, hdiePos⟩ := p.mass hp
    refine ⟨hcounts.repeated hdie h, fun hsided => ?_⟩
    rw [Term.Sided] at hsided
    exact total_repeated_pos hcounts hdie h (hcountsPos hsided.1) (hdiePos hsided.2)

theorem Branch.mass {s : Setting} {main : Distribution Rat} (hmain : main.Plain) : ∀ (b : Branch)
    {d : Distribution Rat}, b.denotation s main = some d →
    d.Plain ∧ (0 < main.total → b.Sided s.n → 0 < d.total)
  | .whole, d, h => by
    rw [Branch.denotation] at h
    cases h
    exact ⟨hmain, fun hpos _ => hpos⟩
  | .half, d, h => by
    rw [Branch.denotation, toOption_eq_some] at h
    obtain ⟨hplain, hpos⟩ := halve_plain hmain h
    exact ⟨hplain, fun hmainPos _ => hpos hmainPos⟩
  | .own t, d, h => by
    rw [Branch.denotation] at h
    obtain ⟨hplain, hpos⟩ := t.mass h
    rw [Branch.Sided]
    exact ⟨hplain, fun _ => hpos⟩

theorem Crit.mass {s : Setting} {main : Distribution Rat} (hmain : main.Plain) : ∀ (c : Crit)
    {top : Option (Nat × Distribution Rat)}, c.denotation s main = some top →
    ∀ a ∈ top, a.2.Plain ∧ (0 < main.total → c.Sided s.n → 0 < a.2.total)
  | .absent, top, h => by
    rw [Crit.denotation] at h
    cases h
    simp
  | .one b, top, h => by
    simp only [Crit.denotation, Option.bind_eq_bind, Option.bind_eq_some_iff, Option.some_inj] at h
    obtain ⟨argument, hb, rfl⟩ := h
    rintro a ⟨⟩
    rw [Crit.Sided]
    exact b.mass hmain hb
  | .many m b, top, h => by
    simp only [Crit.denotation, Option.bind_eq_bind, Option.bind_eq_some_iff, Option.some_inj] at h
    obtain ⟨k, -, argument, hb, rfl⟩ := h
    rintro a ⟨⟩
    rw [Crit.Sided]
    exact b.mass hmain hb
  | .broken cause, top, h => by
    rw [Crit.denotation] at h
    cases h

theorem Save.mass {s : Setting} {main : Distribution Rat} (hmain : main.Plain) : ∀ (c : Save)
    {bottom : Option (Distribution Rat)}, c.denotation s main = some bottom →
    ∀ a ∈ bottom, a.Plain ∧ (0 < main.total → c.Sided s.n → 0 < a.total)
  | .absent, bottom, h => by
    rw [Save.denotation] at h
    cases h
    simp
  | .one b, bottom, h => by
    simp only [Save.denotation, Option.bind_eq_bind, Option.bind_eq_some_iff, Option.some_inj] at h
    obtain ⟨argument, hb, rfl⟩ := h
    rintro a ⟨⟩
    rw [Save.Sided]
    exact b.mass hmain hb
  | .broken cause, bottom, h => by
    rw [Save.denotation] at h
    cases h

theorem Argument.mass {s : Setting} {current : Distribution Rat} (hcurrent : current.Plain) : ∀ (a : Argument)
    {d : Distribution Rat}, a.denotation s current = some d →
    d.Plain ∧ (0 < current.total → a.Sided s.n → 0 < d.total)
  | .itself, d, h => by
    rw [Argument.denotation] at h
    cases h
    exact ⟨hcurrent, fun hpos _ => hpos⟩
  | .own t, d, h => by
    rw [Argument.denotation] at h
    obtain ⟨hplain, hpos⟩ := t.mass h
    rw [Argument.Sided]
    exact ⟨hplain, fun _ => hpos⟩

theorem Expression.mass {s : Setting} : ∀ (e : Expression) {d : Distribution Rat}, e.denotation s = some d →
    d.Plain ∧ (e.Sided s.n → 0 < d.total)
  | .term t, d, h => by
    rw [Expression.denotation] at h
    rw [Expression.Sided]
    exact t.mass h
  | .apply left op argument halved crit save, d, h => by
    simp only [Expression.denotation, Option.bind_eq_bind, Option.bind_eq_some_iff, toOption_eq_some] at h
    obtain ⟨current, hl, whole, ha, main, hm, top, hc, bottom, hs, h⟩ := h
    obtain ⟨hcurrent, hcurrentPos⟩ := left.mass hl
    obtain ⟨hwhole, hwholePos⟩ := argument.mass hcurrent ha
    obtain ⟨hmain, hmainPos⟩ : main.Plain ∧ (0 < whole.total → 0 < main.total) := by
      cases halved with
      | true => exact halve_plain hwhole hm
      | false => cases hm; exact ⟨hwhole, id⟩
    have htop := crit.mass hmain hc
    have hbottom := save.mass hmain hs
    refine ⟨operate_plain hcurrent hmain (fun a h => (htop a h).1) (fun a h => (hbottom a h).1) h, ?_⟩
    intro hsided
    rw [Expression.Sided] at hsided
    obtain ⟨hleft, hargument, hcrit, hsave⟩ := hsided
    have hcurrentPos := hcurrentPos hleft
    have hmainPos := hmainPos (hwholePos hcurrentPos hargument)
    exact total_operate_pos hcurrent hmain (fun a h => (htop a h).1) (fun a h => (hbottom a h).1) h hcurrentPos
      hmainPos (fun a h => (htop a h).2 hmainPos hcrit) (fun a h => (hbottom a h).2 hmainPos hsave)
  | .broken left cause, d, h => by
    rw [Expression.denotation] at h
    cases h

end

/-- Whatever text has a distribution, numbers alone are listed in it, no weight is below zero, and the chances of
all outcomes make up one, unless nothing weighs anything. That takes a die without sides in the text. -/
theorem evaluate_keeps_mass {s : Setting} {text : String} {d : Distribution Rat} (h : evaluate s text = .ok d) :
    (∀ f ∈ d.table.faces, ∃ v, f = .number v) ∧ (∀ e ∈ d.table.entries, 0 ≤ e.2) ∧
    ((d.total = 0 ∧ ∀ e ∈ d.outcomes, e.2 = 0) ∨
      (∀ e ∈ d.outcomes, 0 ≤ e.2 ∧ e.2 ≤ 1) ∧ (d.outcomes.map (·.2)).sum = 1) ∧
    ((Expression.ofText text).Sided s.n → 0 < d.total) := by
  rw [evaluate, Expression.eval_eq_ok _ (Nat.zero_le _)] at h
  obtain ⟨hplain, hpos⟩ := Expression.mass _ h.2
  refine ⟨hplain.numeric, ?_, ?_, hpos⟩
  · intro e he
    rw [← Table.weight_of_mem he]
    exact hplain.nonneg e.1
  · by_cases htotal : d.total = 0
    · refine .inl ⟨htotal, fun e he => ?_⟩
      rw [chance_of_mem_outcomes he, chance_eq, htotal, div_zero]
    · refine .inr ⟨fun e he => ?_, sum_outcomes htotal⟩
      rw [chance_of_mem_outcomes he]
      exact ⟨hplain.nonneg.chance_nonneg e.1, hplain.nonneg.chance_le_one e.1⟩

/-- Nothing is left of a check once its crit and its save are carved off, yet the result weighs something. -/
theorem evaluate_keeps_mass_all_carved : ∃ d : Distribution Rat,
    evaluate {} "2kh1d3 dc 2 * (d4 reroll (1 & 2)) crit half save 3" = .ok d ∧ 0 < d.total ∧
      (d.outcomes.map (·.2)).sum = 1 := by
  obtain ⟨d, hd⟩ := Option.isSome_iff_exists.mp (show (evaluate (W := Rat) {}
    "2kh1d3 dc 2 * (d4 reroll (1 & 2)) crit half save 3").toOption.isSome = true by decide +kernel)
  have hd := toOption_eq_some.mp hd
  obtain ⟨-, -, hmass, hpos⟩ := evaluate_keeps_mass hd
  have hpos := hpos (by decide +kernel)
  refine ⟨d, hd, hpos, ?_⟩
  rcases hmass with ⟨hzero, -⟩ | ⟨-, hsum⟩
  · exact absurd hzero hpos.ne'
  · exact hsum

end DiceLaw.Notation
