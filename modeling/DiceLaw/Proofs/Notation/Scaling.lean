import DiceLaw.Proofs.Notation.Shares
import DiceLaw.Proofs.Scaling

/-! The scale of what meets an operator does not matter. Carving keeps the scale, each part comes out of the
operator on a scale of its own, and rejoining them brings all of them to one. The union is left out: it pools
weights, so that scales do matter to it. -/
namespace DiceLaw.Notation
open DiceLaw.Distribution

/-! ### Arguments -/

theorem halve_scale (d : Distribution Rat) (c : Rat) : halve (d.scale c) = (halve d).map (·.scale c) := by
  have hfactor : Operator.divideFloor.factor c 1 = c := mul_one c
  have h := Operator.apply_scale (show Operator.divideFloor ≠ .combine from nofun) d (scalar 2) c 1
  rw [scale_one, hfactor] at h
  exact h

theorem mainArgument_scale (halved : Bool) (whole : Distribution Rat) (c : Rat) :
    mainArgument halved (whole.scale c) = (mainArgument halved whole).map (·.scale c) := by
  cases halved with
  | false => rfl
  | true => exact halve_scale whole c

theorem mainArgument_nonneg {halved : Bool} {whole main : Distribution Rat} (hwhole : whole.Nonneg)
    (h : mainArgument halved whole = .ok main) : main.Nonneg := by
  cases halved with
  | false =>
    cases h
    exact hwhole
  | true =>
    have hmet : Operator.divideFloor.apply whole (scalar 2) = .ok main := h
    exact Operator.apply_nonneg hwhole (nonneg_of_entries (by decide +kernel)) hmet

/-! ### Carving -/

theorem carveTop_scale (count : Nat) (d : Distribution Rat) (c : Rat) :
    carveTop count (d.scale c) = (carveTop count d).map fun p => (p.1.scale c, p.2.scale c) := by
  have hrest (u : Table Rat) :
      (d.scale c).table.without (u.mapWeights (· * c)) = (d.table.without u).mapWeights (· * c) := by
    rw [scale, Table.without_mapWeights, Table.without_eq]
  rw [carveTop, carveTop, numbers_scale, List.length_map, ← List.map_drop, ofWeights_scale]
  split
  · rfl
  · exact congrArg (fun t => Except.ok (_, Distribution.mk t d.note)) (hrest _)

theorem carveBottom_scale (d : Distribution Rat) (c : Rat) :
    carveBottom (d.scale c) = (carveBottom d).map fun p => (p.1.scale c, p.2.scale c) := by
  have hlow : (d.scale c).minFace = d.minFace := by
    rw [minFace, minFace, numbers_scale, List.head?_map]
    cases d.numbers.head? <;> rfl
  rw [carveBottom, carveBottom, hlow]
  cases d.minFace with
  | error fault => rfl
  | ok low =>
    have hcarved := ofWeights_scale [(Max.max low 1, d.weight (.number low))] c
    have hrest : (d.scale c).deleteFace (.number low) = (d.deleteFace (.number low)).scale c := by
      rw [deleteFace, scale, Table.erase, Table.filter_mapWeights]
      rfl
    refine congrArg Except.ok (Prod.ext ?_ hrest)
    rw [weight_scale]
    exact hcarved

/-- A part on another scale: `c` for what was carved, and some scale for the argument. -/
structure Part.Scaled (c : Rat) (p p' : Part Rat) : Prop where
  carved : p'.carved = p.carved.scale c
  argument : ∃ a : Rat, 0 < a ∧ p'.argument = p.argument.scale a

/-- The same carved off a scaled distribution. -/
def Carved.Scaled (c : Rat) (out out' : List (Part Rat) × Distribution Rat) : Prop :=
  List.Forall₂ (Part.Scaled c) out.1 out'.1 ∧ out'.2 = out.2.scale c

theorem carveCrit_scale (current : Distribution Rat) (crit : Option (Nat × Distribution Rat)) {c e : Rat}
    (he : 0 < e) : Alike (Carved.Scaled c) (carveCrit current crit)
      (carveCrit (current.scale c) (crit.map fun t => (t.1, t.2.scale e))) := by
  cases crit with
  | none => exact .ok ⟨.nil, rfl⟩
  | some t =>
    refine (Parallel.of_eq_map (carveTop_scale t.1 current c)).bind ?_
    rintro p _ rfl
    exact .ok ⟨.cons ⟨rfl, e, he, rfl⟩ .nil, rfl⟩

theorem carveSave_scale (current : Distribution Rat) (save : Option (Distribution Rat)) {c g : Rat} (hg : 0 < g) :
    Alike (Carved.Scaled c) (carveSave current save) (carveSave (current.scale c) (save.map (·.scale g))) := by
  cases save with
  | none => exact .ok ⟨.nil, rfl⟩
  | some a =>
    refine (Parallel.of_eq_map (carveBottom_scale current c)).bind ?_
    rintro p _ rfl
    exact .ok ⟨.cons ⟨rfl, g, hg, rfl⟩ .nil, rfl⟩

theorem carve_scale (current main : Distribution Rat) (crit : Option (Nat × Distribution Rat))
    (save : Option (Distribution Rat)) {c d e g : Rat} (hd : 0 < d) (he : 0 < e) (hg : 0 < g) :
    Alike (fun out out' => out.1.Scaled c out'.1 ∧ List.Forall₂ (Part.Scaled c) out.2 out'.2)
      (carve current main crit save)
      (carve (current.scale c) (main.scale d) (crit.map fun t => (t.1, t.2.scale e)) (save.map (·.scale g))) := by
  refine (carveCrit_scale current crit he).bind ?_
  rintro ⟨top, rest⟩ ⟨top', _⟩ ⟨htop, rfl⟩
  refine (carveSave_scale rest save hg).bind ?_
  rintro ⟨bottom, normal⟩ ⟨bottom', _⟩ ⟨hbottom, rfl⟩
  exact .ok ⟨⟨rfl, d, hd, rfl⟩, List.rel_append htop hbottom⟩

/-! ### Joining -/

theorem join_eq (op : Operator) (share : Rat) (result : Distribution Rat) (p : Part Rat) :
    join op share result p =
      (do let _ ← op.apply p.carved p.argument; return result.combine (p.rejoined op share)) := by
  cases h : op.apply p.carved p.argument with
  | error fault => simp only [join, h, bind, Except.bind]
  | ok d => simp only [join, h, bind, Except.bind, Part.rejoined, Part.outcome_eq h]

theorem applyParts_eq (op : Operator) (normal : Part Rat) (carved : List (Part Rat)) :
    applyParts op normal carved = (do
      let _ ← op.apply normal.carved normal.argument
      carved.foldlM (join op (normal.share op)) (normal.rescaled op)) := by
  cases h : op.apply normal.carved normal.argument with
  | error fault => simp only [applyParts, h, bind, Except.bind]
  | ok d => simp only [applyParts, h, bind, Except.bind, Part.share, Part.rescaled, Part.outcome_eq h]

section Parts
variable {op : Operator} {c : Rat} {p p' : Part Rat} (hop : op ≠ .combine) (hc : 0 < c) (h : p.Scaled c p')
include hop hc h

theorem Part.Scaled.outcome : ∃ l : Rat, 0 < l ∧
    op.apply p'.carved p'.argument = (op.apply p.carved p.argument).map (·.scale l) ∧
      p'.outcome op = (p.outcome op).scale l := by
  obtain ⟨a, ha, hargument⟩ := h.argument
  have happly : op.apply p'.carved p'.argument =
      (op.apply p.carved p.argument).map (·.scale (op.factor c a)) := by
    rw [h.carved, hargument, Operator.apply_scale hop]
  refine ⟨op.factor c a, op.factor_pos hc ha, happly, ?_⟩
  rw [Part.outcome, Part.outcome, happly]
  cases op.apply p.carved p.argument <;> rfl

variable (hp : p.Nonneg) (hmet : op.apply p.carved p.argument = .ok (p.outcome op))
include hp hmet

theorem Part.Scaled.rejoined {share share' μ : Rat} (hshare : share' * c = share * μ) :
    p'.rejoined op share' = (p.rejoined op share).scale μ := by
  obtain ⟨l, hl, -, houtcome⟩ := h.outcome hop hc
  rw [Part.rejoined, Part.rejoined, houtcome, h.carved, scale_scale, scale_scale, total_scale, total_scale]
  by_cases hafter : 0 < (p.outcome op).total
  · have hcommon : p.carved.total * c * share' = p.carved.total * share * μ := by
      rw [mul_assoc, mul_comm c, hshare, mul_assoc]
    rw [if_pos hafter, if_pos (mul_pos hafter hl), hcommon]
    congr 1
    field_simp
  · exact scale_congr_of_weightless (hp.weight_outcome_eq_zero hmet hafter) _ _

/-- The normal part comes out on some scale, and the share that all parts have in common then brings the carved
ones to the same. Where nothing weighs anything any scale will do. -/
theorem Part.Scaled.rescaled : ∃ μ : Rat, 0 < μ ∧
    p'.rescaled op = (p.rescaled op).scale μ ∧ p'.share op * c = p.share op * μ := by
  obtain ⟨l, hl, -, houtcome⟩ := h.outcome hop hc
  -- The outcome is scaled by `l` and once more with its total, what was carved by `c`: together `l * l / c`.
  by_cases hlives : 0 < p.carved.total ∧ 0 < (p.outcome op).total
  · obtain ⟨hbefore, hafter⟩ := hlives
    have hbefore' : 0 < p'.carved.total := by
      rw [h.carved, total_scale]
      positivity
    have hrescaled : p'.rescaled op = (p.rescaled op).scale (l * l / c) := by
      rw [Part.rescaled, Part.rescaled, if_pos hbefore, if_pos hbefore', houtcome, h.carved, total_scale,
        total_scale, scale_scale, scale_scale]
      congr 1
      field_simp
    have hpos : 0 < (p.rescaled op).total := by
      rw [Part.rescaled, total_scale, if_pos hbefore]
      positivity
    have hpos' : 0 < (p'.rescaled op).total := by
      rw [hrescaled, total_scale]
      positivity
    refine ⟨l * l / c, by positivity, hrescaled, ?_⟩
    have hshare (q : Part Rat) (hq : 0 < q.carved.total) (hq' : 0 < (q.rescaled op).total) :
        q.share op = (q.rescaled op).total / q.carved.total := by simp [Part.share, hq, hq']
    rw [hshare p hbefore hpos, hshare p' hbefore' hpos', hrescaled, h.carved, total_scale, total_scale]
    field_simp
  · have hzero (f : Face) : (p.outcome op).weight f = 0 := by
      by_cases hbefore : 0 < p.carved.total
      · exact hp.weight_outcome_eq_zero hmet (fun hafter => hlives ⟨hbefore, hafter⟩) f
      · refine Operator.weight_apply_eq_zero hop (fun f => ?_) hmet f
        exact hp.carved.weight_eq_zero (le_antisymm (not_lt.mp hbefore) hp.carved.total_nonneg) f
    have htotal : (p.outcome op).total = 0 := by rw [total_eq_integral, integral_eq_zero hzero]
    have hshare : p.share op = 1 := by simp [Part.share, Part.rescaled, total_scale, htotal]
    have hshare' : p'.share op = 1 := by simp [Part.share, Part.rescaled, houtcome, total_scale, htotal]
    refine ⟨c, hc, ?_, by rw [hshare, hshare']⟩
    rw [Part.rescaled, Part.rescaled, houtcome, scale_scale, scale_scale]
    exact scale_congr_of_weightless hzero _ _

end Parts

section Joining
variable {op : Operator} {c : Rat} (hop : op ≠ .combine) (hc : 0 < c)
include hop hc

theorem foldlM_join_scale {carved carved' : List (Part Rat)} (h : List.Forall₂ (Part.Scaled c) carved carved')
    (hcarved : ∀ p ∈ carved, p.Nonneg) {share share' μ : Rat} (hshare : share' * c = share * μ)
    (result : Distribution Rat) : Alike (fun r r' => r' = r.scale μ) (carved.foldlM (join op share) result)
      (carved'.foldlM (join op share') (result.scale μ)) := by
  induction h generalizing result with
  | nil => exact .ok rfl
  | @cons p p' carved carved' hp _ ih =>
    obtain ⟨l, hl, happly, -⟩ := hp.outcome hop hc
    rw [List.foldlM_cons, List.foldlM_cons, join_eq, join_eq]
    refine (Parallel.bind (Parallel.of_eq_map happly).with_ok ?_ : Alike (fun r r' => r' = r.scale μ) _ _).bind ?_
    · rintro d _ ⟨hmet, rfl⟩
      have hmet := hmet.trans (congrArg Except.ok (Part.outcome_eq hmet).symm)
      refine .ok ?_
      rw [hp.rejoined hop hc (hcarved p (by simp)) hmet hshare, combine_scale]
    · rintro r _ rfl
      exact ih (fun q hq => hcarved q (by simp [hq])) r

theorem applyParts_scale {normal normal' : Part Rat} {carved carved' : List (Part Rat)}
    (hnormal : normal.Scaled c normal') (h : List.Forall₂ (Part.Scaled c) carved carved')
    (hparts : ∀ p ∈ normal :: carved, p.Nonneg) : Alike (fun r r' => ∃ μ : Rat, 0 < μ ∧ r' = r.scale μ)
      (applyParts op normal carved) (applyParts op normal' carved') := by
  obtain ⟨l, hl, happly, -⟩ := hnormal.outcome hop hc
  rw [applyParts_eq, applyParts_eq]
  refine (Parallel.of_eq_map happly).with_ok.bind ?_
  rintro d _ ⟨hmet, rfl⟩
  have hmet := hmet.trans (congrArg Except.ok (Part.outcome_eq hmet).symm)
  obtain ⟨μ, hμ, hrescaled, hshare⟩ := hnormal.rescaled hop hc (hparts normal (by simp)) hmet
  rw [hrescaled]
  refine (foldlM_join_scale hop hc h (fun p hp => hparts p (by simp [hp])) hshare _).mono ?_
  rintro r _ rfl
  exact ⟨μ, hμ, rfl⟩

end Joining

/-! ### One use of an operator -/

theorem operate_scale {op : Operator} (hop : op ≠ .combine) {current main : Distribution Rat}
    {crit : Option (Nat × Distribution Rat)} {save : Option (Distribution Rat)} (hcurrent : current.Nonneg)
    (hmain : main.Nonneg) (hcrit : ∀ t ∈ crit, t.2.Nonneg) (hsave : ∀ a ∈ save, a.Nonneg) {c d e g : Rat}
    (hc : 0 < c) (hd : 0 < d) (he : 0 < e) (hg : 0 < g) :
    Alike (fun r r' => ∃ μ : Rat, 0 < μ ∧ r' = r.scale μ) (operate op current main crit save)
      (operate op (current.scale c) (main.scale d) (crit.map fun t => (t.1, t.2.scale e))
        (save.map (·.scale g))) := by
  refine (carve_scale current main crit save hd he hg).with_ok.bind ?_
  rintro ⟨normal, carved⟩ ⟨normal', carved'⟩ ⟨hparts, hnormal, hcarved⟩
  exact applyParts_scale hop hc hnormal hcarved (nonneg_of_carve hparts hcurrent hmain hcrit hsave)

/-- The scales of what is put together do not matter. An operator other than the union, with any of its
modifiers, and copies of a die in a rolled number fail with the same fault or list the same faces with the same
chances, on whatever scales the weights that go in are. A halved argument keeps the scale of the whole one. -/
theorem chances_scale_free {op : Operator} (hop : op ≠ .combine) (halved : Bool) {current whole : Distribution Rat}
    {crit : Option (Nat × Distribution Rat)} {save : Option (Distribution Rat)} (hcurrent : current.Nonneg)
    (hwhole : whole.Nonneg) (hcrit : ∀ t ∈ crit, t.2.Nonneg) (hsave : ∀ a ∈ save, a.Nonneg) {c d e g : Rat}
    (hc : 0 < c) (hd : 0 < d) (he : 0 < e) (hg : 0 < g) :
    Alike SameChances
      (do let main ← mainArgument halved whole; operate op current main crit save)
      (do
        let main ← mainArgument halved (whole.scale d)
        operate op (current.scale c) main (crit.map fun t => (t.1, t.2.scale e)) (save.map (·.scale g))) ∧
    (∀ main : Distribution Rat, halve (main.scale d) = (halve main).map (·.scale d)) ∧
    ∀ (limits : Limits) (counts die : Distribution Rat),
      Alike SameChances (repeated limits counts die) (repeated limits (counts.scale c) (die.scale d)) := by
  have hsame (r r' : Distribution Rat) (h : ∃ μ : Rat, 0 < μ ∧ r' = r.scale μ) : r.SameChances r' := by
    obtain ⟨μ, hμ, rfl⟩ := h
    exact sameChances_scale r hμ
  refine ⟨?_, fun main => halve_scale main d, fun limits counts die => ?_⟩
  · refine (Parallel.of_eq_map (mainArgument_scale halved whole d)).with_ok.bind ?_
    rintro main _ ⟨hmain, rfl⟩
    exact (operate_scale hop hcurrent (mainArgument_nonneg hwhole hmain) hcrit hsave hc hd he hg).mono hsame
  · exact (repeated_scale limits counts die hc hd).mono hsame

/-- Every side on a scale of its own: still only the save comes to `6`, one time in four. -/
theorem chances_scale_free_all_carved :
    ∃ r, operate .add ((ofWeights [(1, 1), (2, 3)]).scale 2) ((scalar 1).scale 3) (some (1, (scalar 2).scale 5))
      (some ((scalar 5).scale 7)) = .ok r ∧ r.chance (.number 6) = (1 / 4 : Rat) := by
  have hplain : ((operate .add (ofWeights [(1, 1), (2, 3)]) (scalar 1) (some (1, scalar 2))
      (some (scalar 5))).toOption.map fun r => r.chance (.number 6)) = some (1 / 4 : Rat) := by decide +kernel
  obtain ⟨plain, hplain, hchance⟩ := Option.map_eq_some_iff.mp hplain
  obtain ⟨halike, -, -⟩ := chances_scale_free (show Operator.add ≠ .combine from nofun) false
    (show (ofWeights [(1, 1), (2, 3)] : Distribution Rat).Nonneg from nonneg_of_entries (by decide +kernel))
    (show (scalar 1 : Distribution Rat).Nonneg from nonneg_of_entries (by decide +kernel))
    (show ∀ t ∈ some (1, (scalar 2 : Distribution Rat)), t.2.Nonneg by
      rintro t ⟨⟩; exact nonneg_of_entries (by decide +kernel))
    (show ∀ a ∈ some (scalar 5 : Distribution Rat), a.Nonneg by
      rintro a ⟨⟩; exact nonneg_of_entries (by decide +kernel))
    (show (0 : Rat) < 2 by norm_num) (show (0 : Rat) < 3 by norm_num) (show (0 : Rat) < 5 by norm_num)
    (show (0 : Rat) < 7 by norm_num)
  obtain ⟨r, hr, hsame⟩ := halike.exists_ok (toOption_eq_some.mp hplain)
  exact ⟨r, hr, (hsame.chance _).trans hchance⟩

end DiceLaw.Notation
