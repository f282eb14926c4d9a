import DiceLaw.Proofs.Mass
import DiceLaw.Proofs.Notation.Placement
import DiceLaw.Proofs.Notation.Shares

/-! Unions in a row. Each use of the union pools the weights of both sides and scales them by what the total has
grown by. Two terms are pooled as they are; of three or more the later ones count less. -/
namespace DiceLaw

namespace Distribution

/-! ### One union -/

/-- Both sides pooled, and scaled by their total over that of the left one. -/
def unite (d e : Distribution Rat) : Distribution Rat := (d.combine e).scale ((d.total + e.total) / d.total)

theorem weight_unite (d e : Distribution Rat) (f : Face) :
    (d.unite e).weight f = (d.weight f + e.weight f) * ((d.total + e.total) / d.total) := by
  rw [unite, weight_scale, weight_combine, add_comm (e.weight f)]

theorem total_unite (d e : Distribution Rat) :
    (d.unite e).total = (d.total + e.total) * ((d.total + e.total) / d.total) := by
  rw [unite, total_scale, total_combine, add_comm e.total]

theorem total_unite_pos {d e : Distribution Rat} (hd : 0 < d.total) (he : 0 < e.total) : 0 < (d.unite e).total := by
  rw [total_unite]
  positivity

/-! ### Unions in a row -/

/-- What each further total counts with: the first total over what all before it come to. -/
def unionFactors (first reached : Rat) : List Rat → List Rat
  | [] => []
  | total :: later => first / reached :: unionFactors first (reached + first / reached * total) later

/-- Values counted with factors. -/
def weigh (factors values : List Rat) : Rat := (List.zipWith (· * ·) factors values).sum

theorem weigh_nil (values : List Rat) : weigh [] values = 0 := rfl

theorem weigh_cons (c v : Rat) (factors values : List Rat) :
    weigh (c :: factors) (v :: values) = c * v + weigh factors values := by
  rw [weigh, List.zipWith_cons_cons, List.sum_cons, weigh]

theorem length_unionFactors (first reached : Rat) (totals : List Rat) :
    (unionFactors first reached totals).length = totals.length := by
  induction totals generalizing reached with
  | nil => rfl
  | cons t totals ih => rw [unionFactors, List.length_cons, ih, List.length_cons]

theorem unionFactors_bounds {first reached : Rat} {totals : List Rat} (hfirst : 0 < first) (hreached : 0 < reached)
    (htotals : ∀ t ∈ totals, 0 < t) : ∀ c ∈ unionFactors first reached totals, 0 < c ∧ c ≤ first / reached := by
  induction totals generalizing reached with
  | nil => simp [unionFactors]
  | cons t totals ih =>
    have ht := htotals t (by simp)
    have hgrown : reached ≤ reached + first / reached * t := le_add_of_nonneg_right (by positivity)
    rw [unionFactors, List.forall_mem_cons]
    refine ⟨⟨by positivity, le_rfl⟩, fun c hc => ?_⟩
    obtain ⟨hpos, hle⟩ := ih (by positivity) (fun t ht => htotals t (by simp [ht])) c hc
    exact ⟨hpos, hle.trans (div_le_div_of_nonneg_left hfirst.le hreached hgrown)⟩

theorem unionFactors_decreasing {first reached : Rat} {totals : List Rat} (hfirst : 0 < first)
    (hreached : 0 < reached) (htotals : ∀ t ∈ totals, 0 < t) :
    (unionFactors first reached totals).Pairwise (· > ·) := by
  induction totals generalizing reached with
  | nil => exact .nil
  | cons t totals ih =>
    have ht := htotals t (by simp)
    have hlater : ∀ t ∈ totals, 0 < t := fun t ht => htotals t (by simp [ht])
    have hgrown : reached < reached + first / reached * t := lt_add_of_pos_right reached (by positivity)
    refine .cons (fun c hc => ?_) (ih (by positivity) hlater)
    exact (unionFactors_bounds hfirst (by positivity) hlater c hc).2.trans_lt
      (div_lt_div_of_pos_left hfirst hreached hgrown)

/-- What a row of unions has come to: weights in proportion to `pooled`, which sum to `reached`. -/
structure Pooled (first reached : Rat) (pooled : Face → Rat) (d : Distribution Rat) : Prop where
  weight : ∀ f, d.weight f = reached / first * pooled f
  total : d.total = reached / first * reached

theorem Pooled.unite {first reached : Rat} {pooled : Face → Rat} {d : Distribution Rat}
    (h : Pooled first reached pooled d) (hfirst : 0 < first) (hreached : 0 < reached) (e : Distribution Rat) :
    Pooled first (reached + first / reached * e.total) (fun f => pooled f + first / reached * e.weight f)
      (d.unite e) where
  weight := by
    intro f
    rw [weight_unite, h.weight, h.total]
    field_simp
  total := by
    rw [total_unite, h.total]
    field_simp

theorem Pooled.foldl_unite {first reached : Rat} {pooled : Face → Rat} {d : Distribution Rat}
    (h : Pooled first reached pooled d) (hfirst : 0 < first) (hreached : 0 < reached)
    {more : List (Distribution Rat)} (hmore : ∀ e ∈ more, 0 < e.total) :
    Pooled first (reached + weigh (unionFactors first reached (more.map (·.total))) (more.map (·.total)))
      (fun f => pooled f + weigh (unionFactors first reached (more.map (·.total))) (more.map (·.weight f)))
      (more.foldl Distribution.unite d) := by
  -- The first total stays as it is; what is reached and pooled grows with every term.
  induction more generalizing reached pooled d with
  | nil => simpa [unionFactors, weigh_nil] using h
  | cons e more ih =>
    have he := hmore e (by simp)
    have hgrown : 0 < reached + first / reached * e.total := by positivity
    have hnext := ih (h.unite hfirst hreached e) hgrown fun e he => hmore e (by simp [he])
    simpa only [List.map_cons, unionFactors, weigh_cons, List.foldl_cons, add_assoc] using hnext

theorem total_foldl_unite_pos {d : Distribution Rat} (hd : 0 < d.total) {more : List (Distribution Rat)}
    (hmore : ∀ e ∈ more, 0 < e.total) : 0 < (more.foldl unite d).total := by
  induction more generalizing d with
  | nil => exact hd
  | cons e more ih => exact ih (total_unite_pos hd (hmore e (by simp))) fun e he => hmore e (by simp [he])

theorem chance_foldl_unite {d : Distribution Rat} (hd : 0 < d.total) {more : List (Distribution Rat)}
    (hmore : ∀ e ∈ more, 0 < e.total) (f : Face) :
    (more.foldl unite d).chance f =
      (d.weight f + weigh (unionFactors d.total d.total (more.map (·.total))) (more.map (·.weight f))) /
        (d.total + weigh (unionFactors d.total d.total (more.map (·.total))) (more.map (·.total))) := by
  have hself : Pooled d.total d.total d.weight d :=
    ⟨fun f => by rw [div_self hd.ne', one_mul], by rw [div_self hd.ne', one_mul]⟩
  have hall := hself.foldl_unite hd hd hmore
  have hpos := total_foldl_unite_pos hd hmore
  rw [hall.total] at hpos
  have hfactor := left_ne_zero_of_mul hpos.ne'
  rw [chance_eq, hall.weight, hall.total, mul_div_mul_left _ _ hfactor]

end Distribution

namespace Notation
open DiceLaw.Distribution

theorem operate_of_apply {op : Operator} {d e r : Distribution Rat} (h : op.apply d e = .ok r) :
    operate op d e none none = .ok (r.scale (if 0 < d.total then r.total / d.total else 1)) := by
  have houtcome : Part.outcome op ⟨d, e⟩ = r := Part.outcome_eq h
  refine operate_eq_ok.mpr ⟨_, rfl, _, rfl, applyParts_eq_ok.mpr ⟨h.trans (congrArg _ houtcome.symm), ?_⟩⟩
  rw [List.nil_append, List.foldlM_nil, Part.rescaled, houtcome]
  rfl

theorem operate_combine {d e : Distribution Rat} (hd : 0 < d.total) :
    operate .combine d e none none = .ok (d.unite e) := by
  rw [operate_of_apply rfl, if_pos hd, total_combine, add_comm e.total, unite]

/-- A term evaluates to a distribution that weighs something. -/
structure WeighsAs (s : Setting) (text : String) (d : Distribution Rat) : Prop where
  term : ∃ t : Term, t.Derives (Cell.ofText text) []
  evaluates : evaluate s text = .ok d
  total : 0 < d.total

theorem evaluate_foldl_union {s : Setting} {text : String} {d : Distribution Rat} (hd : 0 < d.total)
    (h : evaluate s text = .ok d) {more : List (String × Distribution Rat)} (hmore : ∀ t ∈ more, WeighsAs s t.1 t.2) :
    evaluate s (more.foldl (fun text t => text ++ " & " ++ t.1) text) = .ok ((more.map (·.2)).foldl unite d) := by
  induction more generalizing text d with
  | nil => exact h
  | cons t more ih =>
    have ht := hmore t (by simp)
    refine ih (total_unite_pos hd ht.total) ?_ fun t ht => hmore t (by simp [ht])
    rw [evaluate_append (show ¬ Operator.combine.isUnary from nofun) rfl h ht.term ht.evaluates, operate_combine hd]
    rfl

theorem foldl_append_eq_intercalate (separator text : String) (more : List String) :
    more.foldl (fun text t => text ++ separator ++ t) text = separator.intercalate (text :: more) := by
  induction more generalizing text with
  | nil => rw [List.foldl_nil, String.intercalate_singleton]
  | cons t more ih =>
    rw [List.foldl_cons, ih, String.intercalate_cons_cons, String.intercalate_cons_append]

theorem WeighsAs.exists_of_numeric {s : Setting} {text : String} {f : Face} {total weight : Rat}
    (hne : Cell.ofText text ≠ []) (hnumeric : ∀ c ∈ Cell.ofText text, c.isNumeric) (hpos : 0 < total)
    (h : ((evaluate s text).toOption.map fun d => (d.total, d.weight f)) = some (total, weight)) :
    ∃ d, WeighsAs s text d ∧ d.total = total ∧ d.weight f = weight := by
  obtain ⟨d, hd, hvalues⟩ := Option.map_eq_some_iff.mp h
  obtain ⟨rfl, rfl⟩ := Prod.mk.inj hvalues
  obtain ⟨m, hm, -⟩ := exists_numeral hne hnumeric
  exact ⟨d, ⟨⟨_, .one (.number hm)⟩, toOption_eq_some.mp hd, hpos⟩, rfl, rfl⟩

private theorem exists_three_numbers : ∃ a b c : Distribution Rat,
    (WeighsAs {} "1" a ∧ a.total = 1 ∧ a.weight (.number 3) = 0) ∧
    (WeighsAs {} "2" b ∧ b.total = 1 ∧ b.weight (.number 3) = 0) ∧
    WeighsAs {} "3" c ∧ c.total = 1 ∧ c.weight (.number 3) = 1 := by
  obtain ⟨a, ha⟩ : ∃ d, WeighsAs {} "1" d ∧ d.total = 1 ∧ d.weight (.number 3) = 0 :=
    WeighsAs.exists_of_numeric (by decide +kernel) (by decide +kernel) zero_lt_one (by decide +kernel)
  obtain ⟨b, hb⟩ : ∃ d, WeighsAs {} "2" d ∧ d.total = 1 ∧ d.weight (.number 3) = 0 :=
    WeighsAs.exists_of_numeric (by decide +kernel) (by decide +kernel) zero_lt_one (by decide +kernel)
  obtain ⟨c, hc⟩ : ∃ d, WeighsAs {} "3" d ∧ d.total = 1 ∧ d.weight (.number 3) = 1 :=
    WeighsAs.exists_of_numeric (by decide +kernel) (by decide +kernel) zero_lt_one (by decide +kernel)
  exact ⟨a, b, c, ha, hb, hc⟩

/-- Terms joined by unions evaluate to what the first weighs and what the others weigh with factors of theirs.
That of the second term is one, so that two terms are pooled; from then on the factors fall, each the first total
over what the terms before have come to. -/
theorem evaluate_chained_unions {s : Setting} {first : String} {d : Distribution Rat} (hfirst : WeighsAs s first d)
    {more : List (String × Distribution Rat)} (hmore : ∀ t ∈ more, WeighsAs s t.1 t.2) :
    ∃ r factors, evaluate s (" & ".intercalate (first :: more.map (·.1))) = .ok r ∧
      factors = unionFactors d.total d.total (more.map (·.2.total)) ∧ factors.length = more.length ∧
      (∀ c ∈ factors.head?, c = 1) ∧ (∀ c ∈ factors, 0 < c) ∧ factors.Pairwise (· > ·) ∧
      (∀ f, r.chance f = (d.weight f + weigh factors (more.map (·.2.weight f))) /
        (d.total + weigh factors (more.map (·.2.total)))) ∧
      ∀ e, more.map (·.2) = [e] → ∀ f, r.chance f = (d.weight f + e.weight f) / (d.total + e.total) := by
  have hpos : ∀ e ∈ more.map (·.2), 0 < e.total := List.forall_mem_map.mpr fun t ht => (hmore t ht).total
  have htotals : ∀ c ∈ more.map (·.2.total), 0 < c := List.forall_mem_map.mpr fun t ht => (hmore t ht).total
  have hchance := chance_foldl_unite hfirst.total hpos
  simp only [List.map_map, Function.comp_def] at hchance
  refine ⟨_, _, ?_, rfl, ?_, ?_, ?_, ?_, hchance, ?_⟩
  · rw [← foldl_append_eq_intercalate, List.foldl_map]
    exact evaluate_foldl_union hfirst.total hfirst.evaluates hmore
  · rw [length_unionFactors, List.length_map]
  · cases more with
    | nil => rintro c ⟨⟩
    | cons t more =>
      rintro c ⟨⟩
      exact div_self hfirst.total.ne'
  · exact fun c hc => (unionFactors_bounds hfirst.total hfirst.total htotals c hc).1
  · exact unionFactors_decreasing hfirst.total hfirst.total htotals
  · intro e he f
    have hgrowth : (d.total + e.total) / d.total ≠ 0 :=
      (div_pos (add_pos hfirst.total (hpos e (by simp [he]))) hfirst.total).ne'
    rw [he, List.foldl_cons, List.foldl_nil, chance_eq, weight_unite, total_unite, mul_div_mul_right _ _ hgrowth]

/-- Of three numbers the last comes up one time in five. -/
theorem evaluate_chained_unions_three_numbers :
    ∃ r : Distribution Rat, evaluate {} "1 & 2 & 3" = .ok r ∧ r.chance (.number 3) = 1 / 5 := by
  obtain ⟨a, b, c, ⟨ha, hat, haw⟩, ⟨hb, hbt, hbw⟩, hc, hct, hcw⟩ := exists_three_numbers
  obtain ⟨r, factors, hr, hfactors, -, -, -, -, hchance, -⟩ := evaluate_chained_unions ha
    (show ∀ t ∈ [("2", b), ("3", c)], WeighsAs {} t.1 t.2 by simpa using ⟨hb, hc⟩)
  refine ⟨r, hr, ?_⟩
  rw [hchance, hfactors]
  norm_num [hat, hbt, hct, haw, hbw, hcw, unionFactors, weigh]

/-- Three certain numbers in a row are not pooled, and which comes up how often changes with their order. -/
theorem evaluate_chained_unions_unpooled : ∃ a b c r r' : Distribution Rat,
    WeighsAs {} "1" a ∧ WeighsAs {} "2" b ∧ WeighsAs {} "3" c ∧
    evaluate {} "1 & 2 & 3" = .ok r ∧ evaluate {} "3 & 2 & 1" = .ok r' ∧
    r.chance (.number 3) ≠ (a.weight (.number 3) + b.weight (.number 3) + c.weight (.number 3)) /
      (a.total + b.total + c.total) ∧
    r'.chance (.number 3) ≠ r.chance (.number 3) := by
  obtain ⟨a, b, c, ⟨ha, hat, haw⟩, ⟨hb, hbt, hbw⟩, hc, hct, hcw⟩ := exists_three_numbers
  have hforth : ((evaluate (W := Rat) {} "1 & 2 & 3").toOption.map (·.chance (.number 3))) = some (1 / 5) := by
    decide +kernel
  have hback : ((evaluate (W := Rat) {} "3 & 2 & 1").toOption.map (·.chance (.number 3))) = some (2 / 5) := by
    decide +kernel
  obtain ⟨r, hr, hchance⟩ := Option.map_eq_some_iff.mp hforth
  obtain ⟨r', hr', hchance'⟩ := Option.map_eq_some_iff.mp hback
  refine ⟨a, b, c, r, r', ha, hb, hc, toOption_eq_some.mp hr, toOption_eq_some.mp hr', ?_, ?_⟩
  · rw [hchance, hat, hbt, hct, haw, hbw, hcw]
    norm_num
  · rw [hchance, hchance']
    norm_num

end Notation
end DiceLaw
