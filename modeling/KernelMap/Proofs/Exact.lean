import KernelMap.Proofs.Canonical
import KernelMap.Proofs.Inclusion
import KernelMap.Proofs.Consistent

/-!
# KernelMap.Proofs.Exact

Projections along unit coefficients are exact.

Eliminating a variable with an equality where it has a unit coefficient loses nothing,
because the equality can be solved for it; eliminating it from inequalities loses
nothing if of every lower and upper bound at least one has a unit coefficient, because
then there is an integer between the rounded bounds (`exists_holds_of_eliminate`).  A
projection all of whose steps are of this kind (`UnitRun`) keeps exactly the integer
shadow.

An answer of the engine is read off a polyhedron in one variable, which has a point
unless it is marked infeasible.  From there the variable can grow up to its least bound
(`holds_update_of_leastUpper`).

Main statement: `unit_projection_is_exact`.
-/

namespace KernelMap

/-! ## rounded bounds -/

/-- Finitely many lower bounds and finitely many upper bounds that agree pairwise have a
number between all of them. -/
theorem exists_between {lows ups : List Int} (h : ∀ l ∈ lows, ∀ u ∈ ups, l ≤ u) :
    ∃ x, (∀ l ∈ lows, l ≤ x) ∧ ∀ u ∈ ups, x ≤ u := by
  induction lows with
  | nil =>
      induction ups with
      | nil => exact ⟨0, by simp, by simp⟩
      | cons u ups ih =>
          obtain ⟨x, -, hx⟩ := ih (by simp)
          refine ⟨min u x, by simp, List.forall_mem_cons.mpr ⟨min_le_left .., fun v hv => ?_⟩⟩
          exact (min_le_right ..).trans (hx v hv)
  | cons l lows ih =>
      obtain ⟨hl, hlows⟩ := List.forall_mem_cons.mp h
      obtain ⟨x, hlow, hup⟩ := ih hlows
      refine ⟨max l x, List.forall_mem_cons.mpr ⟨le_max_left .., fun k hk => ?_⟩, fun u hu => ?_⟩
      · exact (hlow k hk).trans (le_max_right ..)
      · exact max_le (hl u hu) (hup u hu)

/-- A lower bound `a·x + k ≥ 0` solved for `x`. -/
theorem nonneg_add_mul_iff {a : Int} (ha : 0 < a) (k x : Int) : 0 ≤ k + a * x ↔ -(k / a) ≤ x := by
  have hround : -x ≤ k / a ↔ -x * a ≤ k := Int.le_ediv_iff_mul_le ha
  constructor
  · intro hle
    have := hround.mpr (by linarith)
    omega
  · intro hle
    have := hround.mp (by omega)
    linarith

/-- An upper bound `a·x + k ≥ 0` solved for `x`. -/
theorem nonneg_add_mul_iff_of_neg {a : Int} (ha : a < 0) (k x : Int) :
    0 ≤ k + a * x ↔ x ≤ k / -a := by
  have hround : x ≤ k / -a ↔ x * -a ≤ k := Int.le_ediv_iff_mul_le (by omega)
  rw [hround]
  constructor
  · intro hle
    linarith
  · intro hle
    linarith

/-- If one of the coefficients is a unit, a lower and an upper bound that agree over the
rationals agree after rounding. -/
theorem rounded_le_of_unit {a b k m : Int} (ha : 0 < a) (hb : b < 0) (hunit : a = 1 ∨ b = -1)
    (h : 0 ≤ -b * k + a * m) : -(k / a) ≤ m / -b := by
  rcases hunit with rfl | rfl
  · rw [← nonneg_add_mul_iff_of_neg hb, Int.ediv_one]
    linarith
  · rw [← nonneg_add_mul_iff ha]
    simp only [neg_neg, Int.ediv_one]
    linarith

namespace Affine

/-- Changing the value of one variable. -/
theorem value_update_add (a : Affine) (v : Nat) (w : Valuation) (x : Int) :
    a.value (Function.update w v x) = a.value (Function.update w v 0) + a.coeff v * x := by
  have hsplit : ∀ u, a.value u = (a.setCoeff v 0).value u + a.coeff v * u v := fun u => by
    rw [value_setCoeff]
    ring
  have hgone : (a.setCoeff v 0).coeff v = 0 := by rw [coeff_setCoeff, if_pos rfl]
  rw [hsplit, hsplit (Function.update w v 0), value_update hgone, value_update hgone,
    Function.update_self, Function.update_self]
  ring

end Affine

namespace Polyhedron

/-! ## one elimination -/

/-- Eliminating `v` meets unit coefficients only: the equality that is used has one, or
there is no equality and of every lower and upper bound at least one has. -/
def UnitIn (s : Polyhedron) (v : Nat) : Prop :=
  match (smallestEquality v 0 s.constraints none : Outcome EngineError (Option (Nat × Int))) with
  | .ok (some (pos, _)) => ∀ e ∈ s.constraints[pos]?, (e.coeff v).natAbs = 1
  | _ => ∀ l ∈ s.constraints, ∀ u ∈ s.constraints, 0 < l.coeff v → u.coeff v < 0 →
      (l.coeff v).natAbs = 1 ∨ (u.coeff v).natAbs = 1

instance (s : Polyhedron) (v : Nat) : Decidable (s.UnitIn v) := by
  unfold UnitIn
  split <;> infer_instance

/-- A system replaced by derived constraints has their points. -/
theorem holds_replaceBy {s t : Polyhedron} {d : Derived} (h : s.replaceBy d = .ok t)
    (w : Valuation) : t.Holds w ↔ s.infeasible = false ∧ d.Holds w := by
  unfold replaceBy at h
  rw [(simplified_of_simplify h).holds]
  simp only [Holds, Derived.Holds, Bool.or_eq_false_iff, List.mem_reverse, and_assoc]

/-- Solving an equality in which the variable has a unit coefficient. -/
theorem exists_holds_of_eliminateWith {s t : Polyhedron} {v pos : Nat} {e : Constraint}
    (hpos : s.constraints[pos]? = some e) (hkind : e.kind = .equality)
    (hunit : (e.coeff v).natAbs = 1) (h : s.eliminateWith v pos = .ok t) {w : Valuation}
    (hw : t.Holds w) : ∃ x, s.Holds (Function.update w v x) := by
  simp only [eliminateWith, hpos, Outcome.bind_eq_ok, Outcome.orFault_eq_ok, Option.some.injEq] at h
  obtain ⟨_, rfl, d, hd, h⟩ := h
  obtain ⟨cs, hd, -, hall⟩ := cancelAll_eq_ok hd
  obtain ⟨hf, hdw⟩ := (holds_replaceBy h w).mp hw
  have hcs : ∀ c ∈ cs, c.Holds w := ((Derived.holds_insertAll hd w).mp hdw).2
  have hne : e.coeff v ≠ 0 := by omega
  have hsquare : e.coeff v * e.coeff v = 1 := by
    rw [← Int.natAbs_mul_self, hunit]
    rfl
  obtain ⟨x, hx⟩ : ∃ x, e.Holds (Function.update w v x) := by
    refine ⟨-(e.coeff v * e.expr.value (Function.update w v 0)), ?_⟩
    rw [Constraint.holds_of_kind_eq hkind, Affine.value_update_add, ← Constraint.coeff, mul_neg,
      ← mul_assoc, hsquare]
    ring
  refine ⟨x, hf, fun c hc => ?_⟩
  obtain ⟨i, hi, rfl⟩ := List.getElem_of_mem hc
  by_cases hip : i = pos
  · have he : s.constraints[i] = e := by
      rw [← Option.some.injEq, ← List.getElem?_eq_getElem hi, hip, hpos]
    rw [he]
    exact hx
  · -- the other constraints hold where the equality and their reduced forms do
    have hrest : s.constraints[i] ∈ s.constraints.eraseIdx pos :=
      List.mem_eraseIdx_iff_getElem.mpr ⟨i, hi, hip, rfl⟩
    obtain ⟨c', hc', hcancel⟩ := hall _ hrest
    obtain ⟨hholds, hgone, -, -⟩ := cancel_eq_ok hkind hne hcancel
    rw [← hholds _ hx, Constraint.Holds, Affine.value_update hgone]
    exact hcs c' hc'

/-- Choosing an integer between the rounded bounds of the variable. -/
theorem exists_holds_of_pairs {s : Polyhedron} {v : Nat} {w : Valuation} (hf : s.infeasible = false)
    (hkind : ∀ c ∈ s.constraints, c.coeff v ≠ 0 → c.kind = .inequality)
    (hother : ∀ c ∈ s.constraints, c.coeff v = 0 → c.Holds w)
    (hunit : ∀ l ∈ s.constraints, ∀ u ∈ s.constraints, 0 < l.coeff v → u.coeff v < 0 →
      (l.coeff v).natAbs = 1 ∨ (u.coeff v).natAbs = 1)
    (hpair : ∀ l ∈ s.constraints, ∀ u ∈ s.constraints, 0 < l.coeff v → u.coeff v < 0 →
      0 ≤ -u.coeff v * l.expr.value (Function.update w v 0) + l.coeff v * u.expr.value
      (Function.update w v 0)) :
    ∃ x, s.Holds (Function.update w v x) := by
  let rest (c : Constraint) : Int := c.expr.value (Function.update w v 0)
  let lower := s.constraints.filter fun c => decide (0 < c.coeff v)
  let upper := s.constraints.filter fun c => decide (c.coeff v < 0)
  have hmeet : ∀ l ∈ lower.map fun l => -(rest l / l.coeff v), ∀ u ∈ upper.map fun u =>
      rest u / -u.coeff v, l ≤ u := by
    intro b hb b' hb'
    obtain ⟨l, hl, rfl⟩ := List.mem_map.mp hb
    obtain ⟨u, hu, rfl⟩ := List.mem_map.mp hb'
    obtain ⟨hl, hlv⟩ := List.mem_filter.mp hl
    obtain ⟨hu, huv⟩ := List.mem_filter.mp hu
    rw [decide_eq_true_eq] at hlv huv
    have hone := hunit l hl u hu hlv huv
    exact rounded_le_of_unit hlv huv (by omega) (hpair l hl u hu hlv huv)
  obtain ⟨x, hlow, hup⟩ := exists_between hmeet
  refine ⟨x, hf, fun c hc => ?_⟩
  have hvalue : c.expr.value (Function.update w v x) = rest c + c.coeff v * x :=
    Affine.value_update_add c.expr v w x
  rcases lt_trichotomy (c.coeff v) 0 with hneg | hzero | hpos
  · rw [Constraint.holds_of_kind_ge (hkind c hc (by omega)), hvalue, nonneg_add_mul_iff_of_neg hneg]
    exact hup _ (List.mem_map_of_mem (List.mem_filter.mpr ⟨hc, by simpa using hneg⟩))
  · rw [Constraint.Holds, Affine.value_update hzero]
    exact hother c hc hzero
  · rw [Constraint.holds_of_kind_ge (hkind c hc (by omega)), hvalue, nonneg_add_mul_iff hpos]
    exact hlow _ (List.mem_map_of_mem (List.mem_filter.mpr ⟨hc, by simpa using hpos⟩))

/-- An elimination that meets unit coefficients only keeps no more than the integer
shadow. -/
theorem exists_holds_of_eliminate {s t : Polyhedron} {v : Nat} (hunit : s.UnitIn v)
    (h : s.eliminate v = .ok t) {w : Valuation} (hw : t.Holds w) :
    ∃ x, s.Holds (Function.update w v x) := by
  simp only [eliminate, Outcome.bind_eq_ok] at h
  obtain ⟨best, hbest, h⟩ := h
  unfold UnitIn at hunit
  rw [hbest] at hunit
  cases best with
  | some p =>
      obtain ⟨pos, size⟩ := p
      obtain ⟨j, e, hj, he, hkind, -⟩ :=
        ((smallestEquality_eq_ok hbest).1 (pos, size) rfl).resolve_left (by simp)
      obtain rfl : pos = j := by simpa using hj
      exact exists_holds_of_eliminateWith he hkind (hunit e he) h hw
  | none =>
      have hfree := ((smallestEquality_eq_ok hbest).2 rfl).2
      have hkind : ∀ c ∈ s.constraints, c.coeff v ≠ 0 → c.kind = .inequality := by
        intro c hc hv
        cases hk : c.kind with
        | equality => exact absurd (hfree c hc hk) hv
        | inequality => rfl
      simp only [Outcome.bind_eq_ok] at h
      obtain ⟨d₁, hd₁, d, hd, h⟩ := h
      obtain ⟨pairs, hd, -, hall⟩ := pairAll_eq_ok hd
      obtain ⟨hf, hdw⟩ := (holds_replaceBy h w).mp hw
      rw [Derived.holds_insertAll hd, Derived.holds_insertAll hd₁] at hdw
      obtain ⟨⟨-, hother⟩, hpairs⟩ := hdw
      refine exists_holds_of_pairs hf hkind (fun c hc hv => hother c (by simp [hc, hv])) hunit ?_
      intro l hl u hu hlv huv
      obtain ⟨c, hc, hcombine⟩ := hall l (by simp [hl, hlv]) u (by simp [hu, huv])
      obtain ⟨hckind, hcoeff, hval, -⟩ := Constraint.combine_eq_ok hcombine
      have hgone : c.expr.coeff v = 0 := by
        rw [← Constraint.coeff, hcoeff]
        ring
      have hcw := hpairs c hc
      rw [Constraint.holds_of_kind_ge (hckind.trans (hkind l hl (by omega))),
        ← Affine.value_update hgone w 0, hval] at hcw
      exact hcw

/-! ## whole projections -/

/-- The eliminations of a projection in `n` rounds: each polyhedron with the variable
that is eliminated from it. -/
def eliminations : Nat → List Nat → Polyhedron → List (Polyhedron × Nat)
  | 0, _, _ => []
  | n + 1, vars, s =>
    match s.nextVar? vars with
    | .ok (some (v, left)) =>
      match s.eliminate v with
      | .ok t => (s, v) :: eliminations n left t
      | .error _ => [(s, v)]
    | _ => []

/-- The eliminations of `s.project vars`. -/
def steps (s : Polyhedron) (vars : List Nat) : List (Polyhedron × Nat) :=
  match s.simplify with
  | .ok t => eliminations vars.length vars t
  | .error _ => []

/-- Every elimination of `s.project vars` meets unit coefficients only. -/
def UnitRun (s : Polyhedron) (vars : List Nat) : Prop := ∀ step ∈ s.steps vars, step.1.UnitIn step.2

instance (s : Polyhedron) (vars : List Nat) : Decidable (s.UnitRun vars) :=
  inferInstanceAs (Decidable (∀ _ ∈ _, _))

/-- Along a projection that meets unit coefficients only, every point of the result
extends to a point of the polyhedron. -/
theorem exists_holds_of_projectRounds {n : Nat} {vars : List Nat} {s t : Polyhedron}
    (hunit : ∀ step ∈ eliminations n vars s, step.1.UnitIn step.2)
    (h : projectRounds n vars s = .ok t) {w : Valuation} (hw : t.Holds w) :
    ∃ w', (∀ v, v ∉ vars → w' v = w v) ∧ s.Holds w' := by
  -- a point of a later round extends to one of the first
  let Extends (u : Polyhedron) : Prop :=
    ∀ w, u.Holds w → ∃ w', (∀ v, v ∉ vars → w' v = w v) ∧ s.Holds w'
  refine projectRounds_induction (Q := Extends) (P := fun n left u =>
    (∀ step ∈ eliminations n left u, step.1.UnitIn step.2) ∧ left ⊆ vars ∧ Extends u)
    (fun _ _ hu => hu.2.2) (fun _ _ _ _ hu => hu.2.2) (fun n left u v left' u' hnext hu' hu => ?_)
    ⟨hunit, List.Subset.refl vars, fun w hw => ⟨w, fun _ _ => rfl, hw⟩⟩ h w hw
  obtain ⟨hunit, hsub, hextends⟩ := hu
  obtain ⟨hpick, hleft⟩ := mem_of_nextVar? hnext
  simp only [eliminations, hnext, hu', List.forall_mem_cons] at hunit
  refine ⟨hunit.2, fun i hi => hsub (hleft hi), fun w hw => ?_⟩
  obtain ⟨x, hx⟩ := exists_holds_of_eliminate hunit.1 hu' hw
  obtain ⟨w', hagree, hw'⟩ := hextends _ hx
  refine ⟨w', fun i hi => ?_, hw'⟩
  have hiv : i ≠ v := fun heq => hi (heq ▸ hsub hpick)
  rw [hagree i hi, Function.update_of_ne hiv]

/-- A projection that meets unit coefficients only keeps no more than the integer
shadow. -/
theorem exists_holds_of_project {s t : Polyhedron} {vars : List Nat} (hunit : s.UnitRun vars)
    (h : s.project vars = .ok t) {w : Valuation} (hw : t.Holds w) :
    ∃ w', (∀ v, v ∉ vars → w' v = w v) ∧ s.Holds w' := by
  simp only [project, Outcome.bind_eq_ok] at h
  obtain ⟨u, hu, h⟩ := h
  unfold UnitRun steps at hunit
  rw [hu] at hunit
  obtain ⟨w', hagree, hw'⟩ := exists_holds_of_projectRounds hunit h hw
  exact ⟨w', hagree, ((simplified_of_simplify hu).holds w').mp hw'⟩

/-- What is left of a polyhedron does not depend on the variables projected out. -/
theorem Projects.holds_of_agree {s t : Polyhedron} {vars : List Nat} (h : Projects s vars t)
    {w w' : Valuation} (hsame : ∀ v, v ∉ vars → w' v = w v) (hw' : s.Holds w') : t.Holds w := by
  refine (holds_congr fun v hinv => ?_).mp (h.sound w' hw')
  by_cases hv : v ∈ vars
  · rw [h.clears v hv] at hinv
    cases hinv
  · exact hsame v hv

/-! ## optima -/

/-- A constraint on `k` alone goes on holding while `k` grows up to its bound. -/
theorem holds_of_le_upperBound? {k : Nat} {c : Constraint} {r : Option Int}
    (h : upperBound? k c = .ok r) (honly : ∀ i, i ≠ k → c.coeff i = 0) {w : Valuation}
    (hw : c.Holds w) {x : Int} (hx : w k ≤ x) (hle : ∀ b, r = some b → x ≤ b) :
    c.Holds (Function.update w k x) := by
  have hvalue : ∀ u, c.expr.value u = c.coeff k * u k + c.constant := Affine.value_of_single honly
  unfold upperBound? at h
  dsimp only at h
  split at h
  · next hkind =>
    rw [Constraint.holds_of_kind_eq hkind, hvalue] at hw
    rw [Constraint.holds_of_kind_eq hkind, hvalue, Function.update_self]
    split at h
    · next hzero => rw [← hw, hzero, zero_mul, zero_mul]
    · -- the bound of an equality is the value itself
      simp only [Outcome.bind_eq_ok, Outcome.orOverflow_eq_ok, Outcome.orFault_eq_ok,
        Word.neg?_eq_some, Word.floorDiv?_eq_some, Outcome.pure_eq_ok] at h
      obtain ⟨_, ⟨-, rfl⟩, _, ⟨ha, -, rfl⟩, rfl⟩ := h
      have hmul : -c.constant = c.coeff k * w k := by omega
      have hup := hle _ rfl
      rw [hmul, Int.mul_fdiv_cancel_left _ ha] at hup
      rw [le_antisymm hup hx]
      exact hw
  · next hkind =>
    rw [Constraint.holds_of_kind_ge hkind, hvalue] at hw
    rw [Constraint.holds_of_kind_ge hkind, hvalue, Function.update_self, add_comm]
    split at h
    · next hneg =>
      simp only [Outcome.bind_eq_ok, Outcome.orOverflow_eq_ok, Outcome.orFault_eq_ok,
        Word.neg?_eq_some, Word.floorDiv?_eq_some, Outcome.pure_eq_ok] at h
      obtain ⟨_, ⟨-, rfl⟩, _, ⟨-, -, rfl⟩, rfl⟩ := h
      have hup := hle _ rfl
      rw [Int.fdiv_eq_ediv_of_nonneg _ (by omega)] at hup
      exact (nonneg_add_mul_iff_of_neg hneg _ _).mpr hup
    · next hnonneg =>
      have hgrow : c.coeff k * w k ≤ c.coeff k * x := mul_le_mul_of_nonneg_left hx (by omega)
      omega

/-- The least bound is below all of them. -/
theorem leastUpper_le {k : Nat} {cs : List Constraint} {best r : Option Int}
    (h : leastUpper k cs best = .ok r) : (∀ x, best = some x → ∃ b, r = some b ∧ b ≤ x) ∧
      ∀ c ∈ cs, ∃ q, upperBound? k c = .ok q ∧ ∀ x, q = some x → ∃ b, r = some b ∧ b ≤ x := by
  induction cs generalizing best with
  | nil =>
      simp only [leastUpper, Except.ok.injEq] at h
      subst h
      exact ⟨fun x hx => ⟨x, hx, le_rfl⟩, by simp⟩
  | cons c cs ih =>
      simp only [leastUpper, Outcome.bind_eq_ok] at h
      obtain ⟨q, hq, h⟩ := h
      cases q with
      | none =>
          obtain ⟨hbest, hrest⟩ := ih h
          exact ⟨hbest, List.forall_mem_cons.mpr ⟨⟨none, hq, by simp⟩, hrest⟩⟩
      | some y =>
          obtain ⟨hbest, hrest⟩ := ih h
          obtain ⟨b, rfl, hb⟩ := hbest _ rfl
          refine ⟨fun x hx => ⟨b, rfl, ?_⟩,
            List.forall_mem_cons.mpr ⟨⟨some y, hq, fun x hx => ⟨b, rfl, ?_⟩⟩, hrest⟩⟩
          · rw [hx, Option.elim_some] at hb
            exact hb.trans (min_le_left ..)
          · obtain rfl := Option.some.inj hx
            cases best with
            | none => exact hb
            | some z => exact hb.trans (min_le_right ..)

/-- From a point of constraints in one variable that variable can grow up to the least
bound. -/
theorem holds_update_of_leastUpper {s : Polyhedron} {k : Nat} {r : Option Int}
    (h : leastUpper k s.constraints none = .ok r) (honly : ∀ i, i ≠ k → s.involves i = false)
    {w : Valuation} (hw : s.Holds w) {x : Int} (hx : w k ≤ x) (hle : ∀ b, r = some b → x ≤ b) :
    s.Holds (Function.update w k x) := by
  refine ⟨hw.1, fun c hc => ?_⟩
  obtain ⟨q, hq, hbound⟩ := (leastUpper_le h).2 c hc
  refine holds_of_le_upperBound? hq (fun i hi => involves_eq_false.mp (honly i hi) c hc)
    (hw.2 c hc) hx fun y hy => ?_
  obtain ⟨b, hb, hby⟩ := hbound y hy
  exact (hle b hb).trans hby

theorem Built.withObjective {s u : Polyhedron} {a : Affine} (hs : s.Built)
    (h : s.withObjective a = .ok u) : u.Built := by
  obtain ⟨t, cs, ht, h, -, -⟩ := withObjective_eq_ok h
  exact (hs.apply (.addVars 1) ht).apply (.add _) h

/-- Variables that a form does not see may be set to zero. -/
theorem value_of_zero_from {a : Affine} {n : Nat} {w : Valuation} (hw : ∀ i, n ≤ i → w i = 0) :
    a.value w = Coeffs.dot (a.coeffs.take n) w + a.constant := by
  have hrest : Coeffs.dot (a.coeffs.drop n) (fun i => w ((a.coeffs.take n).length + i)) = 0 := by
    by_cases hn : n ≤ a.coeffs.length
    · have hshift : (fun i => w ((a.coeffs.take n).length + i)) = fun _ => (0 : Int) := by
        funext i
        rw [List.length_take, min_eq_left hn, hw _ (by omega)]
      rw [hshift, Coeffs.dot_zero]
    · rw [List.drop_eq_nil_of_le (by omega), Coeffs.dot_nil]
  rw [Affine.value, ← List.take_append_drop n a.coeffs, Coeffs.dot_append, hrest, add_zero,
    List.take_append_drop n a.coeffs]

/-- A point of the projection on the objective comes from a point where the objective
has that value. -/
theorem exists_holds_of_objective {s u p : Polyhedron} {a : Affine} (hs : s.WellFormed)
    (hu : s.withObjective a = .ok u) (hunit : u.UnitRun (List.range s.nVars))
    (hp : u.project (List.range s.nVars) = .ok p) {w : Valuation} (hw : p.Holds w) :
    ∃ w', s.Holds w' ∧ a.value w' = w s.nVars := by
  obtain ⟨w₁, hagree, hw₁⟩ := exists_holds_of_project hunit hp hw
  obtain ⟨hsw, hlast⟩ := (holds_withObjective hu w₁).mp hw₁
  let w' : Valuation := fun i => if i < s.nVars then w₁ i else 0
  have hsame : ∀ i, i < s.nVars → w' i = w₁ i := fun i hi => if_pos hi
  refine ⟨w', (holds_congr fun v hv => ?_).mp hsw, ?_⟩
  · by_cases hlt : v < s.nVars
    · exact (hsame v hlt).symm
    · simp [hs.involves_eq_false (Nat.le_of_not_lt hlt)] at hv
  · have hdot : Coeffs.dot (a.coeffs.take s.nVars) w' = Coeffs.dot (a.coeffs.take s.nVars) w₁ :=
      Coeffs.dot_congr fun i hi => hsame i (by
        by_contra hge
        exact hi (Coeffs.get_of_length_le (by rw [List.length_take]; omega)))
    rw [value_of_zero_from (n := s.nVars) (w := w') (fun i hi => if_neg (by omega)), hdot, ← hlast,
      hagree _ (by simp)]

/-- The projection on the objective has a point, unless it is marked infeasible. -/
theorem exists_holds_of_feasible {s u p : Polyhedron} {a : Affine} (hs : s.Built)
    (hu : s.withObjective a = .ok u) (hp : u.project (List.range s.nVars) = .ok p)
    (hf : p.infeasible = false) : (∀ i, i ≠ s.nVars → p.involves i = false) ∧ ∃ w, p.Holds w := by
  have hbuilt := hs.withObjective hu
  have honly := involves_of_objective hs.canonical.wellFormed hu hp
  have hwf := (projects_project hbuilt.canonical.wellFormed hp).wellFormed
    hbuilt.canonical.wellFormed
  exact ⟨honly, (hbuilt.canonical.normalized.project hp).exists_holds hwf hf honly⟩

/-- The answers to an optimization whose projection is exact: an optimum is attained, and
an objective without one is unbounded. -/
theorem exists_value_of_maximize {s : Polyhedron} {a : Affine} {r : Optimum} (hs : s.Built)
    (hunit : ∀ u, s.withObjective a = .ok u → u.UnitRun (List.range s.nVars))
    (h : s.maximize a = .ok r) : r = .empty ∨ (∃ v, r = .value v ∧ ∃ w, s.Holds w ∧ a.value w = v) ∨
      (r = .unbounded ∧ ∀ b, ∃ w, s.Holds w ∧ b ≤ a.value w) := by
  rcases maximize_cases h with ⟨-, hempty⟩ | ⟨u, p, hu, hp, ⟨-, hempty⟩ | ⟨hf, best, hbest, hr⟩⟩
  · exact Or.inl hempty
  · exact Or.inl hempty
  obtain ⟨honly, w, hw⟩ := exists_holds_of_feasible hs hu hp hf
  have hback : ∀ x, p.Holds (Function.update w s.nVars x) → ∃ w', s.Holds w' ∧ a.value w' = x := by
    intro x hx
    have hback := exists_holds_of_objective hs.canonical.wellFormed hu (hunit u hu) hp hx
    rwa [Function.update_self] at hback
  cases best with
  | some v =>
      have hle : w s.nVars ≤ v :=
        le_of_leastUpper hbest (fun c hc i hi => involves_eq_false.mp (honly i hi) c hc)
          hw.2 (by simp)
      refine Or.inr (Or.inl ⟨v, hr, hback v ?_⟩)
      exact holds_update_of_leastUpper hbest honly hw hle fun b hb => (Option.some.inj hb).le
  | none =>
      refine Or.inr (Or.inr ⟨hr, fun b => ?_⟩)
      obtain ⟨w', hw', hvalue⟩ := hback (max b (w s.nVars))
        (holds_update_of_leastUpper hbest honly hw (le_max_right ..) fun _ hb => by cases hb)
      exact ⟨w', hw', hvalue ▸ le_max_left ..⟩

/-- A polyhedron that is not empty after an exact projection of all variables has a
point. -/
theorem exists_holds_of_isEmpty {s : Polyhedron} (hs : s.Built)
    (hunit : s.UnitRun (List.range s.nVars)) (h : s.isEmpty = .ok false) : ∃ w, s.Holds w := by
  unfold isEmpty at h
  split at h
  · simp at h
  split at h
  · simp at h
  simp only [Outcome.bind_eq_ok, Outcome.pure_eq_ok] at h
  obtain ⟨p, hp, hf⟩ := h
  have hproj := projects_project hs.canonical.wellFormed hp
  have hnone : ∀ i, p.involves i = false := by
    intro i
    by_cases hlt : i < s.nVars
    · exact hproj.clears i (by simpa using hlt)
    · exact (hproj.wellFormed hs.canonical.wellFormed).involves_eq_false
        (by rw [hproj.nVars]; omega)
  -- a normal constraint has a variable, so that none is left
  have hpoint : p.Holds fun _ => 0 := by
    refine ⟨hf, fun c hc => ?_⟩
    obtain ⟨i, hi⟩ :=
      ((hs.canonical.normalized.project hp).normalized c hc).primitive.exists_get_ne_zero
    exact absurd (involves_eq_false.mp (hnone i) c hc) hi
  obtain ⟨w, -, hw⟩ := exists_holds_of_project hunit hp hpoint
  exact ⟨w, hw⟩

/-- A projection that meets unit coefficients only keeps exactly the integer shadow.
Along such projections an optimum is attained, an objective without one is unbounded,
and a polyhedron that is not reported empty has a point. -/
theorem unit_projection_is_exact {s : Polyhedron} (hs : s.Built) :
    (∀ (vars : List Nat) (t : Polyhedron), s.UnitRun vars → s.project vars = .ok t →
      ∀ w, t.Holds w ↔ ∃ w' : Valuation, (∀ v, v ∉ vars → w' v = w v) ∧ s.Holds w') ∧
    (∀ a : Affine, (∀ u, s.withObjective a = .ok u → u.UnitRun (List.range s.nVars)) →
      (∀ v, s.maximize a = .ok (.value v) → ∃ w, s.Holds w ∧ a.value w = v) ∧
      (s.maximize a = .ok .unbounded → ∀ b, ∃ w, s.Holds w ∧ b ≤ a.value w)) ∧
    (s.UnitRun (List.range s.nVars) → s.isEmpty = .ok false → ∃ w, s.Holds w) := by
  refine ⟨fun vars t hunit h w => ⟨exists_holds_of_project hunit h, ?_⟩,
    fun a hunit => ⟨fun v h => ?_, fun h => ?_⟩, exists_holds_of_isEmpty hs⟩
  · rintro ⟨w', hsame, hw'⟩
    exact (projects_project hs.canonical.wellFormed h).holds_of_agree hsame hw'
  · rcases exists_value_of_maximize hs hunit h with hr | ⟨v', hr, hattained⟩ | ⟨hr, -⟩
    · cases hr
    · cases hr
      exact hattained
    · cases hr
  · rcases exists_value_of_maximize hs hunit h with hr | ⟨v', hr, -⟩ | ⟨-, hlarge⟩
    · cases hr
    · cases hr
    · exact hlarge

/-- The points `x₀ = x₁ + x₂` with `1 ≤ x₁`, `2·x₂ ≤ x₁` and `-3 ≤ x₂`. -/
def wedge : Polyhedron :=
  ⟨3, [.eq ⟨[1, -1, -1], 0⟩, .ge ⟨[0, 1, 0], -1⟩, .ge ⟨[0, 1, -2], 0⟩, .ge ⟨[0, 0, 1], 3⟩], false⟩

/-- Its shadow without `x₂` is exact although `x₂` has coefficient `-2` in one bound; the
least value `-2` of `x₀` is attained, and `x₁` grows without limit. -/
theorem wedge_shadow :
    wedge.Built ∧
      (∀ w, Holds ⟨3, [.ge ⟨[0, 1, 0], -1⟩, .ge ⟨[-2, 3, 0], 0⟩, .ge ⟨[1, -1, 0], 3⟩], false⟩ w ↔
        ∃ w' : Valuation, (∀ v, v ∉ [2] → w' v = w v) ∧ wedge.Holds w') ∧
      (∃ w, wedge.Holds w ∧ w 0 = -2) ∧ (∀ b, ∃ w, wedge.Holds w ∧ b ≤ w 1) ∧ ∃ w,
        wedge.Holds w := by
  have hbuilt : wedge.Built := by
    have hadd : ((empty 3).addAll wedge.constraints : Outcome EngineError Polyhedron) =
        .ok wedge := by decide +kernel
    exact addAll_induction (fun hs h => hs.apply (.add _) h) (built_empty 3) hadd
  have hproject : wedge.project [2] =
      .ok ⟨3, [.ge ⟨[0, 1, 0], -1⟩, .ge ⟨[-2, 3, 0], 0⟩, .ge ⟨[1, -1, 0], 3⟩], false⟩ := by
    decide +kernel
  have hleast : wedge.maximize (.term 0 (-1)) = .ok (.value 2) := by decide +kernel
  have hlarge : wedge.maximize (.var 1) = .ok .unbounded := by decide +kernel
  have hunits : ∀ a ∈ [Affine.term 0 (-1), .var 1], ∀ u ∈ (wedge.withObjective a).toOption,
      u.UnitRun (List.range wedge.nVars) := by decide +kernel
  have hunit : ∀ a ∈ [Affine.term 0 (-1), .var 1], ∀ u, wedge.withObjective a = .ok u →
      u.UnitRun (List.range wedge.nVars) := fun a ha u hu => hunits a ha u (by rw [hu]; rfl)
  obtain ⟨hshadow, hoptimum, hpoint⟩ := unit_projection_is_exact hbuilt
  refine ⟨hbuilt, hshadow [2] _ (by decide +kernel) hproject, ?_, ?_,
    hpoint (by decide +kernel) (by decide +kernel)⟩
  · obtain ⟨w, hw, hvalue⟩ := (hoptimum _ (hunit _ (by simp))).1 2 hleast
    rw [Affine.value_term] at hvalue
    exact ⟨w, hw, by omega⟩
  · intro b
    obtain ⟨w, hw, hvalue⟩ := (hoptimum _ (hunit _ (by simp))).2 hlarge b
    rw [Affine.value_var] at hvalue
    exact ⟨w, hw, hvalue⟩

end Polyhedron

end KernelMap
