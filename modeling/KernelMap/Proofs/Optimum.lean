import KernelMap.Polyhedron.Optimum
import KernelMap.Proofs.Project
import Mathlib.Logic.Function.Basic

/-!
# KernelMap.Proofs.Optimum

The answers of the constraint engine are bounds on all integer points.

* `not_holds_of_isEmpty` — a polyhedron reported empty has no integer point;
* `value_le_of_maximize`, `le_value_of_minimize` — an optimum bounds the form at
  every integer point;
* `not_holds_of_maximize`, `not_holds_of_minimize` — the answer "empty" is only
  given if there is none.
-/

namespace KernelMap

theorem Coeffs.dot_of_negate? {cs ds : List Int} (h : negate? cs = some ds) (w : Valuation) :
    dot ds w = -dot cs w := by
  have hneg : ∀ x z, Word.neg? x = some z → z = -1 * x := by
    intro x z hz
    have hz := (Word.neg?_eq_some.mp hz).2
    omega
  have hlin : dot ds w = -1 * dot cs w + 0 * dot [] w :=
    dot_linear (fun i => by rw [get_of_map? hneg h i, get_nil]; ring) w
  rw [hlin]
  ring

/-! ## forms in one variable -/

namespace Affine

/-- The value of a form with one variable. -/
theorem value_of_single {a : Affine} {t : Nat} (h : ∀ i, i ≠ t → a.coeff i = 0) (w : Valuation) :
    a.value w = a.coeff t * w t + a.constant := by
  have hzero : ∀ j, j ≠ t → Coeffs.get a.coeffs j = Coeffs.get [] j := h
  rw [value, Coeffs.dot_change hzero w]
  simp [coeff_eq]

/-- A variable that does not occur may have any value. -/
theorem value_update {a : Affine} {t : Nat} (h : a.coeff t = 0) (w : Valuation) (x : Int) :
    a.value (Function.update w t x) = a.value w := by
  refine value_congr fun i hi => Function.update_of_ne (fun hit => ?_) _ _
  exact hi (hit ▸ h)

end Affine

namespace Polyhedron

/-- A variable that a system does not involve can have any value. -/
theorem holds_update {s : Polyhedron} {t : Nat} (h : s.involves t = false)
    (w : Valuation) (x : Int) : s.Holds (Function.update w t x) ↔ s.Holds w := by
  refine holds_congr fun v hv => Function.update_of_ne (fun hvt => ?_) _ _
  simp [← hvt, hv] at h

/-! ## emptiness -/

/-- A system that is found empty has no points. -/
theorem not_holds_of_isEmpty {s : Polyhedron} (hs : s.WellFormed) (h : s.isEmpty = .ok true)
    (w : Valuation) : ¬ s.Holds w := by
  unfold isEmpty at h
  split at h
  · next hinf => exact not_holds_of_infeasible hinf w
  split at h
  · simp at h
  · simp only [Outcome.bind_eq_ok, Outcome.pure_eq_ok] at h
    obtain ⟨t, ht, hinf⟩ := h
    exact fun hw => not_holds_of_infeasible hinf w ((projects_project hs ht).sound w hw)

/-- A form that can be non-negative in none of the polyhedra is negative at all their points. -/
theorem neg_of_allM_isEmpty {ss : List Polyhedron} {e : Affine} (hss : ∀ s ∈ ss, s.WellFormed)
    (h : (ss.allM fun s => do (← s.add (.ge e)).isEmpty) = .ok true) :
    ∀ s ∈ ss, ∀ w, s.Holds w → e.value w < 0 := by
  intro s hs w hw
  have hcheck := Outcome.eq_ok_of_allM h s hs
  simp only [Outcome.bind_eq_ok] at hcheck
  obtain ⟨t, ht, hempty⟩ := hcheck
  by_contra hneg
  refine not_holds_of_isEmpty ((hss s hs).add ht) hempty w ((holds_add ht w).mpr ⟨hw, ?_⟩)
  rw [Constraint.holds_ge]
  omega

/-! ## bounds on one variable -/

/-- A constraint on `t` alone bounds `t` from above as computed. -/
theorem le_of_upperBound? {t : Nat} {c : Constraint} {b : Int} (h : upperBound? t c = .ok (some b))
    (honly : ∀ i, i ≠ t → c.coeff i = 0) {w : Valuation} (hw : c.Holds w) : w t ≤ b := by
  have hval : c.expr.value w = c.coeff t * w t + c.constant := Affine.value_of_single honly w
  unfold upperBound? at h
  dsimp only at h
  split at h
  · next hkind =>
    rw [Constraint.holds_of_kind_eq hkind, hval] at hw
    split at h
    · simp at h
    · simp only [Outcome.bind_eq_ok, Outcome.orOverflow_eq_ok, Outcome.orFault_eq_ok,
        Word.neg?_eq_some, Word.floorDiv?_eq_some, Outcome.pure_eq_ok, Option.some.injEq] at h
      obtain ⟨_, ⟨-, rfl⟩, _, ⟨ha, -, rfl⟩, rfl⟩ := h
      have hmul : -c.constant = c.coeff t * w t := by omega
      rw [hmul, Int.mul_fdiv_cancel_left _ ha]
  · next hkind =>
    rw [Constraint.holds_of_kind_ge hkind, hval] at hw
    split at h
    · next hneg =>
      simp only [Outcome.bind_eq_ok, Outcome.orOverflow_eq_ok, Outcome.orFault_eq_ok,
        Word.neg?_eq_some, Word.floorDiv?_eq_some, Outcome.pure_eq_ok, Option.some.injEq] at h
      obtain ⟨_, ⟨-, rfl⟩, _, ⟨-, -, rfl⟩, rfl⟩ := h
      have hpos : 0 < -c.coeff t := by omega
      rw [Int.fdiv_eq_ediv_of_nonneg _ hpos.le, Int.le_ediv_iff_mul_le hpos]
      linarith
    · simp at h

/-- The least upper bound read off the constraints bounds the variable. -/
theorem le_of_leastUpper {t : Nat} {cs : List Constraint} {best : Option Int} {b : Int}
    (h : leastUpper t cs best = .ok (some b)) (honly : ∀ c ∈ cs, ∀ i, i ≠ t → c.coeff i = 0)
    {w : Valuation} (hw : ∀ c ∈ cs, c.Holds w) (hbest : ∀ x, best = some x → w t ≤ x) :
    w t ≤ b := by
  induction cs generalizing best with
  | nil =>
      simp only [leastUpper, Except.ok.injEq] at h
      exact hbest b h
  | cons c cs ih =>
      obtain ⟨honly₁, honly⟩ := List.forall_mem_cons.mp honly
      obtain ⟨hw₁, hw⟩ := List.forall_mem_cons.mp hw
      simp only [leastUpper, Outcome.bind_eq_ok] at h
      obtain ⟨r, hr, h⟩ := h
      cases r with
      | none => exact ih h honly hw hbest
      | some x =>
          refine ih h honly hw fun y hy => ?_
          have hx := le_of_upperBound? hr honly₁ hw₁
          cases best with
          | none =>
              simp only [Option.elim_none, Option.some.injEq] at hy
              exact hy ▸ hx
          | some z =>
              simp only [Option.elim_some, Option.some.injEq] at hy
              exact hy ▸ le_min (hbest z rfl) hx

/-- A least upper bound is a word. -/
theorem fits_of_leastUpper {t : Nat} {cs : List Constraint} {best : Option Int} {b : Int}
    (h : leastUpper t cs best = .ok (some b)) (hbest : ∀ x, best = some x → Word.fits x = true) :
    Word.fits b = true := by
  induction cs generalizing best with
  | nil =>
      simp only [leastUpper, Except.ok.injEq] at h
      exact hbest b h
  | cons c cs ih =>
      simp only [leastUpper, Outcome.bind_eq_ok] at h
      obtain ⟨r, hr, h⟩ := h
      cases r with
      | none => exact ih h hbest
      | some x =>
          have hx : Word.fits x = true := by
            unfold upperBound? at hr
            dsimp only at hr
            split at hr <;> split at hr <;>
              simp only [Outcome.bind_eq_ok, Outcome.orFault_eq_ok, Word.floorDiv?_eq_some,
                Outcome.pure_eq_ok, Option.some.injEq, Except.ok.injEq, reduceCtorEq] at hr <;>
              obtain ⟨_, -, _, ⟨-, hfits, rfl⟩, rfl⟩ := hr <;> exact hfits
          refine ih h fun y hy => ?_
          cases best with
          | none =>
              simp only [Option.elim_none, Option.some.injEq] at hy
              exact hy ▸ hx
          | some z =>
              simp only [Option.elim_some, Option.some.injEq] at hy
              rcases min_choice z x with hmin | hmin
              · rw [← hy, hmin]
                exact hbest z rfl
              · rw [← hy, hmin]
                exact hx

/-! ## optima -/

/-- The further variable comes with the equality of its value and that of the objective. -/
theorem withObjective_eq_ok {s u : Polyhedron} {a : Affine} (h : s.withObjective a = .ok u) :
    ∃ t cs, (s.addVars 1 : Outcome EngineError Polyhedron) = .ok t ∧
      (t.add (.eq ⟨cs ++ [1], -a.constant⟩) : Outcome EngineError Polyhedron) = .ok u ∧
      cs.length = s.nVars ∧
      ∀ w, Coeffs.dot cs w = -Coeffs.dot (a.coeffs.take s.nVars) w := by
  simp only [withObjective, Outcome.bind_eq_ok] at h
  obtain ⟨t, ht, h⟩ := h
  split at h
  · simp at h
  simp only [Outcome.bind_eq_ok, Outcome.orOverflow_eq_ok, Word.neg?_eq_some] at h
  obtain ⟨cs, hcs, _, ⟨-, rfl⟩, h⟩ := h
  refine ⟨t, cs, ht, h, ?_, fun w => ?_⟩
  · rw [← (Coeffs.map?_eq_some.mp hcs).length_eq, Coeffs.length_pad, List.length_take]
    omega
  · rw [Coeffs.dot_of_negate? hcs, Coeffs.dot_pad]

/-- A further variable that is equal to the objective. -/
theorem holds_withObjective {s u : Polyhedron} {a : Affine} (h : s.withObjective a = .ok u)
    (w : Valuation) :
    u.Holds w ↔ s.Holds w ∧ w s.nVars = Coeffs.dot (a.coeffs.take s.nVars) w + a.constant := by
  obtain ⟨t, cs, ht, h, hlen, hdot⟩ := withObjective_eq_ok h
  rw [holds_add h, holds_addVars ht, Constraint.holds_eq, Affine.value_mk,
    Coeffs.dot_append, hdot, hlen]
  simp only [Coeffs.dot_cons, Coeffs.dot_nil, add_zero]
  refine and_congr_right fun _ => ?_
  constructor
  · intro hzero
    linarith
  · intro hlast
    linarith

theorem nVars_withObjective {s u : Polyhedron} {a : Affine} (h : s.withObjective a = .ok u) :
    u.nVars = s.nVars + 1 := by
  obtain ⟨t, cs, ht, h, hlen, -⟩ := withObjective_eq_ok h
  rw [(add_eq_ok h).1, addVars_eq_ok ht, Constraint.coeffs, Constraint.eq, List.length_append, hlen]
  simp

/-- The system with a variable for the objective stores a coefficient for it, too. -/
theorem WellFormed.withObjective {s u : Polyhedron} {a : Affine} (hs : s.WellFormed)
    (h : s.withObjective a = .ok u) : u.WellFormed := by
  obtain ⟨t, cs, ht, h, -, -⟩ := withObjective_eq_ok h
  exact (hs.addVars ht).add h

/-- A maximum is read off the projection of the polyhedron with the objective. -/
theorem maximize_cases {s : Polyhedron} {a : Affine} {r : Optimum} (h : s.maximize a = .ok r) :
    s.infeasible = true ∧ r = .empty ∨
      ∃ u p, s.withObjective a = .ok u ∧ u.project (List.range s.nVars) = .ok p ∧
        (p.infeasible = true ∧ r = .empty ∨ p.infeasible = false ∧
          ∃ best, leastUpper s.nVars p.constraints none = .ok best ∧
            r = best.elim .unbounded .value) := by
  unfold maximize at h
  split at h
  · next hinf => exact Or.inl ⟨hinf, (Except.ok.inj h).symm⟩
  simp only [Outcome.bind_eq_ok] at h
  obtain ⟨u, hu, p, hp, h⟩ := h
  refine Or.inr ⟨u, p, hu, hp, ?_⟩
  split at h
  · next hinf => exact Or.inl ⟨hinf, (Outcome.pure_eq_ok.mp h).symm⟩
  next hf =>
  rw [Bool.not_eq_true] at hf
  simp only [Outcome.bind_eq_ok, Outcome.pure_eq_ok] at h
  obtain ⟨best, hbest, h⟩ := h
  exact Or.inr ⟨hf, best, hbest, h.symm⟩

/-- Only the further variable is left when the others are projected out. -/
theorem involves_of_objective {s u p : Polyhedron} {a : Affine} (hs : s.WellFormed)
    (hu : s.withObjective a = .ok u) (hp : u.project (List.range s.nVars) = .ok p) :
    ∀ i, i ≠ s.nVars → p.involves i = false := by
  have hwf := hs.withObjective hu
  have hproj := projects_project hwf hp
  intro i hi
  by_cases hlt : i < s.nVars
  · exact hproj.clears i (by simpa using hlt)
  · refine (hproj.wellFormed hwf).involves_eq_false ?_
    rw [hproj.nVars, nVars_withObjective hu]
    omega

/-- The variable of an objective is the last one of the polyhedron to be
projected, and equal to the objective at every point. -/
theorem maximize_eq_ok {s : Polyhedron} {a : Affine} {r : Optimum} (hs : s.WellFormed)
    (hr : r ≠ .unbounded) (ha : ∀ i, s.nVars ≤ i → a.coeff i = 0) (h : s.maximize a = .ok r)
    {w : Valuation} (hw : s.Holds w) : ∃ v, r = .value v ∧ a.value w ≤ v := by
  rcases maximize_cases h with ⟨hinf, -⟩ | ⟨u, p, hu, hp, hr'⟩
  · exact absurd hw (not_holds_of_infeasible hinf w)
  -- the point with the objective as its further coordinate
  let w' : Valuation := Function.update w s.nVars (a.value w)
  have hlast : w' s.nVars = a.value w := Function.update_self ..
  have hvalue : Coeffs.dot (a.coeffs.take s.nVars) w' + a.constant = a.value w := by
    have htake : ∀ v, (⟨a.coeffs.take s.nVars, a.constant⟩ : Affine).value v =
        a.value v := fun v => by
      rw [← Affine.value_trimmed, ← Affine.truncated, Affine.value_truncated ha]
    rw [← Affine.value_mk, htake, Affine.value_update (ha _ le_rfl)]
  have hpw : p.Holds w' := by
    refine (projects_project (hs.withObjective hu) hp).sound w' ((holds_withObjective hu w').mpr ?_)
    exact ⟨(holds_update (hs.involves_eq_false le_rfl) w _).mpr hw, hlast.trans hvalue.symm⟩
  rcases hr' with ⟨hinf, -⟩ | ⟨-, best, hbest, rfl⟩
  · exact absurd hpw (not_holds_of_infeasible hinf w')
  have honly : ∀ c ∈ p.constraints, ∀ i, i ≠ s.nVars → c.coeff i = 0 := fun c hc i hi =>
    involves_eq_false.mp (involves_of_objective hs hu hp i hi) c hc
  cases best with
  | none => exact absurd rfl hr
  | some v => exact ⟨v, rfl, hlast ▸ le_of_leastUpper hbest honly hpw.2 (by simp)⟩

/-- No point of a system exceeds its maximum. -/
theorem value_le_of_maximize {s : Polyhedron} {a : Affine} {v : Int} (hs : s.WellFormed)
    (ha : ∀ i, s.nVars ≤ i → a.coeff i = 0) (h : s.maximize a = .ok (.value v)) {w : Valuation}
    (hw : s.Holds w) : a.value w ≤ v := by
  obtain ⟨v', hv, hle⟩ := maximize_eq_ok hs (by simp) ha h hw
  cases hv
  exact hle

/-- A system without a maximum, because it is empty, has no points. -/
theorem not_holds_of_maximize {s : Polyhedron} {a : Affine} (hs : s.WellFormed)
    (ha : ∀ i, s.nVars ≤ i → a.coeff i = 0) (h : s.maximize a = .ok .empty) (w : Valuation) :
    ¬ s.Holds w := by
  intro hw
  obtain ⟨v, hv, -⟩ := maximize_eq_ok hs (by simp) ha h hw
  cases hv

/-- An optimum is a word. -/
theorem fits_of_maximize {s : Polyhedron} {a : Affine} {v : Int}
    (h : s.maximize a = .ok (.value v)) : Word.fits v = true := by
  rcases maximize_cases h with ⟨-, hr⟩ | ⟨u, p, -, -, ⟨-, hr⟩ | ⟨-, best, hbest, hr⟩⟩
  · cases hr
  · cases hr
  · cases best with
    | none => cases hr
    | some b =>
        cases hr
        exact fits_of_leastUpper hbest (by simp)

/-- A minimum is the negated maximum of the negated objective. -/
theorem minimize_eq_ok {s : Polyhedron} {a : Affine} {r : Optimum} (h : s.minimize a = .ok r) :
    ∃ m r', a.scale (-1) = .ok m ∧ s.maximize m = .ok r' ∧
      ((∃ v, r' = .value v ∧ r = .value (-v)) ∨ (r = r' ∧ ∀ v, r ≠ .value v)) := by
  simp only [minimize, Outcome.bind_eq_ok] at h
  obtain ⟨m, hm, r', hr', h⟩ := h
  refine ⟨m, r', hm, hr', ?_⟩
  cases r' with
  | value v =>
      simp only [Outcome.bind_eq_ok, Outcome.orOverflow_eq_ok, Word.neg?_eq_some,
        Outcome.pure_eq_ok] at h
      obtain ⟨_, ⟨-, rfl⟩, rfl⟩ := h
      exact Or.inl ⟨v, rfl, rfl⟩
  | unbounded | empty =>
      simp only [Outcome.pure_eq_ok] at h
      exact Or.inr ⟨h.symm, by simp [← h]⟩

/-- No point of a system is below its minimum. -/
theorem le_value_of_minimize {s : Polyhedron} {a : Affine} {v : Int} (hs : s.WellFormed)
    (ha : ∀ i, s.nVars ≤ i → a.coeff i = 0) (h : s.minimize a = .ok (.value v)) {w : Valuation}
    (hw : s.Holds w) : v ≤ a.value w := by
  obtain ⟨m, r, hm, hr, ⟨v', rfl, hv⟩ | ⟨-, hne⟩⟩ := minimize_eq_ok h
  · have hle := value_le_of_maximize hs
      (fun i hi => by rw [(Affine.scale_eq_ok hm).1, ha i hi, mul_zero]) hr hw
    rw [Affine.value_scale hm] at hle
    cases hv
    omega
  · exact absurd rfl (hne v)

/-- A system without a minimum, because it is empty, has no points. -/
theorem not_holds_of_minimize {s : Polyhedron} {a : Affine} (hs : s.WellFormed)
    (ha : ∀ i, s.nVars ≤ i → a.coeff i = 0) (h : s.minimize a = .ok .empty) (w : Valuation) :
    ¬ s.Holds w := by
  obtain ⟨m, r, hm, hr, ⟨v', -, hv⟩ | ⟨rfl, -⟩⟩ := minimize_eq_ok h
  · cases hv
  · exact not_holds_of_maximize hs
      (fun i hi => by rw [(Affine.scale_eq_ok hm).1, ha i hi, mul_zero]) hr w

end Polyhedron

end KernelMap
