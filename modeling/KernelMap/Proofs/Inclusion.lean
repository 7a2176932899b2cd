import KernelMap.Proofs.Optimum
import KernelMap.Proofs.Space

/-!
# KernelMap.Proofs.Inclusion

Complements of constraints, inclusion of polyhedra, and what the answers of the
constraint engine prove.

A polyhedron is contained in another one if none of its points lies in the
complement of a constraint of the other.  The complement over the integers is a
disjunction of inequalities (`Constraint.exists_holds_negated`), so that inclusion is
a list of emptiness questions (`holds_of_subset`).

Main statement: `engine_answers_are_proofs`.
-/

namespace KernelMap

/-! ## complements -/

namespace Constraint

/-- The disjuncts of the complement hold together exactly where the constraint does
not. -/
theorem exists_holds_negated {c : Constraint} {cs : List Constraint} (h : c.negated = .ok cs)
    (w : Valuation) : (∃ d ∈ cs, d.Holds w) ↔ ¬ c.Holds w := by
  have hvalue : c.expr.value w = Coeffs.dot c.coeffs w + c.constant := rfl
  simp only [negated, Outcome.orOverflow_eq_ok, Option.bind_eq_bind, Option.bind_eq_some_iff,
    Word.neg?_eq_some, Word.sub?_eq_some] at h
  obtain ⟨flipped, hflipped, _, ⟨-, rfl⟩, _, ⟨-, rfl⟩, h⟩ := h
  have hdot := Coeffs.dot_of_negate? hflipped w
  cases hkind : c.kind with
  | inequality =>
      rw [hkind] at h
      simp only [Option.pure_def, Option.some.injEq] at h
      subst h
      rw [holds_of_kind_ge hkind, hvalue]
      simp only [List.mem_singleton, exists_eq_left, holds_ge, Affine.value_mk, hdot]
      omega
  | equality =>
      rw [hkind] at h
      simp only [Option.bind_eq_some_iff, Word.sub?_eq_some, Option.pure_def,
        Option.some.injEq] at h
      obtain ⟨_, ⟨-, rfl⟩, rfl⟩ := h
      rw [holds_of_kind_eq hkind, hvalue]
      simp only [List.mem_cons, List.not_mem_nil, or_false, exists_eq_or_imp, exists_eq_left,
        holds_ge, Affine.value_mk, hdot]
      omega

end Constraint

namespace Polyhedron

/-! ## inclusion -/

/-- Points of a polyhedron that refutes all constraints of a list satisfy none of
them. -/
theorem not_holds_of_refutesAll {s : Polyhedron} {cs : List Constraint} (hs : s.WellFormed)
    (h : s.refutesAll cs = .ok true) {w : Valuation} (hw : s.Holds w) : ∀ c ∈ cs, ¬ c.Holds w := by
  induction cs with
  | nil => simp
  | cons c cs ih =>
      simp only [refutesAll, Outcome.bind_eq_ok] at h
      obtain ⟨t, ht, empty, hempty, h⟩ := h
      cases empty with
      | false => simp at h
      | true =>
          have hc : ¬ c.Holds w := fun hcw => not_holds_of_isEmpty (hs.add ht) hempty w
            ((holds_add ht w).mpr ⟨hw, hcw⟩)
          exact List.forall_mem_cons.mpr ⟨hc, ih h⟩

theorem holds_of_entailsAll {s : Polyhedron} {cs : List Constraint} (hs : s.WellFormed)
    (h : s.entailsAll cs = .ok true) {w : Valuation} (hw : s.Holds w) : ∀ c ∈ cs, c.Holds w := by
  induction cs with
  | nil => simp
  | cons c cs ih =>
      simp only [entailsAll, Outcome.bind_eq_ok] at h
      obtain ⟨ds, hds, refuted, hrefuted, h⟩ := h
      cases refuted with
      | false => simp at h
      | true =>
          have hnone := not_holds_of_refutesAll hs hrefuted hw
          have hc : c.Holds w := by
            by_contra hno
            obtain ⟨d, hd, hdw⟩ := (Constraint.exists_holds_negated hds w).mpr hno
            exact hnone d hd hdw
          exact List.forall_mem_cons.mpr ⟨hc, ih h⟩

/-- A polyhedron that is reported to be contained in another one has only points of
that one. -/
theorem holds_of_subset {s t : Polyhedron} (hs : s.WellFormed) (h : s.subset t = .ok true)
    {w : Valuation} (hw : s.Holds w) : t.Holds w := by
  unfold subset at h
  split at h
  · exact absurd hw (not_holds_of_isEmpty hs h w)
  · next hinf =>
    rw [Bool.not_eq_true] at hinf
    exact ⟨hinf, holds_of_entailsAll hs h hw⟩

/-! ## answers -/

/-- Every definite answer is a fact about all integer points: an empty polyhedron has
none, an optimum bounds the objective at each, and a contained polyhedron has only
points of the other, whatever the values of variables that it does not have. -/
theorem engine_answers_are_proofs {s : Polyhedron} (hs : s.WellFormed) :
    (s.isEmpty = .ok true → ∀ w, ¬ s.Holds w) ∧
      (∀ a : Affine, a.Within s.nVars →
        (∀ v, s.maximize a = .ok (.value v) → ∀ w, s.Holds w → a.value w ≤ v) ∧
        (s.maximize a = .ok .empty → ∀ w, ¬ s.Holds w) ∧
        (∀ v, s.minimize a = .ok (.value v) → ∀ w, s.Holds w → v ≤ a.value w) ∧
        (s.minimize a = .ok .empty → ∀ w, ¬ s.Holds w)) ∧
      (∀ t : Polyhedron, s.subset t = .ok true →
        ∀ w w', s.Holds w → (∀ i, i < s.nVars → w' i = w i) → t.Holds w') ∧
      ∀ (c : Constraint) (cs : List Constraint), c.negated = .ok cs →
        ∀ w, (∃ d ∈ cs, d.Holds w) ↔ ¬ c.Holds w := by
  refine ⟨not_holds_of_isEmpty hs, fun a ha => ⟨?_, ?_, ?_, ?_⟩, ?_,
    fun c cs => Constraint.exists_holds_negated⟩
  · exact fun v h w => value_le_of_maximize hs ha h
  · exact not_holds_of_maximize hs ha
  · exact fun v h w => le_value_of_minimize hs ha h
  · exact not_holds_of_minimize hs ha
  · intro t h w w' hw hsame
    have hw' : s.Holds w' := (holds_congr fun v hv => by
      by_contra hne
      have hle : s.nVars ≤ v := Nat.le_of_not_lt fun hlt => hne (hsame v hlt)
      simp [hs.involves_eq_false hle] at hv).mpr hw
    exact holds_of_subset hs h hw'

/-- The even numbers `x₀ = 2·x₁` with `1 ≤ x₁ ≤ 4`. -/
def evens : Polyhedron :=
  ⟨2, [.eq ⟨[1, -2], 0⟩, .ge ⟨[0, 1], -1⟩, .ge ⟨[0, -1], 4⟩], false⟩

/-- They lie between `2` and `8`, their halves are positive, and both sides of `x₀ = 6`
together have all the others. -/
theorem evens_bounds :
    evens.Holds (Valuation.ofList [6, 3]) ∧ (∀ w, evens.Holds w → 2 ≤ w 0 ∧ w 0 ≤ 8 ∧ 0 < w 1) ∧
      ∀ w : Valuation, (∃ d ∈ [Constraint.ge ⟨[1], -7⟩, .ge ⟨[-1], 5⟩], d.Holds w) ↔ w 0 ≠ 6 := by
  have hwf : evens.WellFormed := by decide
  have hvar : (Affine.var 0).Within evens.nVars := by
    intro i hi
    rw [Affine.coeff_var, if_neg (Nat.ne_of_gt (lt_of_lt_of_le (by decide) hi))]
  have hmax : evens.maximize (.var 0) = .ok (.value 8) := by decide +kernel
  have hmin : evens.minimize (.var 0) = .ok (.value 2) := by decide +kernel
  have hsub : evens.subset ⟨2, [.ge ⟨[0, 1], -1⟩], false⟩ = .ok true := by decide +kernel
  have hneg : (Constraint.eq ⟨[1], -6⟩).negated = .ok [.ge ⟨[1], -7⟩, .ge ⟨[-1], 5⟩] := by decide
  obtain ⟨-, hoptimum, hcontained, hcomplement⟩ := engine_answers_are_proofs hwf
  refine ⟨by decide, fun w hw => ⟨?_, ?_, ?_⟩, fun w => ?_⟩
  · simpa using (hoptimum _ hvar).2.2.1 2 hmin w hw
  · simpa using (hoptimum _ hvar).1 8 hmax w hw
  · have hpos := (hcontained _ hsub w w hw fun _ _ => rfl).2 _ (List.mem_singleton_self _)
    rw [Constraint.holds_ge, Affine.value_mk] at hpos
    simp at hpos
    omega
  · rw [hcomplement _ _ hneg w, Constraint.holds_eq, Affine.value_mk]
    simp
    omega

end Polyhedron

end KernelMap
