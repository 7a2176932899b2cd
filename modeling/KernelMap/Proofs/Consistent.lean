import KernelMap.Proofs.Normal

/-!
# KernelMap.Proofs.Consistent

Simplification finds every contradiction between parallel and opposite constraints.

An infeasible polyhedron may go unnoticed, because only constraints with the same or with
opposite coefficients are compared.  Those that are compared agree unless the result is
marked infeasible (`consistent_of_simplify`).  In one variable this is all there is:
normal constraints have coefficient `1` or `-1` there, and constraints that agree
pairwise have a common point.

Main statement: `Reduced.exists_holds`.
-/

namespace KernelMap

/-! ## one coefficient -/

namespace Coeffs

theorem get_map_neg (cs : List Int) (i : Nat) : get (cs.map (-·)) i = -get cs i := by
  induction cs generalizing i with
  | nil => rfl
  | cons c cs ih =>
      cases i with
      | zero => rfl
      | succ i => exact ih i

/-- A list of `n` coefficients with `a` for variable `k` and zero for all others. -/
structure Axis (n k : Nat) (a : Int) (cs : List Int) : Prop where
  length : cs.length = n
  coeff : get cs k = a
  others : ∀ i, i ≠ k → get cs i = 0

/-- A list of coefficients on an axis is given by the place and the coefficient. -/
theorem Axis.eq {n k : Nat} {a : Int} {as bs : List Int} (ha : Axis n k a as) (hb : Axis n k a bs) :
    as = bs := by
  refine List.ext_getElem (ha.length.trans hb.length.symm) fun i hi hi' => ?_
  rw [← get_of_lt hi, ← get_of_lt hi']
  by_cases hik : i = k
  · rw [hik, ha.coeff, hb.coeff]
  · rw [ha.others i hik, hb.others i hik]

theorem Axis.neg {n k : Nat} {a : Int} {cs : List Int} (h : Axis n k a cs) :
    Axis n k (-a) (cs.map (-·)) where
  length := by rw [List.length_map, h.length]
  coeff := by rw [get_map_neg, h.coeff]
  others i hi := by rw [get_map_neg, h.others i hi, neg_zero]

/-- The sum over coefficients on an axis is a multiple of one variable. -/
theorem Axis.dot_eq {n k : Nat} {a : Int} {cs : List Int} (h : Axis n k a cs) (w : Valuation) :
    dot cs w = a * w k := by
  have hvalue := Affine.value_of_single (a := ⟨cs, 0⟩) h.others w
  rw [Affine.value_mk, add_zero, add_zero, Affine.coeff_eq, h.coeff] at hvalue
  exact hvalue

end Coeffs

namespace Polyhedron

/-! ## comparing parallel and opposite constraints -/

namespace Reduction

/-- Every dropped half-space has the variables of an equality. -/
def Supported (all : List HalfSpace) (r : Reduction) : Prop :=
  ∀ h ∈ all, h.coeffs ∈ r.dropped → ∃ e ∈ r.equalities, Constraint.SameSupport h.toConstraint e

/-- Every dropped half-space and its opposite bound a form by the same number. -/
def Tight (all : List HalfSpace) (r : Reduction) : Prop :=
  ∀ h ∈ all, h.coeffs ∈ r.dropped → ∀ o ∈ all, o.coeffs = h.coeffs.map (-·) →
    h.constant + o.constant = 0

theorem sameSupport_of_neg {c d : Constraint} (h : d.coeffs = c.coeffs.map (-·)) :
    Constraint.SameSupport c d := by
  refine ⟨by rw [h, List.length_map], fun v => ?_⟩
  rw [Constraint.coeff_eq_get, Constraint.coeff_eq_get, h, Coeffs.get_map_neg, neg_eq_zero]

/-- Comparing a half-space with its opposite, if no contradiction is found. -/
theorem Meets.consistent {all : List HalfSpace} (hn : (all.map (·.coeffs)).Nodup) {r r' : Reduction}
    {h : HalfSpace} (hh : h ∈ all) (hmeets : Meets all h r r') (hf : r'.infeasible = false)
    (htight : Tight all r) :
    Tight all r' ∧ (∀ e ∈ r.equalities, e ∈ r'.equalities) ∧
      (∀ o ∈ all, o.coeffs = h.coeffs.map (-·) → 0 ≤ h.constant + o.constant) ∧
      (Supported all r → Supported all r') := by
  cases hmeets with
  | skip dropped =>
      exact ⟨htight, fun _ he => he, fun o ho hopp => (htight h hh dropped o ho hopp).ge, id⟩
  | apart room => exact ⟨htight, fun _ he => he, fun o ho hopp => (room o ho hopp).le, id⟩
  | clash _ _ _ _ infeasible _ =>
      rw [infeasible] at hf
      cases hf
  | merge o e mem opposite meet normal =>
      have hcoeffs : Constraint.SameSupport h.toConstraint (.eq ⟨h.coeffs, h.constant⟩) :=
        .of_coeffs_eq rfl
      have hsupp := hcoeffs.trans (Constraint.sameSet_of_normalize normal).toSameSupport
      have hneg : h.coeffs = o.coeffs.map (-·) := by
        rw [opposite, List.map_map]
        simp
      have honly : ∀ g ∈ all, g.coeffs = h.coeffs.map (-·) → g = o := fun g hg hgcs =>
        HalfSpace.eq_of_coeffs_eq hn hg mem (hgcs.trans opposite.symm)
      refine ⟨fun g hg hd g' hg' hopp => ?_, fun d hd => mem_addEquality.mpr (Or.inl hd),
        fun g hg hopp => honly g hg hopp ▸ meet.ge, fun hsupported g hg hd => ?_⟩
      · rw [dropped_addEquality, List.mem_cons, List.mem_cons] at hd
        rcases hd with hd | hd | hd
        · -- the opposite of the opposite is `h` again
          rw [HalfSpace.eq_of_coeffs_eq hn hg mem hd,
            HalfSpace.eq_of_coeffs_eq hn hg' hh (by rw [hopp, hd, hneg]), add_comm]
          exact meet
        · rw [HalfSpace.eq_of_coeffs_eq hn hg hh hd, honly g' hg' (hd ▸ hopp)]
          exact meet
        · exact htight g hg hd g' hg' hopp
      · rw [dropped_addEquality, List.mem_cons, List.mem_cons] at hd
        rcases hd with hd | hd | hd
        · have hgh : Constraint.SameSupport g.toConstraint h.toConstraint :=
            sameSupport_of_neg (show h.coeffs = g.coeffs.map (-·) by rw [hd, ← hneg])
          exact ⟨e, mem_addEquality.mpr (Or.inr rfl), hgh.trans hsupp⟩
        · rw [HalfSpace.eq_of_coeffs_eq hn hg hh hd]
          exact ⟨e, mem_addEquality.mpr (Or.inr rfl), hsupp⟩
        · obtain ⟨d, hd, hgd⟩ := hsupported g hg hd
          exact ⟨d, mem_addEquality.mpr (Or.inl hd), hgd⟩

/-- A contradiction that was known stays known. -/
theorem Meets.infeasible {all : List HalfSpace} {r r' : Reduction} {h : HalfSpace}
    (hmeets : Meets all h r r') (hr : r.infeasible = true) : r'.infeasible = true := by
  cases hmeets with
  | skip _ => exact hr
  | apart _ => exact hr
  | clash _ _ _ _ infeasible _ => exact infeasible
  | merge _ _ _ _ _ _ => simpa using hr

/-- Comparing half-spaces never takes back that there are no points. -/
theorem infeasible_of_meetAll {all hs : List HalfSpace} (hn : (all.map (·.coeffs)).Nodup)
    {r r' : Reduction} (hmeet : meetAll all hs r = .ok r') (hf : r'.infeasible = false) :
    r.infeasible = false := by
  by_contra hr
  rw [Bool.not_eq_false] at hr
  have hkept := meetAll_induction (P := (·.infeasible = true))
    (fun _ _ _ _ hr h₁ => (meet_cases hn h₁).infeasible hr) hr hmeet
  simp [hf] at hkept

/-- Comparing half-spaces with their opposites, if no contradiction is found. -/
theorem meetAll_feasible {all hs : List HalfSpace} (hn : (all.map (·.coeffs)).Nodup)
    (hsub : ∀ h ∈ hs, h ∈ all) {r r' : Reduction} (hmeet : meetAll all hs r = .ok r')
    (hf : r'.infeasible = false) (htight : Tight all r) (hsupp : Supported all r) :
    (∀ e ∈ r.equalities, e ∈ r'.equalities) ∧ Supported all r' ∧
      ∀ h ∈ hs, ∀ o ∈ all, o.coeffs = h.coeffs.map (-·) → 0 ≤ h.constant + o.constant := by
  induction hs generalizing r with
  | nil =>
      simp only [meetAll, Except.ok.injEq] at hmeet
      subst hmeet
      exact ⟨fun _ he => he, hsupp, by simp⟩
  | cons h hs ih =>
      simp only [meetAll, Outcome.bind_eq_ok] at hmeet
      obtain ⟨r₁, h₁, hmeet⟩ := hmeet
      obtain ⟨hh, hsub⟩ := List.forall_mem_cons.mp hsub
      obtain ⟨htight₁, heqs₁, hslack, hsupp₁⟩ :=
        (meet_cases hn h₁).consistent hn hh (infeasible_of_meetAll hn hmeet hf) htight
      obtain ⟨heqs, hsupp', hrest⟩ := ih hsub hmeet htight₁ (hsupp₁ hsupp)
      exact ⟨fun e he => heqs e (heqs₁ e he), hsupp', List.forall_mem_cons.mpr ⟨hslack, hrest⟩⟩

/-- Comparing the half-spaces with one equality, if no contradiction is found. -/
theorem absorb_feasible {all : List HalfSpace} (hn : (all.map (·.coeffs)).Nodup) {e : Constraint}
    {r r' : Reduction} (he : e ∈ r.equalities) (habsorb : r.absorb all e = .ok r')
    (hf : r'.infeasible = false) :
    r.infeasible = false ∧ (Supported all r → Supported all r') ∧
      (∀ h ∈ all, h.coeffs = e.coeffs → e.constant ≤ h.constant) ∧
      ∀ h ∈ all, h.coeffs = e.coeffs.map (-·) → 0 ≤ h.constant + e.constant := by
  obtain ⟨r₁, hparallel, hopposite⟩ := absorb_cases hn habsorb
  obtain ⟨hf₁, hopp⟩ := hopposite.feasible hn hf
  obtain ⟨hf₀, hpar⟩ := hparallel.feasible hn hf₁
  refine ⟨hf₀, fun hsupp h hh hd => ?_, fun h hh hcs => ?_, fun h hh hcs => ?_⟩
  · rw [equalities_absorb hn habsorb]
    rcases hopposite.mem_dropped _ hd with hd | hd
    · rcases hparallel.mem_dropped _ hd with hd | hd
      · exact hsupp h hh hd
      · exact ⟨e, he, .of_coeffs_eq hd.symm⟩
    · have hneg : e.coeffs = h.coeffs.map (-·) := by
        rw [hd, List.map_map]
        simp
      exact ⟨e, he, sameSupport_of_neg (c := h.toConstraint) hneg⟩
  · simpa using hpar h hh hcs
  · simpa using hopp h hh hcs

/-- Comparing the half-spaces with the equalities, if no contradiction is found. -/
theorem absorbAll_feasible {all : List HalfSpace} (hn : (all.map (·.coeffs)).Nodup)
    {es : List Constraint} {r r' : Reduction} (hes : ∀ e ∈ es, e ∈ r.equalities)
    (habsorb : absorbAll all es r = .ok r') (hf : r'.infeasible = false) :
    r.infeasible = false ∧ (Supported all r → Supported all r') ∧ ∀ e ∈ es,
      (∀ h ∈ all, h.coeffs = e.coeffs → e.constant ≤ h.constant) ∧
      ∀ h ∈ all, h.coeffs = e.coeffs.map (-·) → 0 ≤ h.constant + e.constant := by
  induction es generalizing r with
  | nil =>
      simp only [absorbAll, Except.ok.injEq] at habsorb
      subst habsorb
      exact ⟨hf, id, by simp⟩
  | cons e es ih =>
      simp only [absorbAll, Outcome.bind_eq_ok] at habsorb
      obtain ⟨r₁, h₁, habsorb⟩ := habsorb
      obtain ⟨he, hes⟩ := List.forall_mem_cons.mp hes
      have heqs := equalities_absorb hn h₁
      obtain ⟨hf₁, hsupp', hrest⟩ := ih (fun d hd => heqs.symm ▸ hes d hd) habsorb
      obtain ⟨hf₀, hsupp₁, hcompare⟩ := absorb_feasible hn he h₁ hf₁
      exact ⟨hf₀, fun hsupp => hsupp' (hsupp₁ hsupp), List.forall_mem_cons.mpr ⟨hcompare, hrest⟩⟩

end Reduction

/-- No two of the sorted constraints with the same or with opposite coefficients
contradict each other. -/
structure Sorted.Consistent (t : Sorted) : Prop where
  feasible : t.infeasible = false
  opposite : ∀ h ∈ t.halfSpaces, ∀ o ∈ t.halfSpaces, o.coeffs = h.coeffs.map (-·) →
    0 ≤ h.constant + o.constant
  parallel_equality : ∀ e ∈ t.equalities, ∀ h ∈ t.halfSpaces, h.coeffs = e.coeffs →
    e.constant ≤ h.constant
  opposite_equality : ∀ e ∈ t.equalities, ∀ h ∈ t.halfSpaces, h.coeffs = e.coeffs.map (-·) →
    0 ≤ h.constant + e.constant

/-- Simplification that finds no contradiction leaves the variables of every
constraint. -/
theorem consistent_of_simplify {s t : Polyhedron} (hs : s.infeasible = false)
    (h : s.simplify = .ok t) (hf : t.infeasible = false) :
    s.sorted.Consistent ∧ (∀ e ∈ s.sorted.equalities, e ∈ t.constraints) ∧
      ∀ g ∈ s.sorted.halfSpaces, ∃ c ∈ t.constraints, Constraint.SameSupport g.toConstraint c := by
  have hn := s.sorted_from.nodup
  obtain ⟨r₁, r₂, hmeet, habsorb, rfl⟩ := simplify_eq_ok hs h
  split at hf
  · cases hf
  next hf₂ =>
  rw [Bool.not_eq_true] at hf₂
  rw [if_neg (by simp [hf₂])]
  obtain ⟨hf₁, hsupp₂, hcompare⟩ := Reduction.absorbAll_feasible hn (fun _ he => he) habsorb hf₂
  obtain ⟨heqs, hsupp₁, hslack⟩ := Reduction.meetAll_feasible hn (fun _ hh => hh) hmeet hf₁
    (fun _ _ hd => absurd hd List.not_mem_nil) (fun _ _ hd => absurd hd List.not_mem_nil)
  have hkept : ∀ e ∈ r₁.equalities, e ∈ Reduction.rows s.sorted r₂ := fun e he =>
    Reduction.mem_rows.mpr (Or.inl (by rwa [Reduction.equalities_absorbAll hn habsorb]))
  refine ⟨⟨Reduction.infeasible_of_meetAll hn hmeet hf₁, hslack,
    fun e he => (hcompare e (heqs e he)).1, fun e he => (hcompare e (heqs e he)).2⟩,
    fun e he => hkept e (heqs e he), fun g hg => ?_⟩
  by_cases hd : g.coeffs ∈ r₂.dropped
  · obtain ⟨e, he, hge⟩ := hsupp₂ hsupp₁ g hg hd
    exact ⟨e, Reduction.mem_rows.mpr (Or.inl he), hge⟩
  · exact ⟨g.toConstraint, Reduction.mem_rows.mpr (Or.inr ⟨g, hg, hd, rfl⟩), .refl _⟩

/-! ## one variable -/

/-- Constraints in one variable hold together at a value that none of them excludes. -/
theorem Sorted.Consistent.holds_const {t : Sorted} {n k : Nat} (ht : t.Consistent)
    (hkind : ∀ e ∈ t.equalities, e.kind = .equality)
    (hequality : ∀ e ∈ t.equalities, Coeffs.Axis n k 1 e.coeffs)
    (hhalf : ∀ h ∈ t.halfSpaces, Coeffs.Axis n k 1 h.coeffs ∨ Coeffs.Axis n k (-1) h.coeffs)
    (x : Int) (hx : ∀ e ∈ t.equalities, x + e.constant = 0)
    (hlower : ∀ h ∈ t.halfSpaces, Coeffs.Axis n k 1 h.coeffs → 0 ≤ x + h.constant)
    (hupper : ∀ h ∈ t.halfSpaces, Coeffs.Axis n k (-1) h.coeffs → 0 ≤ -x + h.constant) :
    t.Holds fun _ => x := by
  refine ⟨ht.feasible, fun e he => ?_, fun h hh => ?_⟩
  · have hvalue : e.expr.value (fun _ => x) = x + e.constant := by
      rw [Affine.value, ← Constraint.coeffs, (hequality e he).dot_eq, one_mul, Constraint.constant]
    rw [Constraint.holds_of_kind_eq (hkind e he), hvalue, hx e he]
  · rw [HalfSpace.holds_toConstraint]
    rcases hhalf h hh with haxis | haxis
    · rw [haxis.dot_eq, one_mul]
      exact hlower h hh haxis
    · rw [haxis.dot_eq, neg_one_mul]
      exact hupper h hh haxis

/-- Constraints in one variable that do not contradict each other pairwise have a
common point. -/
theorem Sorted.Consistent.exists_holds {t : Sorted} {n k : Nat} (ht : t.Consistent)
    (hnodup : (t.halfSpaces.map (·.coeffs)).Nodup) (hnodup' : (t.equalities.map (·.coeffs)).Nodup)
    (hkind : ∀ e ∈ t.equalities, e.kind = .equality)
    (hequality : ∀ e ∈ t.equalities, Coeffs.Axis n k 1 e.coeffs)
    (hhalf : ∀ h ∈ t.halfSpaces, Coeffs.Axis n k 1 h.coeffs ∨ Coeffs.Axis n k (-1) h.coeffs) :
    ∃ w, t.Holds w := by
  have hpoint := ht.holds_const hkind hequality hhalf
  by_cases hany : ∃ e, e ∈ t.equalities
  · -- an equality leaves one value, which no other constraint excludes
    obtain ⟨e, he⟩ := hany
    have haxis := hequality e he
    refine ⟨_, hpoint (-e.constant) (fun d hd => ?_) (fun h hh hax => ?_) (fun h hh hax => ?_)⟩
    · rw [List.inj_on_of_nodup_map hnodup' hd he ((hequality d hd).eq haxis)]
      ring
    · have := ht.parallel_equality e he h hh (hax.eq haxis)
      omega
    · have := ht.opposite_equality e he h hh (hax.eq haxis.neg)
      omega
  have hnone : ∀ e, e ∉ t.equalities := fun e he => hany ⟨e, he⟩
  by_cases hlow : ∃ h ∈ t.halfSpaces, Coeffs.Axis n k 1 h.coeffs
  · -- the least value is below every upper bound
    obtain ⟨h, hh, haxis⟩ := hlow
    refine ⟨_, hpoint (-h.constant) (fun d hd => absurd hd (hnone d)) (fun g hg hax => ?_)
      (fun g hg hax => ?_)⟩
    · rw [HalfSpace.eq_of_coeffs_eq hnodup hg hh (hax.eq haxis)]
      omega
    · have := ht.opposite h hh g hg (hax.eq haxis.neg)
      omega
  by_cases hup : ∃ h ∈ t.halfSpaces, Coeffs.Axis n k (-1) h.coeffs
  · obtain ⟨h, hh, haxis⟩ := hup
    refine ⟨_, hpoint h.constant (fun d hd => absurd hd (hnone d))
      (fun g hg hax => absurd ⟨g, hg, hax⟩ hlow) (fun g hg hax => ?_)⟩
    rw [HalfSpace.eq_of_coeffs_eq hnodup hg hh (hax.eq haxis)]
    omega
  · exact ⟨_, hpoint 0 (fun d hd => absurd hd (hnone d)) (fun g hg hax => absurd ⟨g, hg, hax⟩ hlow)
      (fun g hg hax => absurd ⟨g, hg, hax⟩ hup)⟩

/-- A simplified polyhedron in one variable has a point, unless it is marked
infeasible. -/
theorem Reduced.exists_holds {t : Polyhedron} {k : Nat} (ht : t.Reduced) (hwf : t.WellFormed)
    (hf : t.infeasible = false) (honly : ∀ i, i ≠ k → t.involves i = false) : ∃ w, t.Holds w := by
  obtain ⟨s, hs, hsimp⟩ := ht
  have hsf : s.infeasible = false := by
    by_contra hinf
    rw [Bool.not_eq_false] at hinf
    rw [simplify, if_pos hinf] at hsimp
    rw [← Except.ok.inj hsimp] at hf
    simp [hinf] at hf
  have hfrom := s.sorted_from
  obtain ⟨hcons, hequalities, hhalf⟩ := consistent_of_simplify hsf hsimp hf
  have hzero : ∀ c ∈ t.constraints, ∀ i, i ≠ k → c.coeff i = 0 := fun c hc i hi =>
    involves_eq_false.mp (honly i hi) c hc
  obtain ⟨w, hw⟩ : ∃ w, s.sorted.Holds w := by
    refine hcons.exists_holds (n := t.nVars) (k := k) hfrom.nodup hfrom.nodup_equalities hfrom.kind
      (fun e he => ?_) fun h hh => ?_
    · have hnormal := hs e (hfrom.equality e he)
      have hothers := hzero e (hequalities e he)
      have hsign := hnormal.oriented (hfrom.kind e he) k fun j hj => hothers j (by omega)
      refine ⟨hwf e (hequalities e he), ?_, hothers⟩
      have hunit := hnormal.primitive.get_eq hothers
      omega
    · obtain ⟨c, hc, hcoeffs⟩ := hfrom.halfSpace h hh
      obtain ⟨d, hd, hsupp⟩ := hhalf h hh
      have hothers : ∀ i, i ≠ k → Coeffs.get h.coeffs i = 0 :=
        fun i hi => (hsupp.coeff_eq_zero i).mp (hzero d hd i hi)
      have hlength : h.coeffs.length = t.nVars := hsupp.length.symm.trans (hwf d hd)
      have hprim : Coeffs.Primitive h.coeffs := hcoeffs ▸ (hs c hc).primitive
      exact (hprim.get_eq hothers).imp (fun hone => ⟨hlength, hone, hothers⟩) fun hone =>
        ⟨hlength, hone, hothers⟩
  exact ⟨w, ((simplified_of_simplify hsimp).holds w).mpr ((holds_sorted hsf w).mp hw)⟩

end Polyhedron

end KernelMap
