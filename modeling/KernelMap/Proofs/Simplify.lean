import KernelMap.Proofs.Reduction

/-!
# KernelMap.Proofs.Simplify

Simplification keeps the integer points.

The two phases after the constraints are sorted change a `Reduction`;
`Reduction.Refines` says what each of their steps does to the points, and is
transitive, so that the phases are chains of such steps.

Main statements:

* `Polyhedron.simplified_of_simplify` — the result has the same integer points,
  and every constraint of it has the variables of one that was there before.
-/

namespace KernelMap

theorem Coeffs.dot_map_neg (cs : List Int) (w : Valuation) : dot (cs.map (-·)) w = -dot cs w := by
  induction cs generalizing w with
  | nil => rfl
  | cons c cs ih =>
      rw [List.map_cons, dot_cons, dot_cons, ih]
      ring

/-! ## half-spaces -/

namespace HalfSpace

/-- A half-space is the constraint that its form is not negative. -/
theorem holds_toConstraint {h : HalfSpace} {w : Valuation} :
    h.toConstraint.Holds w ↔ 0 ≤ Coeffs.dot h.coeffs w + h.constant := by
  rw [toConstraint, Constraint.holds_ge, Affine.value_mk]

/-- Inserting a half-space adds it to the conjunction. -/
theorem forall_mem_insert {h : HalfSpace} {gs : List HalfSpace} {w : Valuation} :
    (∀ g ∈ insert h gs, g.toConstraint.Holds w) ↔
      h.toConstraint.Holds w ∧ ∀ g ∈ gs, g.toConstraint.Holds w := by
  induction gs with
  | nil => simp [insert]
  | cons g gs ih =>
      rw [insert]
      split
      · next hc =>
        have hcoeffs : g.coeffs = h.coeffs := by
          rw [h.key_eq] at hc
          exact hasCoeffs_iff.mp hc
        simp only [List.forall_mem_cons, holds_toConstraint, hcoeffs]
        constructor
        · rintro ⟨hmin, hrest⟩
          exact ⟨by omega, by omega, hrest⟩
        · rintro ⟨hh, hg, hrest⟩
          exact ⟨by omega, hrest⟩
      · simp only [List.forall_mem_cons, ih]
        exact and_left_comm

end HalfSpace

namespace Polyhedron

/-! ## sorting by kind -/

/-- Inserting an equality adds it to the conjunction, unless it clashes with one
of the same coefficients: then there is no point. -/
theorem insertEquality_spec {c : Constraint} {es : List Constraint} (hc : c.kind = .equality)
    (hes : ∀ e ∈ es, e.kind = .equality) (w : Valuation) :
    ((insertEquality c es).2 = false ∧ ∀ e ∈ (insertEquality c es).1, e.Holds w) ↔
      c.Holds w ∧ ∀ e ∈ es, e.Holds w := by
  induction es with
  | nil => simp [insertEquality]
  | cons e es ih =>
      have he : e.kind = .equality := hes e (by simp)
      have ih := ih fun e' he' => hes e' (by simp [he'])
      rw [insertEquality]
      split
      · next hcoeffs =>
        rw [Coeffs.eqv_iff] at hcoeffs
        have hval : e.expr.value w - e.constant = c.expr.value w - c.constant := by
          have hdot : Coeffs.dot e.expr.coeffs w = Coeffs.dot c.expr.coeffs w :=
            congrArg (Coeffs.dot · w) hcoeffs
          simp only [Affine.value, Constraint.constant, hdot]
          ring
        simp only [List.forall_mem_cons, Constraint.holds_of_kind_eq hc,
          Constraint.holds_of_kind_eq he, bne_eq_false_iff_eq]
        constructor
        · rintro ⟨hk, hev, hrest⟩
          exact ⟨by omega, hev, hrest⟩
        · rintro ⟨hcv, hev, hrest⟩
          exact ⟨by omega, hev, hrest⟩
      · simp only [List.forall_mem_cons]
        constructor
        · rintro ⟨hclash, hew, hrest⟩
          obtain ⟨hcw, hesw⟩ := ih.mp ⟨hclash, hrest⟩
          exact ⟨hcw, hew, hesw⟩
        · rintro ⟨hcw, hew, hesw⟩
          obtain ⟨hclash, hrest⟩ := ih.mpr ⟨hcw, hesw⟩
          exact ⟨hclash, hew, hrest⟩

namespace Sorted

/-- Is the valuation a point of the sorted constraints? -/
def Holds (t : Sorted) (w : Valuation) : Prop :=
  t.infeasible = false ∧ (∀ e ∈ t.equalities, e.Holds w) ∧ ∀ h ∈ t.halfSpaces,
    h.toConstraint.Holds w

/-- Sorting in a constraint keeps the points where it holds. -/
theorem holds_insert {cs : List Constraint} {t : Sorted} (ht : t.From cs) (c : Constraint)
    (w : Valuation) : (t.insert c).Holds w ↔ t.Holds w ∧ c.Holds w := by
  unfold insert
  split
  · next hkind =>
    have hspec := insertEquality_spec hkind ht.kind w
    simp only [Holds, Bool.or_eq_false_iff]
    constructor
    · rintro ⟨⟨hf, hclash⟩, he, hh⟩
      obtain ⟨hcw, hes⟩ := hspec.mp ⟨hclash, he⟩
      exact ⟨⟨hf, hes, hh⟩, hcw⟩
    · rintro ⟨⟨hf, hes, hh⟩, hcw⟩
      obtain ⟨hclash, he⟩ := hspec.mpr ⟨hcw, hes⟩
      exact ⟨⟨hf, hclash⟩, he, hh⟩
  · next hkind =>
    have hc : (HalfSpace.ofConstraint c).toConstraint.Holds w ↔ c.Holds w := by
      rw [HalfSpace.holds_toConstraint, Constraint.holds_of_kind_ge hkind]
      rfl
    simp only [Holds, HalfSpace.forall_mem_insert, hc]
    tauto

/-- Sorting a list of constraints keeps its points. -/
theorem holds_foldl {cs ds : List Constraint} (hsub : ∀ c ∈ ds, c ∈ cs) {t : Sorted}
    (ht : t.From cs) (w : Valuation) :
    (ds.foldl Sorted.insert t).Holds w ↔ t.Holds w ∧ ∀ c ∈ ds, c.Holds w := by
  induction ds generalizing t with
  | nil => simp
  | cons d ds ih =>
      obtain ⟨hd, hsub⟩ := List.forall_mem_cons.mp hsub
      rw [List.foldl_cons, ih hsub (ht.insert hd), holds_insert ht, List.forall_mem_cons, and_assoc]

end Sorted

/-- A system has the points of its sorted constraints. -/
theorem holds_sorted {s : Polyhedron} (hs : s.infeasible = false) (w : Valuation) :
    s.sorted.Holds w ↔ s.Holds w := by
  rw [sorted, Sorted.holds_foldl (fun _ hc => hc) (Sorted.from_nil _) w]
  simp [Holds, Sorted.Holds, hs]

/-! ## steps of the reduction -/

namespace Reduction

/-- Is the valuation a point as far as the equalities tell? -/
def Holds (r : Reduction) (w : Valuation) : Prop :=
  r.infeasible = false ∧ ∀ e ∈ r.equalities, e.Holds w

/-- What a step from `r` to `r'` may do while the half-spaces `all` are reduced. -/
structure Refines (all : List HalfSpace) (r r' : Reduction) : Prop where
  /-- Only consequences of the half-spaces are added. -/
  sound : ∀ w, (∀ h ∈ all, h.toConstraint.Holds w) → r.Holds w → r'.Holds w
  /-- Nothing known before is lost, and what is newly dropped is implied. -/
  exact : ∀ w, r'.Holds w → r.Holds w ∧
    ∀ h ∈ all, h.coeffs ∈ r'.dropped → h.coeffs ∈ r.dropped ∨ h.toConstraint.Holds w
  /-- A new equality has the variables of a half-space. -/
  origin : ∀ e ∈ r'.equalities, e ∈ r.equalities ∨
    e.kind = .equality ∧ ∃ h ∈ all, Constraint.SameSupport h.toConstraint e

theorem Refines.refl (all : List HalfSpace) (r : Reduction) : Refines all r r :=
  ⟨fun _ _ h => h, fun _ h => ⟨h, fun _ _ hd => Or.inl hd⟩, fun _ he => Or.inl he⟩

theorem Refines.trans {all : List HalfSpace} {r r' r'' : Reduction} (h : Refines all r r')
    (h' : Refines all r' r'') : Refines all r r'' where
  sound w hall hr := h'.sound w hall (h.sound w hall hr)
  exact w hr'' := by
    obtain ⟨hr', hdrop'⟩ := h'.exact w hr''
    obtain ⟨hr, hdrop⟩ := h.exact w hr'
    refine ⟨hr, fun g hg hd => ?_⟩
    rcases hdrop' g hg hd with hd | hg'
    · exact hdrop g hg hd
    · exact Or.inr hg'
  origin e he := by
    rcases h'.origin e he with he | hnew
    · exact h.origin e he
    · exact Or.inr hnew

/-- A contradiction between the half-spaces ends in an infeasible reduction. -/
theorem Refines.contradiction {all : List HalfSpace} {r r' : Reduction}
    (hinf : r'.infeasible = true) (heq : r'.equalities = r.equalities)
    (hno : ∀ w, ¬ ∀ h ∈ all, h.toConstraint.Holds w) : Refines all r r' where
  sound w hall := absurd hall (hno w)
  exact w hr' := by
    rw [Holds, hinf] at hr'
    exact absurd hr'.1 (by decide)
  origin e he := Or.inl (heq ▸ he)

/-- The half-spaces with coefficients `cs` are dropped because the equality `e` decides
them: they are implied, or the contradiction is recorded. -/
theorem Drops.refines {all : List HalfSpace} (hn : (all.map (·.coeffs)).Nodup) {r r' : Reduction}
    {cs : List Int} {clash : HalfSpace → Bool} {e : Constraint} (he : e ∈ r.equalities)
    (hdecides : ∀ g : HalfSpace, g.coeffs = cs → ∀ w, e.Holds w →
      (g.toConstraint.Holds w ↔ clash g = false))
    (hdrops : Drops all cs clash r r') : Refines all r r' := by
  cases hdrops with
  | none _ => exact .refl all r
  | drop h hh hcs =>
      refine ⟨fun w hall hr => ?_, fun w hr' => ?_, fun _ he' => Or.inl he'⟩
      · have hclash := (hdecides h hcs w (hr.2 e he)).mp (hall h hh)
        exact ⟨Bool.or_eq_false_iff.mpr ⟨hr.1, hclash⟩, hr.2⟩
      · obtain ⟨hf, heqs⟩ := hr'
        obtain ⟨hf, hclash⟩ := Bool.or_eq_false_iff.mp hf
        refine ⟨⟨hf, heqs⟩, fun g hg hd => ?_⟩
        rcases List.mem_cons.mp hd with heq | hd
        · rw [HalfSpace.eq_of_coeffs_eq hn hg hh heq]
          exact Or.inr ((hdecides h hcs w (heqs e he)).mpr hclash)
        · exact Or.inl hd

/-! ## opposite inequalities -/

/-- Two half-spaces that bound one form from both sides by the same number are
replaced by an equality. -/
theorem Refines.merge {all : List HalfSpace} (hn : (all.map (·.coeffs)).Nodup) {r : Reduction}
    {h o : HalfSpace} {e : Constraint} (hh : h ∈ all) (ho : o ∈ all)
    (hdot : ∀ w, Coeffs.dot o.coeffs w = -Coeffs.dot h.coeffs w)
    (hslack : h.constant + o.constant = 0)
    (hset : Constraint.SameSet (.eq ⟨h.coeffs, h.constant⟩) e) :
    Refines all r ({ r with dropped := o.coeffs :: h.coeffs :: r.dropped }.addEquality e) := by
  have hvalue : ∀ w, e.Holds w ↔ Coeffs.dot h.coeffs w + h.constant = 0 := fun w => by
    rw [hset.holds, Constraint.holds_eq, Affine.value_mk]
  refine ⟨fun w hall hr => ⟨by simpa using hr.1, fun d hd => ?_⟩, fun w hr' => ?_, fun d hd => ?_⟩
  · rcases mem_addEquality.mp hd with hd | rfl
    · exact hr.2 d hd
    · have hh := HalfSpace.holds_toConstraint.mp (hall h hh)
      have ho := HalfSpace.holds_toConstraint.mp (hall o ho)
      rw [hdot w] at ho
      rw [hvalue]
      omega
  · have he := (hvalue w).mp (hr'.2 e (mem_addEquality.mpr (Or.inr rfl)))
    refine ⟨⟨by simpa using hr'.1, fun d hd => hr'.2 d (mem_addEquality.mpr (Or.inl hd))⟩, ?_⟩
    intro g hg hd
    rw [dropped_addEquality, List.mem_cons, List.mem_cons] at hd
    rcases hd with heq | heq | hd
    · right
      rw [HalfSpace.eq_of_coeffs_eq hn hg ho heq, HalfSpace.holds_toConstraint, hdot w]
      omega
    · right
      rw [HalfSpace.eq_of_coeffs_eq hn hg hh heq, HalfSpace.holds_toConstraint]
      omega
    · exact Or.inl hd
  · rcases mem_addEquality.mp hd with hd | rfl
    · exact Or.inl hd
    · have hsupp : Constraint.SameSupport h.toConstraint (.eq ⟨h.coeffs, h.constant⟩) :=
        .of_coeffs_eq rfl
      exact Or.inr ⟨hset.kind, h, hh, hsupp.trans hset.toSameSupport⟩

/-- A comparison of opposite half-spaces keeps the points. -/
theorem Meets.refines {all : List HalfSpace} (hn : (all.map (·.coeffs)).Nodup) {r r' : Reduction}
    {h : HalfSpace} (hh : h ∈ all) (hmeets : Meets all h r r') : Refines all r r' := by
  have hneg : ∀ o : HalfSpace, o.coeffs = h.coeffs.map (-·) → ∀ w,
      Coeffs.dot o.coeffs w = -Coeffs.dot h.coeffs w := fun o hopp w => by
    rw [hopp, Coeffs.dot_map_neg]
  cases hmeets with
  | skip _ => exact .refl all r
  | apart _ => exact .refl all r
  | clash o mem opposite contradiction infeasible equalities =>
      refine .contradiction infeasible equalities fun w hall => ?_
      have hhw := HalfSpace.holds_toConstraint.mp (hall h hh)
      have how := HalfSpace.holds_toConstraint.mp (hall o mem)
      rw [hneg o opposite w] at how
      rcases contradiction with hless | ⟨hzero, hnone⟩
      · omega
      · refine Constraint.not_holds_of_normalize hnone w ?_
        rw [Constraint.holds_eq, Affine.value_mk]
        omega
  | merge o e mem opposite meet normal =>
      exact .merge hn hh mem (hneg o opposite) meet (Constraint.sameSet_of_normalize normal)

/-- Comparing half-spaces with all others changes no points. -/
theorem refines_meetAll {all hs : List HalfSpace} (hn : (all.map (·.coeffs)).Nodup)
    (hsub : ∀ h ∈ hs, h ∈ all) {r r' : Reduction} (hmeet : meetAll all hs r = .ok r') :
    Refines all r r' :=
  meetAll_induction (P := Refines all r)
    (fun h hh _ _ hr h₁ => hr.trans ((meet_cases hn h₁).refines hn (hsub h hh))) (.refl all r) hmeet

/-! ## inequalities parallel to an equality -/

/-- An equality decides the half-space with its own coefficients. -/
theorem holds_parallel {e : Constraint} {h : HalfSpace} (hkind : e.kind = .equality)
    (hcoeffs : h.coeffs = e.coeffs) {w : Valuation} (hw : e.Holds w) :
    h.toConstraint.Holds w ↔ ¬ h.constant < e.constant := by
  have hvalue : Coeffs.dot e.coeffs w + e.constant = 0 := (Constraint.holds_of_kind_eq hkind).mp hw
  rw [HalfSpace.holds_toConstraint, hcoeffs]
  omega

/-- An equality decides the half-space with the opposite coefficients. -/
theorem holds_opposite {e : Constraint} {h : HalfSpace} (hkind : e.kind = .equality)
    (hcoeffs : h.coeffs = e.coeffs.map (-·)) {w : Valuation} (hw : e.Holds w) :
    h.toConstraint.Holds w ↔ ¬ h.constant + e.constant < 0 := by
  have hvalue : Coeffs.dot e.coeffs w + e.constant = 0 := (Constraint.holds_of_kind_eq hkind).mp hw
  rw [HalfSpace.holds_toConstraint, hcoeffs, Coeffs.dot_map_neg]
  omega

/-- Dropping what an equality decides changes no points. -/
theorem refines_absorb {all : List HalfSpace} (hn : (all.map (·.coeffs)).Nodup) {r r' : Reduction}
    {e : Constraint} (he : e ∈ r.equalities) (hkind : e.kind = .equality)
    (habsorb : r.absorb all e = .ok r') : Refines all r r' := by
  obtain ⟨r₁, hparallel, hopposite⟩ := absorb_cases hn habsorb
  have he₁ : e ∈ r₁.equalities := hparallel.equalities ▸ he
  refine (hparallel.refines hn he fun g hcs w hw => ?_).trans
    (hopposite.refines hn he₁ fun g hcs w hw => ?_)
  · rw [decide_eq_false_iff_not]
    exact holds_parallel hkind hcs hw
  · rw [decide_eq_false_iff_not]
    exact holds_opposite hkind hcs hw

/-- Dropping what the equalities decide changes no points. -/
theorem refines_absorbAll {all : List HalfSpace} (hn : (all.map (·.coeffs)).Nodup)
    {es : List Constraint} {r r' : Reduction}
    (hes : ∀ e ∈ es, e ∈ r.equalities ∧ e.kind = .equality)
    (habsorb : absorbAll all es r = .ok r') : Refines all r r' := by
  refine (absorbAll_induction (P := fun r' => Refines all r r' ∧ r'.equalities = r.equalities)
    (fun e he _ _ hr h₁ => ?_) ⟨.refl all r, rfl⟩ habsorb).1
  obtain ⟨hmem, hkind⟩ := hes e he
  exact ⟨hr.1.trans (refines_absorb hn (hr.2 ▸ hmem) hkind h₁),
    (equalities_absorb hn h₁).trans hr.2⟩

/-! ## what is kept -/

/-- The kept constraints have the points of the sorted ones. -/
theorem Refines.holds_rows {t : Sorted} {r : Reduction}
    (h : Refines t.halfSpaces t.start r) (hinf : r.infeasible = false) (w : Valuation) :
    (∀ c ∈ rows t r, c.Holds w) ↔ t.Holds w := by
  constructor
  · intro hw
    obtain ⟨hbase, hdropped⟩ := h.exact w ⟨hinf, fun e he => hw e (mem_rows.mpr (Or.inl he))⟩
    refine ⟨hbase.1, hbase.2, fun g hg => ?_⟩
    by_cases hd : g.coeffs ∈ r.dropped
    · exact (hdropped g hg hd).resolve_left List.not_mem_nil
    · exact hw _ (mem_rows.mpr (Or.inr ⟨g, hg, hd, rfl⟩))
  · intro hw c hc
    rcases mem_rows.mp hc with hc | ⟨g, hg, -, rfl⟩
    · exact (h.sound w hw.2.2 ⟨hw.1, hw.2.1⟩).2 c hc
    · exact hw.2.2 g hg

/-- Every kept constraint has the variables of one that was there before. -/
theorem Refines.origin_rows {cs : List Constraint} {t : Sorted} {r : Reduction} (ht : t.From cs)
    (h : Refines t.halfSpaces t.start r) :
    ∀ c ∈ rows t r, ∃ d ∈ cs, Constraint.SameSupport d c := by
  have hhalf : ∀ g ∈ t.halfSpaces, ∃ d ∈ cs, Constraint.SameSupport d g.toConstraint := by
    intro g hg
    obtain ⟨d, hd, hcoeffs⟩ := ht.halfSpace g hg
    exact ⟨d, hd, .of_coeffs_eq hcoeffs⟩
  intro c hc
  rcases mem_rows.mp hc with hc | ⟨g, hg, -, rfl⟩
  · rcases h.origin c hc with hc | ⟨-, g, hg, hsupp⟩
    · exact ⟨c, ht.equality c hc, .refl c⟩
    · obtain ⟨d, hd, hdg⟩ := hhalf g hg
      exact ⟨d, hd, hdg.trans hsupp⟩
  · exact hhalf g hg

end Reduction

/-! ## the whole polyhedron -/

/-- What simplification does: the variables stay, an infeasible result has no
constraints, the points are the same, and every constraint has the variables of
one that was there before. -/
structure Simplified (s t : Polyhedron) : Prop where
  nVars : t.nVars = s.nVars
  infeasible : t.infeasible = true → t.constraints = []
  holds : ∀ w, t.Holds w ↔ s.Holds w
  origin : ∀ c ∈ t.constraints, ∃ d ∈ s.constraints, Constraint.SameSupport d c

/-- Simplification that succeeds is described by `Simplified`. -/
theorem simplified_of_simplify {s t : Polyhedron} (h : s.simplify = .ok t) : Simplified s t := by
  cases hinf : s.infeasible with
  | true =>
      simp only [simplify, hinf, if_true, Except.ok.injEq] at h
      subst h
      exact ⟨rfl, fun _ => rfl, fun w => by simp [Holds, hinf], fun c hc => by simp at hc⟩
  | false =>
      have hfrom := s.sorted_from
      obtain ⟨r₁, r₂, hmeet, habsorb, rfl⟩ := simplify_eq_ok hinf h
      have hr₁ := Reduction.refines_meetAll hfrom.nodup (fun _ hh => hh) hmeet
      have hr₂ := hr₁.trans (Reduction.refines_absorbAll hfrom.nodup
        (fun e he => ⟨he, hfrom.kind_meetAll hmeet e he⟩) habsorb)
      split
      · next hinf₂ =>
        refine ⟨rfl, fun _ => rfl, fun w => ?_, fun c hc => by simp at hc⟩
        rw [← holds_sorted hinf]
        refine ⟨fun hw => absurd hw.1 (by simp), fun hw => ?_⟩
        -- a point of the sorted constraints would be one of the reduction
        have := (hr₂.sound w hw.2.2 ⟨hw.1, hw.2.1⟩).1
        exact absurd hinf₂ (by simp [this])
      · next hinf₂ =>
        rw [Bool.not_eq_true] at hinf₂
        refine ⟨rfl, fun hc => absurd hc (by simp [hinf]), fun w => ?_, hr₂.origin_rows hfrom⟩
        rw [← holds_sorted hinf, ← hr₂.holds_rows hinf₂, Holds]
        exact and_iff_right hinf

theorem WellFormed.simplify {s t : Polyhedron} (hs : s.WellFormed) (h : s.simplify = .ok t) :
    t.WellFormed := by
  have hsimp := simplified_of_simplify h
  intro c hc
  obtain ⟨d, hd, hsupp⟩ := hsimp.origin c hc
  rw [hsupp.length, hs d hd, hsimp.nVars]

/-- Simplification brings no variable back. -/
theorem Simplified.involves_eq_false {s t : Polyhedron} (h : Simplified s t) {v : Nat}
    (hv : s.involves v = false) : t.involves v = false := by
  rw [Polyhedron.involves_eq_false] at hv ⊢
  intro c hc
  obtain ⟨d, hd, hsupp⟩ := h.origin c hc
  exact (hsupp.coeff_eq_zero v).mpr (hv d hd)

end Polyhedron

end KernelMap
