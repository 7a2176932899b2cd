import KernelMap.Proofs.Stride

/-!
# KernelMap.Proofs.Bound

The bound of an output holds at every point of the access.

A candidate that passes the check is a lower bound on the output in all relations,
and its size is a bound on the distance from it; both are read off the answers of
the constraint engine.  `Bound.Admits` says in exact arithmetic what a bound
promises about an index.

Main statement: `Bound.admits_of_infer`.
-/

namespace KernelMap

/-! ## what a bound promises -/

/-- The exact value `⌈form / denom⌉`. -/
def LowerBound.value (l : LowerBound) (w : Valuation) : Int := -((-l.form.value w).fdiv l.denom)

/-- The index lies on the stride, and its quotient in the range of the bound. -/
def Bound.Admits (b : Bound) (w : Valuation) (index : Int) : Prop :=
  ∃ q, Stride.IsQuotient b.stride w index q ∧ 0 ≤ q - b.lower.value w ∧ q - b.lower.value w < b.size

/-- The denominator is positive, the stride is a proper one, and everything is a
form in the variables before `x`. -/
structure Bound.Regular (x : Nat) (b : Bound) : Prop where
  denom : 0 < b.lower.denom
  form : ∀ i, x ≤ i → b.lower.form.coeff i = 0
  stride : ∀ st, b.stride = some st → st.Regular x
  size : Word.fits b.size = true

namespace Candidate

/-! ## candidates -/

/-- The factor is positive, and the rest is a form in the variables before `x`. -/
structure Regular (x : Nat) (c : Candidate) : Prop where
  factor : 0 < c.factor
  rest : ∀ i, x ≤ i → c.rest.coeff i = 0

/-- A lower bound read off a constraint is regular. -/
theorem regular_of_ofConstraint {x : Nat} {c : Constraint} {r : Candidate}
    (hc : ∀ v, x < v → c.coeff v = 0) (h : ofConstraint x c = .ok (some r)) : r.Regular x := by
  unfold ofConstraint at h
  dsimp only at h
  split at h
  · simp at h
  · next hm =>
    simp only [Bool.or_eq_true, decide_eq_true_eq, not_or] at hm
    simp only [Outcome.bind_eq_ok, Outcome.pure_eq_ok, Option.some.injEq] at h
    obtain ⟨e, he, rfl⟩ := h
    refine ⟨by simpa using hm.1, fun i hi => ?_⟩
    rw [Affine.coeff_setCoeff]
    split
    · rfl
    · rw [(Affine.scale_eq_ok he).1]
      have hzero : c.expr.coeff i = 0 := hc i (by omega)
      rw [hzero, mul_zero]

theorem regular_of_collect {x : Nat} {cs : List Constraint} {found r : List Candidate}
    (hcs : ∀ c ∈ cs, ∀ v, x < v → c.coeff v = 0) (hfound : ∀ k ∈ found, k.Regular x)
    (h : collect x cs found = .ok r) : ∀ k ∈ r, k.Regular x := by
  induction cs generalizing found with
  | nil =>
      simp only [collect, Except.ok.injEq] at h
      exact h ▸ hfound
  | cons c cs ih =>
      obtain ⟨hc, hcs⟩ := List.forall_mem_cons.mp hcs
      simp only [collect, Outcome.bind_eq_ok] at h
      obtain ⟨o, ho, h⟩ := h
      cases o with
      | none => exact ih hcs hfound h
      | some k =>
          refine ih hcs (fun j hj => ?_) h
          split at hj
          · exact hfound j hj
          · rcases List.mem_append.mp hj with hj | hj
            · exact hfound j hj
            · rw [List.mem_singleton.mp hj]
              exact regular_of_ofConstraint hc ho

/-- A valid candidate bounds the output from below in every relation. -/
theorem nonneg_of_isValid {x : Nat} {ss : List Polyhedron} {c : Candidate}
    (hss : ∀ s ∈ ss, s.WellFormed) (h : c.isValid x ss = .ok true) :
    ∀ s ∈ ss, ∀ w, s.Holds w → 0 ≤ c.factor * w x + c.rest.value w := by
  simp only [isValid, Outcome.bind_eq_ok] at h
  obtain ⟨e, he, violated, hviolated, h⟩ := h
  intro s hs w hw
  have hneg := Polyhedron.neg_of_allM_isEmpty hss h s hs w hw
  rw [Affine.value_addConst hviolated, Affine.value_sub he, Affine.value_term] at hneg
  linarith

/-- The exact value of the candidate's bound on the output. -/
def lower (c : Candidate) (w : Valuation) : Int := -((c.rest.value w).fdiv c.factor)

/-- The bound is the least integer that satisfies the candidate. -/
theorem lower_spec {c : Candidate} (hc : 0 < c.factor) (w : Valuation) :
    0 ≤ c.factor * c.lower w + c.rest.value w ∧ c.factor * c.lower w + c.rest.value w ≤
      c.factor - 1 ∧
      ∀ z, 0 ≤ c.factor * z + c.rest.value w → c.lower w ≤ z := by
  have hdiv := Int.emod_add_mul_ediv (c.rest.value w) c.factor
  have hnonneg := Int.emod_nonneg (c.rest.value w) hc.ne'
  have hlt := Int.emod_lt_of_pos (c.rest.value w) hc
  rw [lower, Int.fdiv_eq_ediv_of_nonneg _ hc.le]
  refine ⟨by linarith, by linarith, fun z hz => ?_⟩
  have hle : -z ≤ c.rest.value w / c.factor := (Int.le_ediv_iff_mul_le hc).mpr (by linarith)
  omega

/-! ## sizes -/

/-- The objective counts the indices from the bound up to the output. -/
theorem objective_eq_ok {x : Nat} {c : Candidate} {s t : Polyhedron} {e : Affine} (hc : c.Regular x)
    (hs : s.WellFormed) (hx : x < s.nVars) (h : c.objective x s = .ok (t, e)) :
    t.WellFormed ∧ (∀ i, t.nVars ≤ i → e.coeff i = 0) ∧
      ∀ w, s.Holds w → ∃ w', t.Holds w' ∧ e.value w' = w x - c.lower w + 1 := by
  unfold objective at h
  split at h
  · next hone =>
    simp only [Outcome.bind_eq_ok, Outcome.pure_eq_ok, Prod.mk.injEq] at h
    obtain ⟨a, ha, b, hb, rfl, rfl⟩ := h
    refine ⟨hs, fun i hi => ?_, fun w hw => ⟨w, hw, ?_⟩⟩
    · rw [Affine.addConst_eq_ok hb]
      have hsum : a.coeff i = 0 := by
        rw [(Affine.add_eq_ok ha).1, Affine.coeff_var, if_neg (by omega),
          hc.rest i (by omega), add_zero]
      exact hsum
    · rw [Affine.value_addConst hb, Affine.value_add ha, Affine.value_var, lower,
        hone, Int.fdiv_one]
      ring
  · simp only [Outcome.bind_eq_ok, Outcome.pure_eq_ok, Prod.mk.injEq] at h
    obtain ⟨s₁, h₁, low, hlow, s₂, h₂, neg, hneg, up, hup, s₃, h₃, a, ha, b, hb, rfl, rfl⟩ := h
    have hn₁ : s₁.nVars = s.nVars + 1 := by rw [Polyhedron.addVars_eq_ok h₁]
    have hn₂ := (Polyhedron.add_eq_ok h₂).1
    have hn₃ := (Polyhedron.add_eq_ok h₃).1
    refine ⟨((hs.addVars h₁).add h₂).add h₃, fun i hi => ?_, fun w hw => ?_⟩
    · rw [Affine.addConst_eq_ok hb]
      have hdiff : a.coeff i = 0 := by
        rw [(Affine.sub_eq_ok ha).1, Affine.coeff_var, Affine.coeff_var, if_neg (by omega),
          if_neg (by omega), sub_zero]
      exact hdiff
    · -- the further variable takes the value of the bound
      let w' : Valuation := Function.update w s.nVars (c.lower w)
      have hlast : w' s.nVars = c.lower w := Function.update_self ..
      have hold : w' x = w x := Function.update_of_ne (by omega) _ _
      have hrest : c.rest.value w' = c.rest.value w := Affine.value_update (hc.rest _ hx.le) w _
      have hw₁ : s₁.Holds w' := (Polyhedron.holds_addVars h₁ w').mpr
        ((Polyhedron.holds_update (hs.involves_eq_false le_rfl) w _).mpr hw)
      obtain ⟨hge, hle, -⟩ := lower_spec hc.factor w
      have hvalue : low.value w' = c.factor * c.lower w + c.rest.value w := by
        rw [Affine.value_add hlow, Affine.value_term, hlast, hrest]
      refine ⟨w', (Polyhedron.holds_add h₃ w').mpr
        ⟨(Polyhedron.holds_add h₂ w').mpr ⟨hw₁, ?_⟩, ?_⟩, ?_⟩
      · rw [Constraint.holds_ge, hvalue]
        exact hge
      · rw [Constraint.holds_ge, Affine.value_addConst hup, Affine.value_scale hneg, hvalue]
        linarith
      · rw [Affine.value_addConst hb, Affine.value_sub ha, Affine.value_var,
          Affine.value_var, hlast, hold]

/-- The size bounds the distance from the candidate's bound to the output in every
relation. -/
theorem le_of_size {x : Nat} {c : Candidate} {ss : List Polyhedron} {best : Option Int} {n : Int}
    (hc : c.Regular x) (hss : ∀ s ∈ ss, s.WellFormed ∧ x < s.nVars)
    (hbest : ∀ b, best = some b → Word.fits b = true) (h : c.size x ss best = .ok (some n)) :
    Word.fits n = true ∧ (∀ b, best = some b → b ≤ n) ∧ ∀ s ∈ ss, ∀ w, s.Holds w →
      w x - c.lower w < n := by
  induction ss generalizing best with
  | nil =>
      simp only [size, Except.ok.injEq] at h
      exact ⟨hbest n h, fun b hb => by simp_all, by simp⟩
  | cons s ss ih =>
      obtain ⟨⟨hs, hx⟩, hss⟩ := List.forall_mem_cons.mp hss
      simp only [size, Outcome.bind_eq_ok] at h
      obtain ⟨⟨t, e⟩, hte, o, ho, h⟩ := h
      obtain ⟨ht, he, hpoint⟩ := objective_eq_ok hc hs hx hte
      cases o with
      | unbounded => simp at h
      | empty =>
          obtain ⟨hfits, hle, hrest⟩ := ih hss hbest h
          refine ⟨hfits, hle, List.forall_mem_cons.mpr ⟨fun w hw => ?_, hrest⟩⟩
          obtain ⟨w', hw', -⟩ := hpoint w hw
          exact absurd hw' (Polyhedron.not_holds_of_maximize ht he ho w')
      | value v =>
          have hv := Polyhedron.fits_of_maximize ho
          have hlargest : ∀ b, some (best.elim v (max · v)) = some b → Word.fits b = true ∧ v ≤ b ∧
              ∀ d, best = some d → d ≤ b := by
            intro b hb
            obtain rfl := Option.some.inj hb
            cases best with
            | none => simpa using hv
            | some d =>
                refine ⟨?_, by simp, by simp⟩
                rcases max_choice d v with hmax | hmax <;> simp only [Option.elim_some, hmax]
                · exact hbest d rfl
                · exact hv
          obtain ⟨hfits, hle, hrest⟩ := ih hss (fun b hb => (hlargest b hb).1) h
          have hstep := hle _ rfl
          obtain ⟨-, hvle, hdle⟩ := hlargest _ rfl
          refine ⟨hfits, fun d hd => (hdle d hd).trans hstep,
            List.forall_mem_cons.mpr ⟨fun w hw => ?_, hrest⟩⟩
          obtain ⟨w', hw', hval⟩ := hpoint w hw
          have hmax := Polyhedron.value_le_of_maximize ht he ho hw'
          omega

/-- The bound that is chosen is the one from before or a valid candidate with its size. -/
theorem choose_eq_ok {x : Nat} {ss : List Polyhedron} {cs : List Candidate}
    {best : Option (Int × Candidate)} {n : Int} {c : Candidate}
    (h : choose x ss cs best = .ok (some (n, c))) :
    best = some (n, c) ∨
      (c ∈ cs ∧ c.isValid x ss = .ok true ∧ c.size x ss none = .ok (some n)) := by
  induction cs generalizing best with
  | nil =>
      simp only [choose, Except.ok.injEq] at h
      exact Or.inl h
  | cons k cs ih =>
      have hrest : ∀ {b : Option (Int × Candidate)}, choose x ss cs b = .ok (some (n, c)) →
          b = some (n, c) ∨
          (c ∈ k :: cs ∧ c.isValid x ss = .ok true ∧ c.size x ss none = .ok (some n)) := fun hb =>
        (ih hb).imp_right fun hc => ⟨by simp [hc.1], hc.2⟩
      simp only [choose, Outcome.bind_eq_ok] at h
      obtain ⟨valid, hvalid, h⟩ := h
      split at h
      · next htrue =>
        simp only [Outcome.bind_eq_ok] at h
        obtain ⟨o, ho, h⟩ := h
        cases o with
        | none => exact hrest h
        | some m =>
            rcases hrest h with hbest | hfound
            · split at hbest
              · simp only [Option.some.injEq, Prod.mk.injEq] at hbest
                obtain ⟨rfl, rfl⟩ := hbest
                exact Or.inr ⟨by simp, htrue ▸ hvalid, ho⟩
              · exact Or.inl hbest
            · exact Or.inr hfound
      · exact hrest h

theorem rest_update {x : Nat} {c : Candidate} (hc : c.Regular x) (w : Valuation) (q : Int) :
    c.rest.value (Function.update w x q) = c.rest.value w :=
  Affine.value_update (hc.rest _ le_rfl) w q

theorem lower_update {x : Nat} {c : Candidate} (hc : c.Regular x) (w : Valuation) (q : Int) :
    c.lower (Function.update w x q) = c.lower w := by
  rw [lower, rest_update hc, lower]

/-- The bound made from a candidate has its value. -/
theorem value_lowerBound {x : Nat} {c : Candidate} {form : Affine} (hc : c.Regular x)
    (hform : c.rest.scale (-1) = .ok form) (w : Valuation) :
    LowerBound.value ⟨form.truncated x, c.factor⟩ w = c.lower w := by
  have hcoeff : ∀ i, x ≤ i → form.coeff i = 0 := fun i hi => by
    rw [(Affine.scale_eq_ok hform).1, hc.rest i hi, mul_zero]
  rw [LowerBound.value, Affine.value_truncated hcoeff, Affine.value_scale hform, lower]
  simp

end Candidate

/-! ## the inferred bound -/

/-- Every relation has an exact quotient at each of its points. -/
theorem Stride.exists_isQuotient {x : Nat} {ss : List Polyhedron} {stride : Option Stride}
    (h : Polyhedron.commonStride x ss none = .ok stride) :
    (∀ st, stride = some st → st.Regular x) ∧
      ∀ s ∈ ss, ∀ w, s.Holds w → ∃ q, IsQuotient stride w (w x) q := by
  cases stride with
  | none => exact ⟨by simp, fun s _ w _ => ⟨w x, rfl⟩⟩
  | some st =>
      obtain ⟨hregular, hdvd⟩ := Polyhedron.dvd_of_commonStride h
      exact ⟨fun _ hst => Option.some.inj hst ▸ hregular, hdvd⟩

/-- The relations between outer variables and the quotient, for all prepared
relations. -/
theorem Polyhedron.projectAll_eq_ok {x : Nat} {stride : Option Stride}
    {relations projected : List Polyhedron} (hwf : ∀ r ∈ relations, r.WellFormed ∧ x < r.nVars)
    (hregular : ∀ st, stride = some st → st.Regular x)
    (h : relations.mapM (fun r => r.projectOutput x stride) = .ok projected) :
    (∀ t ∈ projected, (t.WellFormed ∧ x < t.nVars) ∧ ∀ v, x < v → t.involves v = false) ∧
      ∀ r ∈ relations, ∀ w q, r.Holds w → Stride.IsQuotient stride w (w x) q →
        ∃ t ∈ projected, t.Holds (Function.update w x q) := by
  constructor
  · intro t ht
    obtain ⟨r, hr, hrt⟩ := Outcome.exists_of_mem_of_mapM h ht
    obtain ⟨htwf, hx, hgone, -⟩ := projectOutput_eq_ok (hwf r hr).1 (hwf r hr).2 hregular hrt
    exact ⟨⟨htwf, hx⟩, hgone⟩
  · intro r hr w q hw hq
    obtain ⟨t, ht, hrt⟩ := Outcome.exists_of_mem_mapM h hr
    obtain ⟨-, -, -, hpoint⟩ := projectOutput_eq_ok (hwf r hr).1 (hwf r hr).2 hregular hrt
    exact ⟨t, ht, hpoint w q hw hq⟩

/-- The inferred bound admits the output at every point of every relation. -/
theorem Bound.admits_of_infer {a : Access} {b : Bound} (ha : a.WellFormed)
    (h : infer a = .ok (some b)) : b.Regular (a.nParam + a.nIn) ∧
      ∀ p ∈ a.pieces, ∀ w, p.relation.Holds w → b.Admits w (w (a.nParam + a.nIn)) := by
  unfold infer at h
  split at h
  · simp at h
  next hout =>
  simp only [Outcome.bind_eq_ok] at h
  obtain ⟨relations, hrelations, h⟩ := h
  split at h
  · simp at h
  simp only [Outcome.bind_eq_ok] at h
  obtain ⟨stride, hstride, projected, hprojected, candidates, hcandidates, best, hbest, h⟩ := h
  cases best with
  | none => simp at h
  | some found =>
      obtain ⟨n, c⟩ := found
      simp only [Outcome.bind_eq_ok, Outcome.pure_eq_ok, Option.some.injEq] at h
      obtain ⟨form, hform, rfl⟩ := h
      have hwf : ∀ s ∈ a.pieces.map (·.relation), s.WellFormed ∧ a.nParam + a.nIn < s.nVars := by
        intro s hs
        obtain ⟨p, hp, rfl⟩ := List.mem_map.mp hs
        obtain ⟨hp, hle⟩ := ha p hp
        exact ⟨hp, by omega⟩
      obtain ⟨hfrom, hpoints⟩ := Polyhedron.prepareAll_eq_ok (fun s hs => (hwf s hs).1) hrelations
      have hprepared : ∀ r ∈ relations, r.WellFormed ∧ a.nParam + a.nIn < r.nVars := by
        intro r hr
        obtain ⟨s, hs, hrelax⟩ := hfrom r hr
        exact ⟨hrelax.wellFormed, hrelax.nVars ▸ (hwf s hs).2⟩
      obtain ⟨hregular, hquotient⟩ := Stride.exists_isQuotient hstride
      obtain ⟨hshape, hproject⟩ := Polyhedron.projectAll_eq_ok hprepared hregular hprojected
      obtain ⟨hmem, hvalid, hsize⟩ := (Candidate.choose_eq_ok hbest).resolve_left (by simp)
      have hc : c.Regular (a.nParam + a.nIn) := by
        refine Candidate.regular_of_collect (fun d hd v hv => ?_) (by simp) hcandidates c hmem
        obtain ⟨t, ht, hd⟩ := List.mem_flatMap.mp hd
        exact Polyhedron.involves_eq_false.mp ((hshape t ht).2 v hv) d hd
      obtain ⟨hfits, -, hlt⟩ := Candidate.le_of_size hc (fun t ht => (hshape t ht).1)
        (by simp) hsize
      have hnonneg := Candidate.nonneg_of_isValid (fun t ht => (hshape t ht).1.1) hvalid
      refine ⟨⟨hc.factor, fun i hi => ?_, hregular, hfits⟩, fun p hp w hw => ?_⟩
      · rw [Affine.coeff_truncated, if_neg (by omega)]
      · -- follow the point through preparation and projection to the chosen candidate
        obtain ⟨r, hr, hrw⟩ := hpoints p.relation (List.mem_map_of_mem hp) w hw
        obtain ⟨q, hq⟩ := hquotient r hr w hrw
        obtain ⟨t, ht, htw⟩ := hproject r hr w q hrw hq
        have hbelow := hnonneg t ht _ htw
        have habove := hlt t ht _ htw
        rw [Function.update_self, Candidate.rest_update hc] at hbelow
        rw [Function.update_self, Candidate.lower_update hc] at habove
        have hle := (Candidate.lower_spec hc.factor w).2.2 q hbelow
        refine ⟨q, hq, ?_, ?_⟩ <;> dsimp only <;> rw [Candidate.value_lowerBound hc hform]
        · omega
        · exact habove

end KernelMap
