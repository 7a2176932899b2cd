import KernelMap.Proofs.Normal
import KernelMap.Proofs.Placement

/-!
# KernelMap.Proofs.Isolation

A coordinate that is constant in every statement does not show in a tile.

In the relation of a reference such a coordinate has a constraint of its own, `xⱼ = k`, and occurs
in no other one (`Polyhedron.Isolates`).  A variable can only be eliminated with constraints that
involve it, so eliminating other variables leaves that constraint alone, and no bound on an output
mentions the coordinate.

Main statement: `Tile.involves_of_infer?`.
-/

namespace KernelMap

/-! ## constraints of one variable -/

namespace Constraint

/-- Variable `j` does not occur in the constraint, or no other one does. -/
def Isolates (j : Nat) (c : Constraint) : Prop := c.coeff j = 0 ∨ ∀ i, i ≠ j → c.coeff i = 0

variable {j v : Nat} {c d : Constraint}

/-- A constraint without new variables isolates what the old one did. -/
theorem Isolates.of_coeff (h : c.Isolates j) (hcd : ∀ i, c.coeff i = 0 → d.coeff i = 0) :
    d.Isolates j :=
  h.imp (hcd j) fun hc i hi => hcd i (hc i hi)

theorem Isolates.of_sameSupport (h : c.Isolates j) (hcd : SameSupport c d) : d.Isolates j :=
  h.of_coeff fun i => (hcd.coeff_eq_zero i).mpr

theorem coeff_pad (c : Constraint) (n i : Nat) : (c.pad n).coeff i = c.coeff i :=
  Coeffs.get_pad n c.coeffs i

/-- Where another variable occurs, `j` does not. -/
theorem Isolates.coeff_eq_zero (h : c.Isolates j) (hv : v ≠ j) (hc : c.coeff v ≠ 0) :
    c.coeff j = 0 :=
  h.resolve_right fun hother => hc (hother v hv)

/-- A constraint made from terms has no other variables than these. -/
theorem coeff_ofTerms {ε : Type} {kind : Kind} {terms : List (Nat × Int)} {k : Int} {i : Nat}
    (h : (ofTerms kind terms k : Outcome ε Constraint) = .ok c) (hi : ∀ t ∈ terms, t.1 ≠ i) :
    c.coeff i = 0 := by
  simp only [ofTerms] at h
  split at h
  · simp at h
  simp only [Outcome.bind_eq_ok, Outcome.pure_eq_ok] at h
  obtain ⟨cs, hcs, rfl⟩ := h
  have hadd : ∀ {terms : List (Nat × Int)} {as bs : List Int},
      (addTerms terms as : Outcome ε (List Int)) = .ok bs → (∀ t ∈ terms, t.1 ≠ i) →
        Coeffs.get bs i = Coeffs.get as i := by
    intro terms
    induction terms with
    | nil =>
        intro as bs h _
        simp only [addTerms, Except.ok.injEq] at h
        rw [h]
    | cons t terms ih =>
        intro as bs h hi
        obtain ⟨v, k⟩ := t
        simp only [addTerms, Outcome.bind_eq_ok] at h
        obtain ⟨sum, -, h⟩ := h
        obtain ⟨hv, hrest⟩ := List.forall_mem_cons.mp hi
        rw [ih h hrest, Coeffs.get, Coeffs.get, List.getD_eq_getElem?_getD,
          List.getD_eq_getElem?_getD, List.getElem?_set_ne hv]
  exact (hadd hcs hi).trans (Coeffs.get_replicate_zero _ _)

/-- A lowered constraint has only variables of the map. -/
theorem coeff_lower {ε : Type} {map : List Nat} {i : Nat}
    (h : (c.lower map : Outcome ε Constraint) = .ok d) (hi : i ∉ map) : d.coeff i = 0 := by
  simp only [lower, Outcome.bind_eq_ok] at h
  obtain ⟨terms, hterms, h⟩ := h
  refine coeff_ofTerms h ?_
  clear h
  generalize c.coeffs = cs at hterms
  fun_induction @placeTerms ε cs map generalizing terms with
  | case1 => simp [← Except.ok.inj hterms]
  | case2 cs ih => exact ih hi _ hterms
  | case3 => simp at hterms
  | case4 c cs k is ih =>
      simp only [Outcome.bind_eq_ok, Outcome.pure_eq_ok] at hterms
      obtain ⟨rest, hrest, rfl⟩ := hterms
      rw [List.mem_cons, not_or] at hi
      have := ih hi.2 _ hrest
      split
      · exact this
      · exact List.forall_mem_cons.mpr ⟨Ne.symm hi.1, this⟩

end Constraint

/-- A renamed form has only variables of the map. -/
theorem Affine.coeff_remapped {ε : Type} {a r : Affine} {map : List Nat} {i : Nat}
    (h : (a.remapped map : Outcome ε Affine) = .ok r) (hi : i ∉ map) : r.coeff i = 0 := by
  have honto : ∀ {cs : List Int} {map : List Nat} {out r : Affine},
      (remapOnto cs map out : Outcome ε Affine) = .ok r → i ∉ map → r.coeff i = out.coeff i := by
    intro cs map out r h hi
    fun_induction @remapOnto ε cs map out with
    | case1 => rw [← Except.ok.inj h]
    | case2 cs out ih => exact ih h hi
    | case3 => simp at h
    | case4 cs k is out ih => exact ih h (List.not_mem_of_not_mem_cons hi)
    | case5 c cs k is out hc ih =>
        simp only [Outcome.bind_eq_ok, Outcome.orFault_eq_ok, setCoeff?,
          Option.ite_none_left_eq_some, Option.some.injEq] at h
        obtain ⟨sum, -, _, ⟨-, rfl⟩, h⟩ := h
        rw [List.mem_cons, not_or] at hi
        rw [ih _ h hi.2, coeff_setCoeff, if_neg hi.1]
  rw [honto h hi, coeff_const]

namespace Polyhedron

/-- No constraint involves variable `j` together with another one. -/
def Isolates (s : Polyhedron) (j : Nat) : Prop := ∀ c ∈ s.constraints, c.Isolates j

variable {ε : Type} {s t : Polyhedron} {j v x : Nat}

theorem isolates_empty (n j : Nat) : (empty n).Isolates j := by
  simp [Isolates, empty]

/-! ## adding constraints -/

/-- New variables leave `j` isolated. -/
theorem Isolates.addVars {n : Nat} (hs : s.Isolates j)
    (h : (s.addVars n : Outcome ε Polyhedron) = .ok t) : t.Isolates j := by
  rw [addVars_eq_ok h]
  intro c hc
  obtain ⟨d, hd, rfl⟩ := List.mem_map.mp hc
  exact (hs d hd).of_coeff fun i => by rw [Constraint.coeff_pad]; exact id

/-- Adding a constraint that isolates `j` leaves it isolated. -/
theorem Isolates.add {c : Constraint} (hs : s.Isolates j) (hc : c.Isolates j)
    (h : (s.add c : Outcome ε Polyhedron) = .ok t) : t.Isolates j := by
  have hpad : ∀ (d : Constraint) (n : Nat), d.Isolates j → (d.pad n).Isolates j := fun d n hd =>
    hd.of_coeff fun i => by rw [Constraint.coeff_pad]; exact id
  exact forall_mem_add hpad hs (fun n d hd _ =>
    (hpad c n hc).of_sameSupport (Constraint.sameSet_of_normalize hd).toSameSupport) h

/-- Constraints lowered to other variables leave `j` isolated. -/
theorem Isolates.addAllLowered {map : List Nat} {cs : List Constraint} (hs : s.Isolates j)
    (hj : j ∉ map) (h : (s.addAllLowered map cs : Outcome ε Polyhedron) = .ok t) :
    t.Isolates j := by
  induction cs generalizing s with
  | nil => exact Except.ok.inj h ▸ hs
  | cons c cs ih =>
      simp only [Polyhedron.addAllLowered, addLowered, Outcome.bind_eq_ok] at h
      obtain ⟨u, ⟨d, hd, hu⟩, h⟩ := h
      exact ih (hs.add (Or.inl (Constraint.coeff_lower hd hj)) hu) h

/-- Embedding coefficients changes only the places that they are sent to. -/
theorem get_of_embedCoeffs {cs : List Int} {map : List Nat} {out r : List Int} {i : Nat}
    (h : (embedCoeffs cs map out : Outcome ε (List Int)) = .ok r)
    (hi : ∀ k, Coeffs.get cs k ≠ 0 → map.getD k 0 ≠ i) : Coeffs.get r i = Coeffs.get out i := by
  fun_induction @embedCoeffs ε cs map out with
  | case1 => rw [Except.ok.inj h]
  | case2 cs out ih => exact ih h fun k hk => hi (k + 1) hk
  | case3 => simp at h
  | case4 cs k is out ih => exact ih h fun k hk => hi (k + 1) hk
  | case5 c cs k is out hc ih =>
      simp only [Outcome.bind_eq_ok] at h
      obtain ⟨old, -, sum, -, h⟩ := h
      have hne : k ≠ i := hi 0 hc
      rw [ih _ h fun k hk => hi (k + 1) hk, Coeffs.get, Coeffs.get, List.getD_eq_getElem?_getD,
        List.getD_eq_getElem?_getD, List.getElem?_set_ne hne]

/-- A renumbering that leaves `j` in place. -/
theorem Isolates.embed {n : Nat} {f : Nat → Nat} (hs : s.Isolates j) (hwf : s.WellFormed)
    (hf : ∀ k, k < s.nVars → (f k = j ↔ k = j))
    (h : (s.embed n ((List.range s.nVars).map f) : Outcome ε Polyhedron) = .ok t) :
    t.Isolates j := by
  -- the renumbered constraints are added one by one
  have honto : ∀ {cs : List Constraint} {u : Polyhedron}, u.Isolates j →
      (∀ c ∈ cs, c ∈ s.constraints) →
      (embedOnto ((List.range s.nVars).map f) u cs : Outcome ε Polyhedron) = .ok t →
      t.Isolates j := by
    intro cs
    induction cs with
    | nil => exact fun hu _ h => Except.ok.inj h ▸ hu
    | cons c cs ih =>
        intro u hu hcs h
        simp only [embedOnto] at h
        split at h
        · simp at h
        simp only [Outcome.bind_eq_ok] at h
        obtain ⟨ds, hds, u', hu', h⟩ := h
        obtain ⟨hc, hcs⟩ := List.forall_mem_cons.mp hcs
        refine ih (hu.add ?_ hu') hcs h
        have hmap : ∀ k, c.coeff k ≠ 0 → ((List.range s.nVars).map f).getD k 0 = f k ∧
            k < s.nVars := by
          intro k hk
          have hlt : k < s.nVars := by
            by_contra hge
            exact hk (Coeffs.get_of_length_le ((hwf c hc).le.trans (by omega)))
          exact ⟨by simp [List.getD_eq_getElem?_getD, hlt], hlt⟩
        have hgone : ∀ i, (∀ k, c.coeff k ≠ 0 → f k ≠ i) → Coeffs.get ds i = 0 := fun i hi =>
          (get_of_embedCoeffs hds fun k hk => (hmap k hk).1 ▸ hi k hk).trans
            (Coeffs.get_replicate_zero _ _)
        refine (hs c hc).imp (fun hzero => hgone j fun k hk heq => hk ?_) fun honly i hi =>
          hgone i fun k hk heq => ?_
        · rw [((hf k (hmap k hk).2).mp heq), hzero]
        · have hkj : k = j := by_contra fun hne => hk (honly k hne)
          exact hi (heq ▸ (hf k (hmap k hk).2).mpr hkj)
  have hstart : ({ empty n with infeasible := s.infeasible } : Polyhedron).Isolates j :=
    isolates_empty n j
  exact honto hstart (fun _ hc => hc) h

/-! ## simplification and elimination -/

/-- Simplifying leaves `j` isolated. -/
theorem Isolates.simplify (hs : s.Isolates j) (h : s.simplify = .ok t) : t.Isolates j := by
  intro c hc
  obtain ⟨d, hd, hsupp⟩ := (simplified_of_simplify h).origin c hc
  exact (hs d hd).of_sameSupport hsupp

/-- Constraints that isolate `j` can replace those of a system. -/
theorem isolates_replaceBy {cs : List Constraint} {d : Derived}
    (hd : (Derived.none.insertAll cs : Outcome EngineError Derived) = .ok d)
    (hcs : ∀ c ∈ cs, c.Isolates j) (h : s.replaceBy d = .ok t) : t.Isolates j := by
  have hrows := Derived.forall_rows_insertAll
    (fun c e hsupp hc => Constraint.Isolates.of_sameSupport hc hsupp) hd hcs
    (by simp [Derived.none])
  have hderived :
    ({ s with constraints := d.rows.reverse, infeasible := s.infeasible || d.infeasible } :
      Polyhedron).Isolates j := fun c hc => hrows c (List.mem_reverse.mp hc)
  exact hderived.simplify h

theorem Isolates.eliminateWith {pos : Nat} {e : Constraint} (hs : s.Isolates j) (hv : v ≠ j)
    (hpos : s.constraints[pos]? = some e) (he : e.coeff v ≠ 0) (h : s.eliminateWith v pos = .ok t) :
    t.Isolates j := by
  simp only [Polyhedron.eliminateWith, hpos, Outcome.bind_eq_ok, Outcome.orFault_eq_ok,
    Option.some.injEq] at h
  obtain ⟨_, rfl, d, hd, h⟩ := h
  obtain ⟨cs, hd, hfrom, -⟩ := cancelAll_eq_ok hd
  refine isolates_replaceBy hd (fun r hr => ?_) h
  obtain ⟨c, hc, hcancel⟩ := hfrom r hr
  have hci := hs c (List.mem_of_mem_eraseIdx hc)
  unfold cancel at hcancel
  dsimp only at hcancel
  split at hcancel
  · exact Except.ok.inj hcancel ▸ hci
  · next hcv =>
    simp only [Outcome.bind_eq_ok] at hcancel
    obtain ⟨k₁, -, k₂, -, hcancel⟩ := hcancel
    refine Or.inl ?_
    rw [(Constraint.combine_eq_ok hcancel).2.1, hci.coeff_eq_zero hv hcv,
      (hs e (List.mem_of_getElem? hpos)).coeff_eq_zero hv he, mul_zero, mul_zero, add_zero]

/-- Eliminating another variable leaves `j` isolated. -/
theorem Isolates.eliminate (hs : s.Isolates j) (hv : v ≠ j) (h : s.eliminate v = .ok t) :
    t.Isolates j := by
  simp only [Polyhedron.eliminate, Outcome.bind_eq_ok] at h
  obtain ⟨best, hbest, h⟩ := h
  cases best with
  | some p =>
      obtain ⟨pos, size⟩ := p
      obtain ⟨i, e, hi, he, -, hev⟩ :=
        ((smallestEquality_eq_ok hbest).1 (pos, size) rfl).resolve_left (by simp)
      simp only [zero_add] at hi
      exact hs.eliminateWith hv (hi ▸ he) hev h
  | none =>
      simp only [Outcome.bind_eq_ok] at h
      obtain ⟨d₁, hd₁, d, hd, h⟩ := h
      obtain ⟨pairs, hd, hfrom, -⟩ := pairAll_eq_ok hd
      refine isolates_replaceBy (Derived.insertAll_append hd₁ hd)
        (List.forall_mem_append.mpr ⟨?_, ?_⟩) h
      · exact fun c hc => hs c (List.mem_of_mem_filter hc)
      · intro c hc
        obtain ⟨l, hl, u, hu, hpair⟩ := hfrom c hc
        simp only [List.mem_filter, decide_eq_true_eq] at hl hu
        refine Or.inl ?_
        rw [(Constraint.combine_eq_ok hpair).2.1, (hs l hl.1).coeff_eq_zero hv (by omega),
          (hs u hu.1).coeff_eq_zero hv (by omega), mul_zero, mul_zero, add_zero]

/-- Projecting other variables out leaves `j` isolated. -/
theorem Isolates.project {vars : List Nat} (hs : s.Isolates j) (hj : j ∉ vars)
    (h : s.project vars = .ok t) : t.Isolates j := by
  simp only [Polyhedron.project, Outcome.bind_eq_ok] at h
  obtain ⟨u, hu, h⟩ := h
  exact keeps_of_projectRounds (P := (·.Isolates j))
    (fun v hv _ _ hs ht => hs.eliminate (fun heq => hj (heq ▸ hv)) ht) (hs.simplify hu) h

/-! ## making equalities explicit -/

theorem Isolates.tightenAt {i : Nat} {c : Constraint} (hs : s.Isolates j)
    (hc : s.constraints[i]? = some c) (h : s.tightenAt i c = .ok t) : t.Isolates j := by
  have hi := (List.getElem?_eq_some_iff.mp hc).1
  have hci : ({ c with kind := .equality } : Constraint).Isolates j :=
    hs c (List.mem_of_getElem? hc)
  rcases tightenAt_cases h with ⟨e, he, rfl⟩ | ⟨-, rfl⟩
  · exact forall_mem_swapLast hi hs
      (hci.of_sameSupport (Constraint.sameSet_of_normalize he).toSameSupport)
  · exact forall_mem_swapLast hi hs hci

/-- A round makes an inequality an equality in the same variables. -/
theorem Tightens.isolates {i : Nat} {r : Round} (hs : s.Isolates j) (h : Tightens i s r) :
    r.result.Isolates j := by
  cases h with
  | stop => exact hs
  | clash _ _ _ _ => exact hs
  | pass _ => exact hs
  | tight c t get _ _ _ tighten => exact hs.tightenAt get tighten

/-- Detecting equations leaves `j` isolated. -/
theorem Isolates.detectEqualities (hs : s.Isolates j) (h : s.detectEqualities = .ok t) :
    t.Isolates j := by
  simp only [Polyhedron.detectEqualities, Outcome.bind_eq_ok] at h
  obtain ⟨s₁, h₁, s₂, h₂, h₃⟩ := h
  exact Isolates.simplify (keeps_of_tightenRounds (P := (·.Isolates j))
    (fun _ _ _ hs hround => hround.isolates hs) (hs.simplify h₁) h₂) h₃

/-- A new equality is on the fixed variable alone. -/
theorem Fixes.isolates (hs : s.Isolates j) (h : Fixes s v t) : t.Isolates j := by
  cases h with
  | same => exact hs
  | clash _ _ => exact hs
  | fix x t _ _ _ add =>
      simp only [addTerms, Outcome.bind_eq_ok] at add
      obtain ⟨c, hc, add⟩ := add
      refine hs.add ?_ add
      by_cases hv : v = j
      · exact Or.inr fun i hi => Constraint.coeff_ofTerms hc (by simp [hv, hi.symm])
      · exact Or.inl (Constraint.coeff_ofTerms hc (by simp [hv]))

theorem Isolates.fixDetermined {start stop : Nat} (hs : s.Isolates j)
    (h : s.fixDetermined start stop = .ok t) : t.Isolates j := by
  simp only [Polyhedron.fixDetermined, Outcome.bind_eq_ok] at h
  obtain ⟨u, hu, h⟩ := h
  exact Isolates.simplify
    (keeps_of_fixVars (P := (·.Isolates j)) (fun _ _ _ hs hfix => hfix.isolates hs) hs hu) h

/-- Substituting existentials leaves a parameter or input isolated. -/
theorem Isolates.substituteRounds {n : Nat} (hs : s.Isolates j) (hj : j ≤ x)
    (h : substituteRounds x n s = .ok t) : t.Isolates j :=
  keeps_of_substituteRounds (P := (·.Isolates j))
    (fun _ _ _ _ _ hs hlt hc _ he ht => hs.eliminateWith (by omega) hc he ht) hs h

/-- Preparing the systems leaves a parameter or input isolated in each. -/
theorem isolates_of_prepareAll {ss rs : List Polyhedron} (hss : ∀ s ∈ ss, s.Isolates j) (hj : j ≤ x)
    (h : prepareAll x ss = .ok rs) : ∀ r ∈ rs, r.Isolates j := by
  induction ss generalizing rs with
  | nil => simp [← Except.ok.inj h]
  | cons s ss ih =>
      obtain ⟨hs, hss⟩ := List.forall_mem_cons.mp hss
      simp only [prepareAll, Outcome.bind_eq_ok] at h
      obtain ⟨b, -, h⟩ := h
      split at h
      · exact ih hss h
      · simp only [prepare, Outcome.bind_eq_ok, Outcome.pure_eq_ok] at h
        obtain ⟨r, ⟨s₁, h₁, s₂, h₂, hr⟩, rest, hrest, rfl⟩ := h
        exact List.forall_mem_cons.mpr
          ⟨((hs.detectEqualities h₁).fixDetermined h₂).substituteRounds hj hr, ih hss hrest⟩

/-! ## strides -/

/-- The shift of a stride has no isolated variable. -/
theorem coeff_of_largestStride {cs : List Constraint} {best : Option Stride} {st : Stride}
    (hcs : ∀ c ∈ cs, c.Isolates j) (hj : j < x) (hbest : ∀ b, best = some b → b.shift.coeff j = 0)
    (h : largestStride x cs best = .ok (some st)) : st.shift.coeff j = 0 := by
  induction cs generalizing best with
  | nil => exact hbest st (Except.ok.inj h)
  | cons c cs ih =>
      obtain ⟨hc, hcs⟩ := List.forall_mem_cons.mp hcs
      rw [largestStride] at h
      split at h
      · next hunit =>
        simp only [Outcome.bind_eq_ok] at h
        obtain ⟨g, -, h⟩ := h
        split at h
        · exact ih hcs hbest h
        · simp only [Outcome.bind_eq_ok] at h
          obtain ⟨shift, hshift, h⟩ := h
          refine ih hcs (fun b hb => ?_) h
          split at hb
          · obtain rfl := Option.some.inj hb
            have hcx : c.coeff x ≠ 0 := fun hzero => by simp [hzero] at hunit
            have hcj : c.expr.coeff j = 0 := hc.coeff_eq_zero hj.ne' hcx
            refine coeff_reduceShift ?_
            rw [Affine.coeff_truncated, if_pos hj, (Affine.scale_eq_ok hshift).1, hcj, mul_zero]
          · exact hbest b hb
      · exact ih hcs hbest h

/-- The shift of a common stride has no isolated variable. -/
theorem coeff_of_commonStride {ss : List Polyhedron} {common : Option Stride} {st : Stride}
    (hss : ∀ s ∈ ss, s.Isolates j) (hj : j < x)
    (hcommon : ∀ c, common = some c → c.shift.coeff j = 0)
    (h : commonStride x ss common = .ok (some st)) : st.shift.coeff j = 0 := by
  induction ss generalizing common with
  | nil => exact hcommon st (Except.ok.inj h)
  | cons s ss ih =>
      obtain ⟨hs, hss⟩ := List.forall_mem_cons.mp hss
      simp only [commonStride, Outcome.bind_eq_ok] at h
      obtain ⟨found, hfound, h⟩ := h
      cases found with
      | none => simp at h
      | some found =>
          cases common with
          | none =>
              refine ih hss (fun c hc => ?_) h
              exact Option.some.inj hc ▸ coeff_of_largestStride hs hj (by simp) hfound
          | some c =>
              simp only at h
              split at h
              · exact ih hss hcommon h
              · simp at h

/-- Dividing the output by a stride leaves an input isolated that the shift does not have. -/
theorem Isolates.applyStride {st : Stride} (hs : s.Isolates j) (hwf : s.WellFormed)
    (hx : x < s.nVars) (hj : j < x) (hst : st.shift.coeff j = 0) (h : s.applyStride x st = .ok t) :
    t.Isolates j := by
  simp only [Polyhedron.applyStride, Outcome.bind_eq_ok] at h
  obtain ⟨s₁, h₁, sum, hsum, e, he, s₂, h₂, s₃, h₃, h₄⟩ := h
  have hwf₂ : s₂.WellFormed := (hwf.addVars h₁).add h₂
  have hej : e.coeff j = 0 := by
    rw [(Affine.sub_eq_ok he).1, (Affine.add_eq_ok hsum).1, Affine.coeff_var, Affine.coeff_term,
      hst, if_neg hj.ne, if_neg (by omega)]
    rfl
  have hrow : (Constraint.eq e).Isolates j := Or.inl hej
  have hs₃ : s₃.Isolates j := ((hs.addVars h₁).add hrow h₂).project (by simp [hj.ne]) h₃
  refine hs₃.embed ((projects_project hwf₂ h₃).wellFormed hwf₂) (fun k _ => ?_) h₄
  unfold exchange
  split_ifs <;> omega

/-- Reducing a system to one output leaves an input isolated that the shift does not have. -/
theorem Isolates.projectOutput {stride : Option Stride} (hs : s.Isolates j) (hwf : s.WellFormed)
    (hx : x < s.nVars) (hj : j < x) (hst : ∀ st, stride = some st → st.shift.coeff j = 0)
    (h : projectOutput x stride s = .ok t) : t.Isolates j := by
  have hproject : ∀ {u : Polyhedron}, u.Isolates j → u.project (u.existentials x) = .ok t →
      t.Isolates j := by
    intro u hu h
    refine hu.project (fun hmem => ?_) h
    have := (List.mem_range'_1.mp hmem).1
    omega
  cases stride with
  | none => exact hproject hs h
  | some st =>
      simp only [Polyhedron.projectOutput, Outcome.bind_eq_ok] at h
      obtain ⟨u, hu, h⟩ := h
      exact hproject (hs.applyStride hwf hx hj (hst st rfl) hu) h

end Polyhedron

/-! ## bounds -/

/-- The candidates for a lower bound have no isolated variable. -/
theorem Candidate.coeff_of_collect {x j : Nat} {cs : List Constraint} {found r : List Candidate}
    (hcs : ∀ c ∈ cs, c.Isolates j) (hj : j < x) (hfound : ∀ k ∈ found, k.rest.coeff j = 0)
    (h : collect x cs found = .ok r) : ∀ k ∈ r, k.rest.coeff j = 0 := by
  induction cs generalizing found with
  | nil => exact Except.ok.inj h ▸ hfound
  | cons c cs ih =>
      obtain ⟨hc, hcs⟩ := List.forall_mem_cons.mp hcs
      simp only [collect, Outcome.bind_eq_ok] at h
      obtain ⟨o, ho, h⟩ := h
      cases o with
      | none => exact ih hcs hfound h
      | some k =>
          refine ih hcs ?_ h
          split
          · exact hfound
          · refine List.forall_mem_append.mpr ⟨hfound, List.forall_mem_singleton.mpr ?_⟩
            unfold ofConstraint at ho
            dsimp only at ho
            split at ho
            · simp at ho
            · next hm =>
              simp only [Bool.or_eq_true, decide_eq_true_eq, not_or] at hm
              simp only [Outcome.bind_eq_ok, Outcome.pure_eq_ok, Option.some.injEq] at ho
              obtain ⟨e, he, rfl⟩ := ho
              have hcj : c.expr.coeff j = 0 := hc.coeff_eq_zero hj.ne' hm.1
              rw [Affine.coeff_setCoeff, if_neg hj.ne, (Affine.scale_eq_ok he).1, hcj, mul_zero]

/-- A bound does not depend on a variable that is on its own in all relations. -/
theorem Bound.coeff_of_infer {a : Access} {b : Bound} {j : Nat} (ha : a.WellFormed)
    (hpieces : ∀ p ∈ a.pieces, p.relation.Isolates j) (hj : j < a.nParam + a.nIn)
    (h : infer a = .ok (some b)) :
    b.lower.form.coeff j = 0 ∧ ∀ st, b.stride = some st → st.shift.coeff j = 0 := by
  unfold infer at h
  split at h
  · simp at h
  next hout =>
  simp only [Outcome.bind_eq_ok] at h
  obtain ⟨relations, hrelations, h⟩ := h
  split at h
  · simp at h
  simp only [Outcome.bind_eq_ok] at h
  obtain ⟨stride, hstride, projected, hprojected, candidates, hcandidates, best, hbest, h⟩ := h
  cases best with
  | none => simp at h
  | some found =>
      obtain ⟨n, c⟩ := found
      simp only [Outcome.bind_eq_ok, Outcome.pure_eq_ok, Option.some.injEq] at h
      obtain ⟨form, hform, rfl⟩ := h
      have hwf : ∀ s ∈ a.pieces.map (·.relation), s.WellFormed ∧ a.nParam + a.nIn < s.nVars := by
        intro s hs
        obtain ⟨p, hp, rfl⟩ := List.mem_map.mp hs
        obtain ⟨hp, hle⟩ := ha p hp
        exact ⟨hp, by omega⟩
      have hisolates : ∀ r ∈ relations, r.Isolates j := by
        refine Polyhedron.isolates_of_prepareAll (fun s hs => ?_) hj.le hrelations
        obtain ⟨p, hp, rfl⟩ := List.mem_map.mp hs
        exact hpieces p hp
      have hshift : ∀ st, stride = some st → st.shift.coeff j = 0 := fun st hst =>
        Polyhedron.coeff_of_commonStride hisolates hj (by simp) (hst ▸ hstride)
      have hrest : c.rest.coeff j = 0 := by
        have hmem := ((Candidate.choose_eq_ok hbest).resolve_left (by simp)).1
        refine Candidate.coeff_of_collect (fun d hd => ?_) hj (by simp) hcandidates c hmem
        obtain ⟨t, ht, hd⟩ := List.mem_flatMap.mp hd
        obtain ⟨r, hr, hrt⟩ := Outcome.exists_of_mem_of_mapM hprojected ht
        obtain ⟨s, hs, hrelax⟩ :=
          (Polyhedron.prepareAll_eq_ok (fun s hs => (hwf s hs).1) hrelations).1 r hr
        exact (hisolates r hr).projectOutput hrelax.wellFormed
          (hrelax.nVars ▸ (hwf s hs).2) hj hshift hrt d hd
      refine ⟨?_, hshift⟩
      rw [Affine.coeff_truncated, if_pos hj, (Affine.scale_eq_ok hform).1, hrest, mul_zero]

/-- An input that is isolated in all pieces stays so in those for one output. -/
theorem Access.isolates_selectOut {a b : Access} {d j : Nat} (ha : a.WellFormed)
    (hpieces : ∀ p ∈ a.pieces, p.relation.Isolates j) (hj : j < a.nParam + a.nIn)
    (h : a.selectOut d = .ok b) : ∀ q ∈ b.pieces, q.relation.Isolates j := by
  simp only [selectOut, Outcome.bind_eq_ok, Outcome.pure_eq_ok] at h
  obtain ⟨pieces, hsel, rfl⟩ := h
  intro q hq
  obtain ⟨p, hp, hq⟩ := Outcome.exists_of_mem_of_mapM hsel hq
  simp only [Piece.selectOut, Outcome.bind_eq_ok, Outcome.pure_eq_ok] at hq
  obtain ⟨s, hs, rfl⟩ := hq
  obtain ⟨hwf, hle⟩ := ha p hp
  refine (hpieces p hp).embed hwf (fun k hk => ?_) hs
  unfold selectVar
  dsimp only
  split_ifs <;> omega

/-- A tile does not depend on a variable that is on its own in all relations. -/
theorem Tile.involves_of_infer? {a : Access} {t : Tile} {j : Nat} (ha : a.WellFormed)
    (hpieces : ∀ p ∈ a.pieces, p.relation.Isolates j) (hj : j < a.nParam + a.nIn)
    (h : infer? a = .ok (some t)) : t.involves j = false := by
  simp only [infer?, Outcome.bind_eq_ok, Outcome.pure_eq_ok, Option.map_eq_some_iff] at h
  obtain ⟨_, hbs, bs, rfl, rfl⟩ := h
  refine List.any_eq_false.mpr fun b hb => ?_
  obtain ⟨d, hd, s, hs, hinfer⟩ := (inferBounds_eq_ok hbs).exists_of_mem_right hb
  obtain ⟨hwf, hparam, hin, -, -⟩ := Access.selectOut_eq_ok ha (List.mem_range.mp hd) hs
  obtain ⟨hform, hshift⟩ := Bound.coeff_of_infer hwf
    (Access.isolates_selectOut ha hpieces hj hs) (by rwa [hparam, hin]) hinfer
  cases hst : b.stride with
  | none => simp [Affine.involves, hform]
  | some st => simp [Affine.involves, hform, hshift st hst]

/-! ## constant coordinates -/

/-- A constant has no variables after renaming. -/
theorem Affine.coeff_remapped_of_isConst {ε : Type} {a r : Affine} {map : List Nat}
    (ha : a.isConst = true) (h : (a.remapped map : Outcome ε Affine) = .ok r) (i : Nat) :
    r.coeff i = 0 := by
  have honto : ∀ {cs : List Int} {map : List Nat} {out : Affine}, (∀ c ∈ cs, c = 0) →
      (remapOnto cs map out : Outcome ε Affine) = .ok r → r = out := by
    intro cs map out hcs h
    fun_induction @remapOnto ε cs map out with
    | case1 => exact (Except.ok.inj h).symm
    | case2 cs out ih => exact ih (List.forall_mem_cons.mp hcs).2 h
    | case3 => simp at h
    | case4 cs k is out ih => exact ih (List.forall_mem_cons.mp hcs).2 h
    | case5 c cs k is out hc ih => exact absurd (hcs c (by simp)) hc
  rw [honto (by simpa [isConst] using ha) h, coeff_const]

namespace Access

variable {sched : StmtSchedule} {map : List Nat} {s t : Polyhedron} {x : Nat}

/-- Equating a coordinate with a constant leaves it isolated. -/
theorem isolates_equateFrom {v : Nat} {as : List Affine} (hs : s.Isolates x) (hmap : x ∉ map)
    (hconst : ∀ i a, as[i]? = some a → v + i = x → a.isConst = true)
    (h : equateFrom map v as s = .ok t) : t.Isolates x := by
  induction as generalizing v s with
  | nil => exact Except.ok.inj h ▸ hs
  | cons a as ih =>
      simp only [equateFrom, Outcome.bind_eq_ok] at h
      obtain ⟨b, hb, e, he, u, hu, h⟩ := h
      have hcoeff : ∀ i, e.coeff i = b.coeff i - if i = v then 1 else 0 := fun i => by
        rw [(Affine.sub_eq_ok he).1, Affine.coeff_var]
      have hrow : (Constraint.eq e).Isolates x := by
        by_cases hx : x = v
        · refine Or.inr fun i hi => (hcoeff i).trans ?_
          rw [Affine.coeff_remapped_of_isConst (hconst 0 a rfl hx.symm) hb,
            if_neg (hx ▸ hi), sub_zero]
        · refine Or.inl ((hcoeff x).trans ?_)
          rw [Affine.coeff_remapped hb hmap, if_neg hx, sub_zero]
      exact ih (hs.add hrow hu) (fun i c hc hi => hconst (i + 1) c (by simpa using hc) (by omega)) h

/-- A subscript constrains its output by forms without the other coordinates. -/
theorem isolates_constrainOutput {v : Nat} {i : Subscript} (hs : s.Isolates x) (hmap : x ∉ map)
    (hx : x ≠ v) (h : constrainOutput sched map v s i = .ok t) : t.Isolates x := by
  have hvar : (Affine.var v).coeff x = 0 := by rw [Affine.coeff_var, if_neg hx]
  have hform : ∀ {a b : Affine}, (a.remapped map : Outcome EngineError Affine) = .ok b →
      b.coeff x = 0 := fun hb => Affine.coeff_remapped hb hmap
  have hsub : ∀ {a b e : Affine}, a.sub b = .ok e → a.coeff x = 0 → b.coeff x = 0 →
      e.coeff x = 0 := fun he ha hb => by rw [(Affine.sub_eq_ok he).1, ha, hb, sub_zero]
  cases i with
  | single a =>
      simp only [constrainOutput, Outcome.bind_eq_ok] at h
      obtain ⟨_, -, b, hb, e, he, h⟩ := h
      exact hs.add (Or.inl (hsub he (hform hb) hvar)) h
  | range lower upper =>
      simp only [constrainOutput, Outcome.bind_eq_ok] at h
      obtain ⟨_, -, lo, hlo, _, -, hi, hhi, e, he, u, hu, e', he', h⟩ := h
      have hu := hs.add (Or.inl (hsub he hvar (hform hlo))) hu
      exact hu.add (Or.inl (hsub he' (hform hhi) hvar)) h

/-- The subscripts leave the coordinates isolated. -/
theorem isolates_constrainOutputs {v : Nat} {is : List Subscript} (hs : s.Isolates x)
    (hmap : x ∉ map) (hx : x < v) (h : constrainOutputs sched map v is s = .ok t) :
    t.Isolates x := by
  induction is generalizing v s with
  | nil => exact Except.ok.inj h ▸ hs
  | cons i is ih =>
      simp only [constrainOutputs, Outcome.bind_eq_ok] at h
      obtain ⟨u, hu, h⟩ := h
      exact ih (isolates_constrainOutput hs hmap hx.ne hu) (by omega) h

/-- In the relation of a reference a constant coordinate is on its own. -/
theorem isolates_relationOf {nParam depth j : Nat} {context : List Constraint} {r : Reference}
    (hj : j < depth) (hconst : ∀ a, sched.dims[j]? = some a → a.isConst = true)
    (h : relationOf nParam context sched r depth = .ok t) : t.Isolates (nParam + j) := by
  simp only [relationOf, Outcome.bind_eq_ok] at h
  obtain ⟨cs, -, s₁, h₁, s₂, h₂, h₃⟩ := h
  have hmap : nParam + j ∉
      placement nParam (nParam + depth + r.subscripts.length) sched.space.dim := by
    intro hmem
    obtain ⟨k, -, hk⟩ := List.mem_map.mp hmem
    split at hk <;> omega
  have hs₁ := (Polyhedron.isolates_empty _ _).addAllLowered hmap h₁
  refine isolates_constrainOutputs (isolates_equateFrom hs₁ hmap (fun i a ha hi => ?_) h₂) hmap
    (by omega) h₃
  obtain rfl : i = j := by omega
  exact hconst a (by rwa [List.getElem?_take_of_lt hj] at ha)

end Access

namespace Scope

variable {sc : Scope} {refs : List Nat} {depth : Nat} {acc : Access}

/-- The relation of a reference of the kernel with `nOut` subscripts. -/
def HasPiece (sc : Scope) (depth nOut id : Nat) (piece : Access.Piece) : Prop :=
  ∃ item, sc.item id = .ok item ∧
    Access.pieceOf sc.schedule.nProgramParam sc.schedule.context depth nOut item = .ok piece

/-- An access consists of the relations of its references. -/
theorem access_eq_ok_iff :
    sc.access refs depth = .ok acc ↔ acc.nParam = sc.schedule.nProgramParam ∧ acc.nIn = depth ∧
      (refs = [] → acc.nOut = 0) ∧ List.Forall₂ (sc.HasPiece depth acc.nOut) refs acc.pieces := by
  simp only [access, Access.build, Outcome.bind_eq_ok, Outcome.pure_eq_ok, Outcome.mapM_eq_ok]
  constructor
  · rintro ⟨items, hitems, pieces, hpieces, rfl⟩
    refine ⟨rfl, rfl, fun hrefs => ?_, hitems.comp hpieces⟩
    subst hrefs
    rw [List.forall₂_nil_left_iff.mp hitems]
    rfl
  · rintro ⟨hparam, hin, hnil, hpieces⟩
    obtain ⟨items, hitems, hpieces⟩ := List.Forall₂.exists_middle hpieces
    have hout : items.head?.elim 0 (·.2.subscripts.length) = acc.nOut := by
      cases hitems with
      | nil => exact (hnil rfl).symm
      | cons =>
          obtain ⟨piece, _, hpiece, -, -⟩ := List.forall₂_cons_left_iff.mp hpieces
          simp only [Access.pieceOf] at hpiece
          split at hpiece
          · simp at hpiece
          · next hlen => simpa using hlen
    refine ⟨items, hitems, acc.pieces, hout ▸ hpieces, ?_⟩
    rw [hout, ← hparam, ← hin]

theorem HasPiece.relation_eq_ok {nOut id : Nat} {piece : Access.Piece}
    (h : sc.HasPiece depth nOut id piece) : ∃ st r, st ∈ sc.schedule.statements ∧
      Access.relationOf sc.schedule.nProgramParam sc.schedule.context st r depth =
        .ok piece.relation := by
  obtain ⟨⟨st, r⟩, hitem, hpiece⟩ := h
  simp only [item, Outcome.bind_eq_ok, Outcome.orFault_eq_ok, Outcome.pure_eq_ok,
    Prod.mk.injEq] at hitem
  obtain ⟨l, -, st, hst, rfl, rfl⟩ := hitem
  simp only [Access.pieceOf] at hpiece
  split at hpiece
  · simp at hpiece
  split at hpiece
  · simp at hpiece
  simp only [Outcome.bind_eq_ok, Outcome.pure_eq_ok] at hpiece
  obtain ⟨relation, hrelation, rfl⟩ := hpiece
  exact ⟨st, l.reference, List.mem_of_getElem? hst, hrelation⟩

/-- A tile of references of a kernel does not depend on coordinates that are constant in every
statement. -/
theorem not_involves_constant {t : Tile} {j : Nat} (hacc : sc.access refs depth = .ok acc)
    (ht : Tile.infer? acc = .ok (some t)) (hj : j < depth)
    (hconst : sc.schedule.isConstantDim j = true) : t.involves (t.nParam + j) = false := by
  obtain ⟨hparam, hin, -, hpieces⟩ := access_eq_ok_iff.mp hacc
  have hisolates : ∀ p ∈ acc.pieces, p.relation.Isolates (acc.nParam + j) := by
    intro p hp
    obtain ⟨id, -, hpiece⟩ := hpieces.exists_of_mem_right hp
    obtain ⟨st, r, hst, hrelation⟩ := hpiece.relation_eq_ok
    rw [hparam]
    refine Access.isolates_relationOf hj (fun a ha => ?_) hrelation
    have hdims := List.all_eq_true.mp hconst st hst
    rwa [ha] at hdims
  rw [(Tile.infer?_eq_ok ht).1]
  exact Tile.involves_of_infer? (access_eq_ok hacc).1 hisolates (by omega) ht

end Scope

end KernelMap
