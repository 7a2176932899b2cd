import KernelMap.Proofs.Equalities
import Mathlib.Algebra.Group.Int.Units

/-!
# KernelMap.Proofs.Normal

Every constraint of a polyhedron is in normal form.

A constraint is `Normal` if only units divide all its coefficients and, for an
equality, the first coefficient other than zero is positive.  Normalization gives such
constraints (`Constraint.normal_of_normalize`), and every operation that makes a
constraint normalizes it, so all of them keep `Polyhedron.Normalized`.  The result of
simplification is even `Polyhedron.Reduced`.
-/

namespace KernelMap

/-! ## coefficient lists -/

namespace Coeffs

/-- Only units divide all coefficients. -/
def Primitive (cs : List Int) : Prop := ∀ g, (∀ i, g ∣ get cs i) → g ∣ 1

/-- The first coefficient other than zero is positive. -/
def Oriented (cs : List Int) : Prop := ∀ i, (∀ j, j < i → get cs j = 0) → 0 ≤ get cs i

/-- Zeros at the end do not change the greatest common divisor. -/
theorem primitive_pad {n : Nat} {cs : List Int} : Primitive (pad n cs) ↔ Primitive cs := by
  simp only [Primitive, get_pad]

/-- Zeros at the end do not change the first coefficient. -/
theorem oriented_pad {n : Nat} {cs : List Int} : Oriented (pad n cs) ↔ Oriented cs := by
  simp only [Oriented, get_pad]

/-- A common divisor divides the content. -/
theorem dvd_content? {d g r : Int} {cs : List Int} (hg : d ∣ g) (hcs : ∀ c ∈ cs, d ∣ c)
    (h : content? g cs = some r) : d ∣ r := by
  fun_induction content? g cs with
  | case1 g => exact Option.some.inj h ▸ hg
  | case2 g cs ih => exact ih hg (fun c hc => hcs c (by simp [hc])) h
  | case3 g c cs hc ih =>
      simp only [Option.bind_eq_bind, Option.bind_eq_some_iff] at h
      obtain ⟨k, hk, h⟩ := h
      have hdk : d ∣ k := Word.eq_of_gcd?_eq_some hk ▸ Int.dvd_coe_gcd hg (hcs c (by simp))
      exact ih k hdk (fun c hc => hcs c (by simp [hc])) h

/-- Dividing by the content leaves no common divisor. -/
theorem primitive_divide {g : Int} {cs : List Int} (hg : g ≠ 0) (h : content? 0 cs = some g) :
    Primitive (divide g cs) := by
  intro d hd
  obtain ⟨-, -, hdvd, -⟩ := content?_eq_some le_rfl h
  -- a divisor of all quotients times the content still divides all coefficients
  have hall : ∀ c ∈ cs, g * d ∣ c := forall_mem_of_get fun i => by
    rw [get_eq_mul_divide hdvd i]
    exact mul_dvd_mul_left g (hd i)
  have hmul : g * d ∣ g * 1 := by simpa using dvd_content? (dvd_zero _) hall h
  exact (mul_dvd_mul_iff_left hg).mp hmul

/-- A sign does not change the greatest common divisor. -/
theorem Primitive.orient {sign : Int} (hsign : sign = 1 ∨ sign = -1) {cs : List Int}
    (h : Primitive cs) : Primitive (orient sign cs) := by
  intro g hg
  refine h g fun i => ?_
  have hi := hg i
  rw [get_orient] at hi
  rcases hsign with rfl | rfl
  · simpa using hi
  · simpa using hi

/-- Multiplied by the leading sign, the first coefficient other than zero is
positive. -/
theorem leadSign_mul_nonneg {cs : List Int} {i : Nat} (h : ∀ j, j < i → get cs j = 0) :
    0 ≤ leadSign cs * get cs i := by
  induction cs generalizing i with
  | nil => simp
  | cons c cs ih =>
      by_cases hc : c = 0
      · have hlead : leadSign (c :: cs) = leadSign cs := by simp [leadSign, hc]
        rw [hlead]
        cases i with
        | zero => simp [hc]
        | succ i => exact ih fun j hj => by simpa using h (j + 1) (by omega)
      · cases i with
        | zero =>
            have hlead : leadSign (c :: cs) = c.sign := by simp [leadSign, hc]
            rw [hlead, get_cons_zero, mul_comm, Int.mul_sign_self]
            exact Int.natCast_nonneg _
        | succ i => exact absurd (h 0 (by omega)) hc

/-- Turning coefficients by the sign of the first makes it positive. -/
theorem oriented_orient_divide {g : Int} {cs : List Int} (hg : 0 < g) (hdvd : ∀ c ∈ cs, g ∣ c) :
    Oriented (orient (leadSign cs) (divide g cs)) := by
  intro i hi
  -- the content is positive, so that the signs are those of the original coefficients
  have hget : ∀ j, g * get (orient (leadSign cs) (divide g cs)) j = leadSign cs *
      get cs j := fun j => by
    rw [get_orient, get_eq_mul_divide hdvd j]
    ring
  have hsign : leadSign cs ≠ 0 := by
    rcases leadSign_eq cs with hs | hs <;> rw [hs] <;> decide
  have hzero : ∀ j, j < i → get cs j = 0 := fun j hj => by
    have hmul : leadSign cs * get cs j = 0 := by rw [← hget j, hi j hj, mul_zero]
    exact (mul_eq_zero.mp hmul).resolve_left hsign
  have hlead := leadSign_mul_nonneg hzero
  rw [← hget i] at hlead
  exact nonneg_of_mul_nonneg_right hlead hg

/-- A list without a common divisor is not all zero. -/
theorem Primitive.exists_get_ne_zero {cs : List Int} (h : Primitive cs) : ∃ i, get cs i ≠ 0 := by
  by_contra hzero
  simp only [not_exists, not_not] at hzero
  exact absurd (h 0 fun i => by rw [hzero i]) (by decide)

/-- The only coefficient of a primitive list is a unit. -/
theorem Primitive.get_eq {cs : List Int} {k : Nat} (h : Primitive cs)
    (honly : ∀ i, i ≠ k → get cs i = 0) : get cs k = 1 ∨ get cs k = -1 := by
  refine Int.isUnit_iff.mp (isUnit_iff_dvd_one.mpr (h _ fun i => ?_))
  by_cases hi : i = k
  · rw [hi]
  · rw [honly i hi]
    exact dvd_zero _

end Coeffs

/-! ## constraints -/

namespace Constraint

variable {ε : Type}

/-- The constraint is in normal form. -/
structure Normal (c : Constraint) : Prop where
  primitive : Coeffs.Primitive c.coeffs
  oriented : c.kind = .equality → Coeffs.Oriented c.coeffs

theorem Normal.pad {c : Constraint} (h : c.Normal) (n : Nat) : (c.pad n).Normal :=
  ⟨Coeffs.primitive_pad.mpr h.primitive, fun hk => Coeffs.oriented_pad.mpr (h.oriented hk)⟩

/-- The normal form of a constraint is one, unless it is constant. -/
theorem normal_of_normalize {c d : Constraint}
    (h : (c.normalize : Outcome ε (Option Constraint)) = .ok (some d)) (hd : d.isConst = false) :
    d.Normal := by
  simp only [normalize, Outcome.bind_eq_ok, Outcome.orFault_eq_ok] at h
  obtain ⟨g, hg, h⟩ := h
  obtain ⟨hnonneg, -, hdvd, hzero⟩ := Coeffs.content?_eq_some le_rfl hg
  split at h
  · next h0 =>
    split at h
    · simp only [Outcome.pure_eq_ok, Option.some.injEq] at h
      have hconst : c.isConst = true := List.all_eq_true.mpr fun x hx => by
        simpa using (hzero h0).2 x hx
      simp [← h, hconst] at hd
    · simp at h
  · next hne =>
    have hprim := Coeffs.primitive_divide hne hg
    split at h
    · split at h
      · simp at h
      · simp only [Outcome.bind_eq_ok, Outcome.pure_eq_ok, Option.some.injEq] at h
        obtain ⟨k, -, rfl⟩ := h
        exact ⟨hprim.orient (Coeffs.leadSign_eq _), fun _ => Coeffs.oriented_orient_divide
          (by omega) hdvd⟩
    · simp only [Outcome.pure_eq_ok, Option.some.injEq] at h
      subst h
      exact ⟨hprim, fun hk => by cases hk⟩

/-- The normal form of a constraint that is primitive already. -/
theorem normal_of_primitive {c d : Constraint} (hc : Coeffs.Primitive c.coeffs)
    (h : (c.normalize : Outcome ε (Option Constraint)) = .ok (some d)) : d.Normal := by
  refine normal_of_normalize h ?_
  obtain ⟨i, hi⟩ := hc.exists_get_ne_zero
  by_contra hconst
  rw [Bool.not_eq_false] at hconst
  exact hi (((sameSet_of_normalize h).coeff_eq_zero i).mp (coeff_of_isConst hconst i))

end Constraint

namespace Polyhedron

variable {ε : Type}

/-- Every constraint is in normal form. -/
def Normalized (s : Polyhedron) : Prop := ∀ c ∈ s.constraints, c.Normal

/-! ## adding constraints -/

theorem normalized_empty (n : Nat) : (empty n).Normalized := by
  simp [Normalized, empty]

/-- Constraints stay normal when there are more variables. -/
theorem Normalized.addVars {s t : Polyhedron} {n : Nat} (hs : s.Normalized)
    (h : (s.addVars n : Outcome ε Polyhedron) = .ok t) : t.Normalized := by
  rw [addVars_eq_ok h]
  intro c hc
  obtain ⟨d, hd, rfl⟩ := List.mem_map.mp hc
  exact (hs d hd).pad _

/-- What is added to a system is the normal form. -/
theorem Normalized.add {s t : Polyhedron} {c : Constraint} (hs : s.Normalized)
    (h : (s.add c : Outcome ε Polyhedron) = .ok t) : t.Normalized :=
  forall_mem_add (fun _ n hd => hd.pad n) hs
    (fun _ _ hd hconst => Constraint.normal_of_normalize hd hconst) h

/-- Adding constraints keeps what adding one constraint keeps. -/
theorem addAll_induction {P : Polyhedron → Prop}
    (hadd : ∀ {s t : Polyhedron} {c}, P s → (s.add c : Outcome ε Polyhedron) = .ok t → P t)
    {s t : Polyhedron} {cs : List Constraint} (hs : P s)
    (h : (s.addAll cs : Outcome ε Polyhedron) = .ok t) : P t := by
  induction cs generalizing s with
  | nil =>
      simp only [addAll, Except.ok.injEq] at h
      exact h ▸ hs
  | cons c cs ih =>
      simp only [addAll, Outcome.bind_eq_ok] at h
      obtain ⟨u, hu, h⟩ := h
      exact ih (hadd hs hu) h

theorem WellFormed.intersect {s t u : Polyhedron} (hs : s.WellFormed)
    (h : (s.intersect t : Outcome ε Polyhedron) = .ok u) : u.WellFormed := by
  have hstart : ({ s with infeasible := s.infeasible || t.infeasible } : Polyhedron).WellFormed :=
    hs
  exact addAll_induction WellFormed.add hstart h

/-- An intersection adds the normal forms of the second system. -/
theorem Normalized.intersect {s t u : Polyhedron} (hs : s.Normalized)
    (h : (s.intersect t : Outcome ε Polyhedron) = .ok u) : u.Normalized := by
  have hstart : ({ s with infeasible := s.infeasible || t.infeasible } : Polyhedron).Normalized :=
    hs
  exact addAll_induction Normalized.add hstart h

/-- Renumbering starts from a polyhedron without constraints and adds them one by one. -/
theorem embed_induction {P : Polyhedron → Prop}
    (hadd : ∀ {s t : Polyhedron} {c}, P s → (s.add c : Outcome ε Polyhedron) = .ok t → P t)
    {s t : Polyhedron} {n : Nat} {map : List Nat}
    (hstart : P { empty n with infeasible := s.infeasible })
    (h : (s.embed n map : Outcome ε Polyhedron) = .ok t) : P t := by
  unfold embed at h
  generalize ({ empty n with infeasible := s.infeasible } : Polyhedron) = u at h hstart
  generalize s.constraints = cs at h
  induction cs generalizing u with
  | nil =>
      simp only [embedOnto, Except.ok.injEq] at h
      exact h ▸ hstart
  | cons c cs ih =>
      simp only [embedOnto] at h
      split at h
      · simp at h
      · simp only [Outcome.bind_eq_ok] at h
        obtain ⟨ds, -, u', hu', h⟩ := h
        exact ih u' (hadd hstart hu') h

/-! ## simplification -/

/-- A polyhedron that is known to be infeasible loses its constraints, so that they need
not be normal. -/
theorem normalized_simplify {s t : Polyhedron} (hs : s.infeasible = false → s.Normalized)
    (h : s.simplify = .ok t) : t.Normalized := by
  cases hinf : s.infeasible with
  | true =>
      simp only [simplify, hinf, if_true, Except.ok.injEq] at h
      simp [← h, Normalized]
  | false =>
      have hs := hs hinf
      have hfrom := s.sorted_from
      have hprim : ∀ g ∈ s.sorted.halfSpaces, Coeffs.Primitive g.coeffs := fun g hg => by
        obtain ⟨c, hc, hcs⟩ := hfrom.halfSpace g hg
        exact hcs ▸ (hs c hc).primitive
      obtain ⟨r₁, r₂, hmeet, habsorb, rfl⟩ := simplify_eq_ok hinf h
      have heqs : ∀ e ∈ r₁.equalities, e.Normal :=
        Reduction.forall_equalities_of_meetAll hfrom.nodup
          (fun g hg e he => Constraint.normal_of_primitive (c := .eq ⟨g.coeffs, g.constant⟩)
            (hprim g hg) he) (fun e he => hs e (hfrom.equality e he)) hmeet
      rw [← Reduction.equalities_absorbAll hfrom.nodup habsorb] at heqs
      split
      · simp [Normalized]
      · intro c hc
        rcases Reduction.mem_rows.mp hc with hc | ⟨g, hg, -, rfl⟩
        · exact heqs c hc
        · exact ⟨hprim g hg, fun hk => by cases hk⟩

/-! ## elimination -/

/-- Derived constraints are in normal form. -/
theorem Derived.normal_insertAll {d d' : Derived} {cs : List Constraint}
    (hd : ∀ c ∈ d.rows, c.Normal) (h : (d.insertAll cs : Outcome ε Derived) = .ok d') :
    ∀ c ∈ d'.rows, c.Normal := by
  induction cs generalizing d with
  | nil =>
      simp only [insertAll, Except.ok.injEq] at h
      exact h ▸ hd
  | cons c cs ih =>
      simp only [insertAll, insert, Outcome.bind_eq_ok] at h
      obtain ⟨d₁, ⟨r, hr, h₁⟩, h⟩ := h
      refine ih ?_ h
      cases r with
      | none =>
          simp only [Outcome.pure_eq_ok] at h₁
          exact h₁ ▸ hd
      | some e =>
          simp only [Outcome.pure_eq_ok] at h₁
          split at h₁
          · exact h₁ ▸ hd
          · next hconst =>
            rw [Bool.not_eq_true] at hconst
            subst h₁
            exact List.forall_mem_cons.mpr ⟨Constraint.normal_of_normalize hr hconst, hd⟩

/-- The polyhedron is the result of simplifying one in normal form. -/
def Reduced (t : Polyhedron) : Prop := ∃ s : Polyhedron, s.Normalized ∧ s.simplify = .ok t

/-- The constraints that a simplification leaves are normal. -/
theorem Reduced.normalized {t : Polyhedron} (h : t.Reduced) : t.Normalized := by
  obtain ⟨s, hs, hsimp⟩ := h
  exact normalized_simplify (fun _ => hs) hsimp

/-- Whatever constraints are derived, their normal forms replace the old ones. -/
theorem reduced_replaceBy {s t : Polyhedron} {cs : List Constraint} {d : Derived}
    (hd : (Derived.none.insertAll cs : Outcome EngineError Derived) = .ok d)
    (h : s.replaceBy d = .ok t) : t.Reduced := by
  refine ⟨_, fun c hc => ?_, h⟩
  exact Derived.normal_insertAll (by simp [Derived.none]) hd c (List.mem_reverse.mp hc)

/-- What is left after a variable is eliminated with an equality is simplified. -/
theorem reduced_eliminateWith {s t : Polyhedron} {v pos : Nat} (h : s.eliminateWith v pos = .ok t) :
    t.Reduced := by
  simp only [eliminateWith, Outcome.bind_eq_ok] at h
  obtain ⟨e, -, d, hd, h⟩ := h
  obtain ⟨cs, hd, -, -⟩ := cancelAll_eq_ok hd
  exact reduced_replaceBy hd h

/-- The shape is kept also if the constraint at the position is no equality or does not
involve the variable. -/
theorem WellFormed.eliminateWith {s t : Polyhedron} {v pos : Nat} (hs : s.WellFormed)
    (h : s.eliminateWith v pos = .ok t) : t.WellFormed := by
  simp only [Polyhedron.eliminateWith, Outcome.bind_eq_ok, Outcome.orFault_eq_ok] at h
  obtain ⟨e, he, d, hd, h⟩ := h
  obtain ⟨cs, hd, hfrom, -⟩ := cancelAll_eq_ok hd
  have hlength : ∀ c' ∈ cs, c'.coeffs.length = s.nVars := by
    intro c' hc'
    obtain ⟨c, hc, hcancel⟩ := hfrom c' hc'
    have hc := hs c (List.mem_of_mem_eraseIdx hc)
    unfold cancel at hcancel
    dsimp only at hcancel
    split at hcancel
    · exact Except.ok.inj hcancel ▸ hc
    · simp only [Outcome.bind_eq_ok] at hcancel
      obtain ⟨k₁, -, k₂, -, hcancel⟩ := hcancel
      rw [(Constraint.combine_eq_ok hcancel).2.2.2, hc, hs e (List.mem_of_getElem? he), max_self]
  have hrows := Derived.forall_rows_insertAll (fun c e hsupp hc => hsupp.length.trans hc) hd hlength
    (by simp [Derived.none])
  have hderived :
    ({ s with constraints := d.rows.reverse, infeasible := s.infeasible || d.infeasible } :
      Polyhedron).WellFormed := fun c hc => hrows c (List.mem_reverse.mp hc)
  exact hderived.simplify h

/-- What is left after a variable is eliminated is simplified. -/
theorem reduced_eliminate {s t : Polyhedron} {v : Nat} (h : s.eliminate v = .ok t) : t.Reduced := by
  simp only [eliminate, Outcome.bind_eq_ok] at h
  obtain ⟨best, -, h⟩ := h
  cases best with
  | some p => exact reduced_eliminateWith h
  | none =>
      simp only [Outcome.bind_eq_ok] at h
      obtain ⟨d₁, hd₁, d, hd, h⟩ := h
      obtain ⟨pairs, hd, -, -⟩ := pairAll_eq_ok hd
      exact reduced_replaceBy (Derived.insertAll_append hd₁ hd) h

theorem Normalized.project {s t : Polyhedron} {vars : List Nat} (hs : s.Normalized)
    (h : s.project vars = .ok t) : t.Reduced := by
  simp only [Polyhedron.project, Outcome.bind_eq_ok] at h
  obtain ⟨u, hu, h⟩ := h
  exact keeps_of_projectRounds (fun _ _ _ _ _ hstep => reduced_eliminate hstep) ⟨s, hs, hu⟩ h

/-! ## making equalities explicit -/

/-- The equality that takes the place of a constraint is normal, unless there is none. -/
theorem normalized_tightenAt {s t : Polyhedron} {i : Nat} {c : Constraint} (hs : s.Normalized)
    (hc : s.constraints[i]? = some c) (h : s.tightenAt i c = .ok t) :
    t.infeasible = false → t.Normalized := by
  rcases tightenAt_cases h with ⟨e, hr, rfl⟩ | ⟨-, rfl⟩
  · have hprim : Coeffs.Primitive ({ c with kind := .equality } : Constraint).coeffs :=
      (hs c (List.mem_of_getElem? hc)).primitive
    exact fun _ => forall_mem_swapLast (List.getElem?_eq_some_iff.mp hc).1 hs
      (Constraint.normal_of_primitive hprim hr)
  · simp

/-- A polyhedron that is known to be infeasible need not be in normal form. -/
theorem normalized_tightenRounds {n i : Nat} {s t : Polyhedron}
    (hs : s.infeasible = false → s.Normalized) (h : tightenRounds n i s = .ok t) :
    t.infeasible = false → t.Normalized := by
  refine keeps_of_tightenRounds (P := fun s => s.infeasible = false → s.Normalized)
    (fun i s r hs hround => ?_) hs h
  cases hround with
  | stop => exact hs
  | clash _ _ _ _ => exact fun hf => absurd hf (by simp [Round.result])
  | pass _ => exact hs
  | tight c t get _ feasible _ tighten => exact normalized_tightenAt (hs feasible) get tighten

theorem Normalized.detectEqualities {s t : Polyhedron} (hs : s.Normalized)
    (h : s.detectEqualities = .ok t) : t.Normalized := by
  simp only [Polyhedron.detectEqualities, Outcome.bind_eq_ok] at h
  obtain ⟨s₁, h₁, s₂, h₂, h₃⟩ := h
  have hfirst := normalized_simplify (fun _ => hs) h₁
  exact normalized_simplify (normalized_tightenRounds (fun _ => hfirst) h₂) h₃

theorem Normalized.fixDetermined {s t : Polyhedron} {start stop : Nat} (hs : s.Normalized)
    (h : s.fixDetermined start stop = .ok t) : t.Normalized := by
  simp only [Polyhedron.fixDetermined, Outcome.bind_eq_ok] at h
  obtain ⟨u, hu, h⟩ := h
  refine normalized_simplify (fun _ => keeps_of_fixVars (fun v s t hs hfix => ?_) hs hu) h
  cases hfix with
  | same => exact hs
  | clash _ _ => exact hs
  | fix x t _ _ _ add =>
      simp only [addTerms, Outcome.bind_eq_ok] at add
      obtain ⟨c, -, add⟩ := add
      exact hs.add add

end Polyhedron

end KernelMap
