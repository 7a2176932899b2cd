import KernelMap.Constraint.Basic
import KernelMap.Proofs.Value

/-!
# KernelMap.Proofs.Constraint

The integer points of a constraint, and what the operations on constraints do
to them.

Main statements:

* `Constraint.sameSet_of_normalize`, `not_holds_of_normalize` — the normal form
  has the same integer points, and a refused constraint has none;
* `Constraint.combine_eq_ok` — a combination has the combined coefficients and
  the combined value;
* `Constraint.holds_lower` — a renumbered constraint holds where the original
  holds through the map.
-/

namespace KernelMap

/-! ## coefficient lists -/

namespace Coeffs

/-- The content divides everything it was taken of, is never negative, and is
zero only if there is nothing but zeros. -/
theorem content?_eq_some {g r : Int} {cs : List Int} (hg : 0 ≤ g) (h : content? g cs = some r) :
    0 ≤ r ∧ r ∣ g ∧ (∀ c ∈ cs, r ∣ c) ∧ (r = 0 → g = 0 ∧ ∀ c ∈ cs, c = 0) := by
  fun_induction content? g cs with
  | case1 g => simp_all
  | case2 g cs ih =>
      obtain ⟨hr, hrg, hall, hzero⟩ := ih hg h
      refine ⟨hr, hrg, ?_, ?_⟩
      · rintro c hc
        rcases List.mem_cons.mp hc with rfl | hc
        · exact dvd_zero r
        · exact hall c hc
      · intro h0
        refine ⟨(hzero h0).1, ?_⟩
        rintro c hc
        rcases List.mem_cons.mp hc with rfl | hc
        · rfl
        · exact (hzero h0).2 c hc
  | case3 g c cs hc ih =>
      simp only [Option.bind_eq_bind, Option.bind_eq_some_iff] at h
      obtain ⟨d, hd, h⟩ := h
      have hd := Word.eq_of_gcd?_eq_some hd
      obtain ⟨hr, hrd, hall, hzero⟩ := ih d (hd ▸ Int.natCast_nonneg _) h
      have hdg : d ∣ g := hd ▸ Int.gcd_dvd_left ..
      have hdc : d ∣ c := hd ▸ Int.gcd_dvd_right ..
      refine ⟨hr, hrd.trans hdg, ?_, ?_⟩
      · rintro c' hc'
        rcases List.mem_cons.mp hc' with rfl | hc'
        · exact hrd.trans hdc
        · exact hall c' hc'
      · intro h0
        -- a zero content would divide the non-zero entry `c`
        exact absurd (Int.zero_dvd.mp ((h0 ▸ hrd).trans hdc)) hc

/-- The content of zeros is zero. -/
theorem content?_of_zero {r : Int} {cs : List Int} (hcs : ∀ c ∈ cs, c = 0)
    (h : content? 0 cs = some r) : r = 0 := by
  induction cs with
  | nil => simpa [content?] using h.symm
  | cons c cs ih =>
      rw [content?, if_pos (hcs c (by simp))] at h
      exact ih (fun d hd => hcs d (by simp [hd])) h

theorem length_divide (g : Int) (cs : List Int) : (divide g cs).length = cs.length := by
  unfold divide
  split <;> simp

/-- Dividing by a common divisor takes that factor out of every coefficient. -/
theorem get_eq_mul_divide {g : Int} {cs : List Int} (h : ∀ c ∈ cs, g ∣ c) (i : Nat) :
    get cs i = g * get (divide g cs) i := by
  unfold divide
  split
  · next h1 => rw [h1, one_mul]
  · by_cases hi : i < cs.length
    · rw [get_of_lt hi, get_of_lt (by simpa using hi), List.getElem_map]
      exact (Int.mul_tdiv_cancel' (h _ (List.getElem_mem hi))).symm
    · rw [get_of_length_le (by omega), get_of_length_le (by simpa using hi), mul_zero]

/-- A common divisor of the coefficients is a factor of every sum. -/
theorem dot_eq_mul_divide {g : Int} {cs : List Int} (h : ∀ c ∈ cs, g ∣ c) (w : Valuation) :
    dot cs w = g * dot (divide g cs) w := by
  have hlin : dot cs w = g * dot (divide g cs) w + 0 * dot [] w :=
    dot_linear (fun i => by rw [get_eq_mul_divide h i]; simp) w
  simpa using hlin

/-- The leading sign is a unit. -/
theorem leadSign_eq (cs : List Int) : leadSign cs = 1 ∨ leadSign cs = -1 := by
  unfold leadSign
  split
  · next c hc =>
    have hne : c ≠ 0 := by simpa using List.find?_some hc
    rcases lt_or_gt_of_ne hne with hlt | hgt
    · exact Or.inr (Int.sign_eq_neg_one_of_neg hlt)
    · exact Or.inl (Int.sign_eq_one_of_pos hgt)
  · exact Or.inl rfl

theorem length_orient (sign : Int) (cs : List Int) : (orient sign cs).length = cs.length := by
  unfold orient
  split <;> simp

/-- Turning coefficients around multiplies each by the sign. -/
theorem get_orient (sign : Int) (cs : List Int) (i : Nat) :
    get (orient sign cs) i = sign * get cs i := by
  unfold orient
  split
  · next h1 => rw [h1, one_mul]
  · by_cases hi : i < cs.length
    · rw [get_of_lt (by simpa using hi), get_of_lt hi, List.getElem_map, mul_comm]
    · rw [get_of_length_le (by simpa using hi), get_of_length_le (by omega), mul_zero]

/-- Turning coefficients around multiplies the sum by the sign. -/
theorem dot_orient (sign : Int) (cs : List Int) (w : Valuation) :
    dot (orient sign cs) w = sign * dot cs w := by
  have hlin : dot (orient sign cs) w = sign * dot cs w + 0 * dot [] w :=
    dot_linear (fun i => by rw [get_orient]; simp) w
  simpa using hlin

end Coeffs

/-! ## integer points -/

namespace Constraint

/-- Does the constraint hold at a valuation, with integers of any size? -/
def Holds (c : Constraint) (w : Valuation) : Prop := c.kind.accepts (c.expr.value w) = true

instance (c : Constraint) (w : Valuation) : Decidable (c.Holds w) :=
  inferInstanceAs (Decidable (_ = true))

@[simp] theorem Kind.accepts_equality {v : Int} : Kind.equality.accepts v = true ↔ v = 0 := by
  simp [Kind.accepts]

@[simp] theorem Kind.accepts_inequality {v : Int} : Kind.inequality.accepts v = true ↔ 0 ≤ v := by
  simp [Kind.accepts]

/-- A positive factor changes nothing. -/
theorem Kind.accepts_mul {kind : Kind} {k v : Int} (hk : 0 < k) :
    kind.accepts (k * v) = true ↔ kind.accepts v = true := by
  cases kind with
  | equality => rw [accepts_equality, accepts_equality, mul_eq_zero, or_iff_right hk.ne']
  | inequality => rw [accepts_inequality, accepts_inequality, mul_nonneg_iff_of_pos_left hk]

@[simp] theorem holds_eq {e : Affine} {w : Valuation} : (eq e).Holds w ↔ e.value w = 0 :=
  Kind.accepts_equality

@[simp] theorem holds_ge {e : Affine} {w : Valuation} : (ge e).Holds w ↔ 0 ≤ e.value w :=
  Kind.accepts_inequality

/-- A constraint that is an equality holds where its form is zero. -/
theorem holds_of_kind_eq {c : Constraint} {w : Valuation} (h : c.kind = .equality) :
    c.Holds w ↔ c.expr.value w = 0 := by
  rw [Holds, h, Kind.accepts_equality]

/-- A constraint that is an inequality holds where its form is not negative. -/
theorem holds_of_kind_ge {c : Constraint} {w : Valuation} (h : c.kind = .inequality) :
    c.Holds w ↔ 0 ≤ c.expr.value w := by
  rw [Holds, h, Kind.accepts_inequality]

theorem coeff_eq_get (c : Constraint) (i : Nat) : c.coeff i = Coeffs.get c.coeffs i := rfl

/-- Only the values of variables that occur matter. -/
theorem holds_congr {c : Constraint} {w w' : Valuation} (h : ∀ i, c.coeff i ≠ 0 → w i = w' i) :
    c.Holds w ↔ c.Holds w' := by
  rw [Holds, Holds, Affine.value_congr h]

/-- Room for more variables does not change where a constraint holds. -/
@[simp] theorem holds_pad {c : Constraint} {n : Nat} {w : Valuation} :
    (c.pad n).Holds w ↔ c.Holds w := by
  simp [Holds, pad, Affine.value, coeffs]

/-- A padded constraint stores one coefficient for each variable. -/
theorem length_coeffs_pad {c : Constraint} {n : Nat} (h : c.coeffs.length ≤ n) :
    (c.pad n).coeffs.length = n := by
  have : (c.pad n).coeffs.length = max n c.coeffs.length := Coeffs.length_pad n c.coeffs
  omega

/-- A constraint without variables holds everywhere or nowhere. -/
theorem holds_of_isConst {c : Constraint} (h : c.isConst = true) (w : Valuation) :
    c.Holds w ↔ c.kind.accepts c.constant = true := by
  rw [Holds, Affine.value_of_isConst h]
  rfl

/-- A constant constraint has no coefficient other than zero. -/
theorem coeff_of_isConst {c : Constraint} (h : c.isConst = true) (i : Nat) : c.coeff i = 0 := by
  rw [coeff_eq_get]
  by_cases hi : i < c.coeffs.length
  · rw [Coeffs.get_of_lt hi]
    simpa using List.all_eq_true.mp h _ (List.getElem_mem hi)
  · exact Coeffs.get_of_length_le (by omega)

/-! ## normal form -/

/-- A refused constraint has no integer point: its coefficients have a common
divisor that does not divide its constant, or it has no coefficients and a false
constant. -/
theorem not_holds_of_normalize {ε : Type} {c : Constraint}
    (h : (c.normalize : Outcome ε (Option Constraint)) = .ok none) (w : Valuation) :
    ¬ c.Holds w := by
  simp only [normalize, Outcome.bind_eq_ok, Outcome.orFault_eq_ok] at h
  obtain ⟨g, hg, h⟩ := h
  obtain ⟨-, -, hdvd, hzero⟩ := Coeffs.content?_eq_some le_rfl hg
  split at h
  · next h0 =>
    have hconst : c.isConst = true := List.all_eq_true.mpr fun x hx => by
      simpa using (hzero h0).2 x hx
    rw [holds_of_isConst hconst]
    split at h <;> simp_all
  · split at h
    · next hkind =>
      split at h
      · next hrem =>
        rw [holds_of_kind_eq hkind, Affine.value]
        intro hval
        have hk : c.constant = -Coeffs.dot c.coeffs w := by
          rw [constant, coeffs]
          omega
        exact hrem (Int.tmod_eq_zero_of_dvd (hk ▸ Int.dvd_neg.mpr (Coeffs.dvd_dot hdvd w)))
      · simp only [Outcome.bind_eq_ok, Outcome.pure_eq_ok, reduceCtorEq,
          and_false, exists_false] at h
    · simp only [Outcome.pure_eq_ok, reduceCtorEq] at h

/-- The constraints have equally many coefficients, and the same variables occur
in them. -/
structure SameSupport (c d : Constraint) : Prop where
  length : d.coeffs.length = c.coeffs.length
  coeff_eq_zero : ∀ v, d.coeff v = 0 ↔ c.coeff v = 0

theorem SameSupport.refl (c : Constraint) : SameSupport c c := ⟨rfl, fun _ => Iff.rfl⟩

theorem SameSupport.trans {c d e : Constraint} (h : SameSupport c d) (h' : SameSupport d e) :
    SameSupport c e :=
  ⟨h'.length.trans h.length, fun v => (h'.coeff_eq_zero v).trans (h.coeff_eq_zero v)⟩

/-- Constraints with the same coefficients involve the same variables. -/
theorem SameSupport.of_coeffs_eq {c d : Constraint} (h : d.coeffs = c.coeffs) :
    SameSupport c d := by
  refine ⟨by rw [h], fun v => ?_⟩
  rw [coeff_eq_get, coeff_eq_get, h]

/-- What the normal form keeps: the kind, the variables that occur, and the
integer points. -/
structure SameSet (c d : Constraint) : Prop extends SameSupport c d where
  kind : d.kind = c.kind
  holds : ∀ w, d.Holds w ↔ c.Holds w

/-- Rounding the constant of an inequality down keeps its integer solutions. -/
theorem nonneg_add_fdiv {g : Int} (hg : 0 < g) (x k : Int) : 0 ≤ x + k.fdiv g ↔ 0 ≤ g * x + k := by
  have hround : -x ≤ k / g ↔ -x * g ≤ k := Int.le_ediv_iff_mul_le hg
  rw [Int.fdiv_eq_ediv_of_nonneg _ hg.le]
  constructor
  · intro hle
    have := hround.mp (by omega)
    linarith
  · intro hle
    have := hround.mpr (by linarith)
    omega

/-- The normal form of a constraint, if there is one, has the same points. -/
theorem sameSet_of_normalize {ε : Type} {c d : Constraint}
    (h : (c.normalize : Outcome ε (Option Constraint)) = .ok (some d)) : SameSet c d := by
  simp only [normalize, Outcome.bind_eq_ok, Outcome.orFault_eq_ok] at h
  obtain ⟨g, hg, h⟩ := h
  obtain ⟨hnonneg, -, hdvd, -⟩ := Coeffs.content?_eq_some le_rfl hg
  have hdot := Coeffs.dot_eq_mul_divide hdvd
  have hget := Coeffs.get_eq_mul_divide hdvd
  split at h
  · split at h
    · simp only [Outcome.pure_eq_ok, Option.some.injEq] at h
      subst h
      exact ⟨.refl c, rfl, fun _ => Iff.rfl⟩
    · simp at h
  · next hne =>
    have hpos : 0 < g := by omega
    split at h
    · next hkind =>
      split at h
      · simp at h
      · next hrem =>
        simp only [Outcome.bind_eq_ok, Outcome.orFault_eq_ok, Word.mul?_eq_some, Outcome.pure_eq_ok,
          Option.some.injEq] at h
        obtain ⟨k, ⟨-, rfl⟩, rfl⟩ := h
        have hconst : c.constant = g * c.constant.tdiv g :=
          (Int.mul_tdiv_cancel' (Int.dvd_of_tmod_eq_zero (by simpa using hrem))).symm
        have hunit : Coeffs.leadSign c.coeffs ≠ 0 := by
          rcases Coeffs.leadSign_eq c.coeffs with hs | hs <;> rw [hs] <;> decide
        refine ⟨⟨?_, fun v => ?_⟩, hkind.symm, fun w => ?_⟩
        · rw [coeffs, eq, Coeffs.length_orient, Coeffs.length_divide]
        · rw [coeff_eq_get c, hget v, coeff_eq_get, coeffs, eq, Coeffs.get_orient]
          simp [hunit, hne]
        · have hval : c.expr.value w =
              g * (Coeffs.dot (Coeffs.divide g c.coeffs) w + c.constant.tdiv g) := by
            rw [Affine.value, ← coeffs, hdot w, mul_add, ← hconst, constant]
          rw [holds_eq, holds_of_kind_eq hkind, hval, Affine.value_mk, Coeffs.dot_orient]
          rw [mul_comm (c.constant.tdiv g), ← mul_add]
          simp [hunit, hne]
    · next hkind =>
      simp only [Outcome.pure_eq_ok, Option.some.injEq] at h
      subst h
      refine ⟨⟨?_, fun v => ?_⟩, hkind.symm, fun w => ?_⟩
      · rw [coeffs, ge, Coeffs.length_divide]
      · rw [coeff_eq_get c, hget v, coeff_eq_get, coeffs, ge]
        simp [hne]
      · rw [holds_ge, holds_of_kind_ge hkind, Affine.value_mk, Affine.value, ← coeffs,
          hdot w, ← constant]
        exact nonneg_add_fdiv hpos _ _

/-- A normal form without variables holds everywhere. -/
theorem holds_of_normalize_isConst {ε : Type} {c d : Constraint}
    (h : (c.normalize : Outcome ε (Option Constraint)) = .ok (some d)) (hd : d.isConst = true)
    (w : Valuation) : d.Holds w := by
  have hset := sameSet_of_normalize h
  have hzero : ∀ v, c.coeff v = 0 := fun v => (hset.coeff_eq_zero v).mp (coeff_of_isConst hd v)
  simp only [normalize, Outcome.bind_eq_ok, Outcome.orFault_eq_ok] at h
  obtain ⟨g, hg, h⟩ := h
  split at h
  · split at h
    · next hacc =>
      simp only [Outcome.pure_eq_ok, Option.some.injEq] at h
      subst h
      exact (holds_of_isConst hd w).mpr hacc
    · simp at h
  · next hne =>
    -- all coefficients are zero, so the content is zero after all
    have hall : ∀ x ∈ c.coeffs, x = 0 := Coeffs.forall_mem_of_get hzero
    exact absurd (Coeffs.content?_of_zero hall hg) hne

/-! ## combination -/

/-- A successful combination has the kind of the first constraint and the
combined coefficients and value. -/
theorem combine_eq_ok {c d r : Constraint} {k₁ k₂ : Int} (h : c.combine k₁ d k₂ = .ok r) :
    r.kind = c.kind ∧ (∀ v, r.coeff v = k₁ * c.coeff v + k₂ * d.coeff v) ∧
      (∀ w, r.expr.value w = k₁ * c.expr.value w + k₂ * d.expr.value w) ∧
      r.coeffs.length = max c.coeffs.length d.coeffs.length := by
  simp only [combine, Outcome.bind_eq_ok, Outcome.orOverflow_eq_ok, Outcome.pure_eq_ok] at h
  obtain ⟨e, he, rfl⟩ := h
  obtain ⟨hcoeff, -, hlen⟩ := Affine.combine?_eq_some he
  exact ⟨rfl, hcoeff, Affine.value_combine? he, hlen⟩

/-! ## from terms -/

/-- The value of a list of terms. -/
def termsValue (terms : List (Nat × Int)) (w : Valuation) : Int :=
  (terms.map fun t => t.2 * w t.1).sum

/-- There is room for the variable of every term. -/
theorem lt_termsLength {terms : List (Nat × Int)} {t : Nat × Int} (h : t ∈ terms) :
    t.1 < termsLength terms := by
  induction terms with
  | nil => simp at h
  | cons u rest ih =>
      obtain ⟨v, k⟩ := u
      rw [termsLength]
      rcases List.mem_cons.mp h with rfl | h
      · simp
      · have := ih h
        omega

/-- Adding terms to coefficients adds their values to the sum, without more room. -/
theorem dot_of_addTerms {ε : Type} {terms : List (Nat × Int)} {cs r : List Int}
    (hlt : ∀ t ∈ terms, t.1 < cs.length) (h : (addTerms terms cs : Outcome ε (List Int)) = .ok r) :
    r.length = cs.length ∧ ∀ w, Coeffs.dot r w = Coeffs.dot cs w + termsValue terms w := by
  induction terms generalizing cs with
  | nil =>
      simp only [addTerms, Except.ok.injEq] at h
      simp [h, termsValue]
  | cons t rest ih =>
      obtain ⟨v, k⟩ := t
      simp only [addTerms, Outcome.bind_eq_ok, Outcome.orFault_eq_ok, Word.add?_eq_some] at h
      obtain ⟨sum, ⟨-, rfl⟩, h⟩ := h
      have hv : v < cs.length := hlt (v, k) (by simp)
      obtain ⟨hlen, hdot⟩ := ih (fun t ht => by simpa using hlt t (by simp [ht])) h
      refine ⟨by simpa using hlen, fun w => ?_⟩
      rw [hdot w, Coeffs.dot_set hv, termsValue, termsValue, List.map_cons,
        List.sum_cons, Coeffs.get]
      ring

/-- A constraint made from terms has their kind, room for their variables and the sum of their
values. -/
theorem ofTerms_eq_ok {ε : Type} {kind : Kind} {terms : List (Nat × Int)} {k : Int} {c : Constraint}
    (h : (ofTerms kind terms k : Outcome ε Constraint) = .ok c) :
    c.kind = kind ∧ c.coeffs.length = termsLength terms ∧ ∀ w,
      c.expr.value w = termsValue terms w + k := by
  simp only [ofTerms] at h
  split at h
  · simp at h
  · simp only [Outcome.bind_eq_ok, Outcome.pure_eq_ok] at h
    obtain ⟨cs, hcs, rfl⟩ := h
    obtain ⟨hlen, hdot⟩ := dot_of_addTerms (fun t ht => by simpa using lt_termsLength ht) hcs
    refine ⟨rfl, hlen.trans List.length_replicate, fun w => ?_⟩
    rw [Affine.value_mk, hdot w, Coeffs.dot_replicate_zero, zero_add]

/-- The terms of a form at new places have its value at the renamed variables. -/
theorem termsValue_of_placeTerms {ε : Type} {cs : List Int} {map : List Nat}
    {terms : List (Nat × Int)} (h : (placeTerms cs map : Outcome ε (List (Nat × Int))) = .ok terms)
    (w : Valuation) : termsValue terms w = Coeffs.dot cs fun i => w (map.getD i 0) := by
  fun_induction @placeTerms ε cs map generalizing terms with
  | case1 =>
      simp only [Except.ok.injEq] at h
      simp [← h, termsValue]
  | case2 cs ih =>
      rw [ih h, Coeffs.dot_cons]
      simp
  | case3 => simp at h
  | case4 c cs i is ih =>
      simp only [Outcome.bind_eq_ok, Outcome.pure_eq_ok] at h
      obtain ⟨rest, hrest, rfl⟩ := h
      have hdot := ih hrest
      rw [Coeffs.dot_cons]
      split
      · next hc => simpa [hc] using hdot
      · rw [termsValue, List.map_cons, List.sum_cons, ← termsValue, hdot]
        simp

/-- A constraint over other variables holds where the original holds through
the map. -/
theorem holds_lower {ε : Type} {c d : Constraint} {map : List Nat}
    (h : (c.lower map : Outcome ε Constraint) = .ok d) (w : Valuation) :
    d.Holds w ↔ c.Holds fun i => w (map.getD i 0) := by
  simp only [lower, Outcome.bind_eq_ok] at h
  obtain ⟨terms, hterms, h⟩ := h
  obtain ⟨hkind, -, hval⟩ := ofTerms_eq_ok h
  rw [Holds, Holds, hkind, hval, termsValue_of_placeTerms hterms]
  rfl

end Constraint

end KernelMap
