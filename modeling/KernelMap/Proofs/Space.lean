import KernelMap.Space
import KernelMap.Proofs.Constraint

/-!
# KernelMap.Proofs.Space

Division variables mean floor divisions.

A valuation `Defines` a space if every division variable has the value of its
quotient.  The forms made by `floor` and `modulo` have the right value at every such
valuation, and keep it when more divisions are added, because the new
valuations still define the old space (`Defines.of_extends`).  Values for the parameters
and iterators extend to such a valuation by `Space.point`, since a division only uses
variables before it.

Main statements: `Space.floor_eq_ok`, `Space.modulo_eq_ok`, `Space.defines_point`,
`Space.holds_constraints_iff_bounded`, `Space.WellFormed.bounded_iff`.
-/

namespace KernelMap

/-! ## forms of a space -/

/-- Only the first `n` variables occur. -/
def Affine.Within (n : Nat) (a : Affine) : Prop := ∀ i, n ≤ i → a.coeff i = 0

namespace Affine

theorem Within.mono {a : Affine} {m n : Nat} (h : a.Within m) (hmn : m ≤ n) : a.Within n :=
  fun i hi => h i (hmn.trans hi)

/-- A form has no variables beyond its width. -/
theorem within_of_width {a : Affine} {n : Nat} (h : a.width ≤ n) : a.Within n := by
  intro i hi
  rw [coeff_eq, ← Coeffs.get_trim]
  exact Coeffs.get_of_length_le (h.trans hi)

theorem within_const (k : Int) (n : Nat) : (const k).Within n := fun i _ => coeff_const k i

/-- A term has the variable it is made for. -/
theorem within_term {v n : Nat} (k : Int) (h : v < n) : (term v k).Within n := by
  intro i hi
  rw [coeff_term, if_neg (by omega)]

theorem within_var {v n : Nat} (h : v < n) : (var v).Within n := within_term 1 h

/-- A multiple has no other variables. -/
theorem Within.scale {a b : Affine} {k : Int} {n : Nat} (h : a.Within n) (hb : a.scale k = .ok b) :
    b.Within n :=
  fun i hi => by rw [(scale_eq_ok hb).1, h i hi, mul_zero]

/-- A difference has no variables but those of its parts. -/
theorem Within.sub {a b c : Affine} {n : Nat} (ha : a.Within n) (hb : b.Within n)
    (hc : a.sub b = .ok c) : c.Within n :=
  fun i hi => by rw [(sub_eq_ok hc).1, ha i hi, hb i hi, sub_zero]

theorem Within.addConst {a b : Affine} {k : Int} {n : Nat} (h : a.Within n)
    (hb : a.addConst k = .ok b) : b.Within n := by
  intro i hi
  rw [addConst_eq_ok hb]
  exact h i hi

/-- The value only depends on the first `n` variables. -/
theorem Within.value_congr {a : Affine} {n : Nat} (h : a.Within n) {w w' : Valuation}
    (hw : ∀ i, i < n → w i = w' i) : a.value w = a.value w' :=
  Affine.value_congr fun i hi => hw i (Nat.lt_of_not_le fun hle => hi (h i hle))

end Affine

namespace Space

variable {ε : Type}

/-! ## spaces with divisions -/

/-- Every division variable has the value of its quotient. -/
def Defines (s : Space) (w : Valuation) : Prop :=
  ∀ (j : Nat) (d : Division), s.divs[j]? = some d → w (s.divOffset + j) = (d.num.value w).fdiv d.den

/-- Denominators are positive, and a division only uses variables before it. -/
def WellFormed (s : Space) : Prop :=
  ∀ (j : Nat) (d : Division), s.divs[j]? = some d → 0 < d.den ∧ d.num.Within (s.divOffset + j)

/-- `t` is `s` with further divisions. -/
structure Extends (s t : Space) : Prop where
  nParam : t.nParam = s.nParam
  nIter : t.nIter = s.nIter
  divs : s.divs <+: t.divs

theorem Extends.refl (s : Space) : Extends s s := ⟨rfl, rfl, List.prefix_refl _⟩

/-- Divisions can be added one after the other. -/
theorem Extends.trans {s t u : Space} (h : Extends s t) (h' : Extends t u) : Extends s u :=
  ⟨h'.nParam.trans h.nParam, h'.nIter.trans h.nIter, h.divs.trans h'.divs⟩

/-- New divisions leave parameters and iterators where they are. -/
theorem Extends.divOffset {s t : Space} (h : Extends s t) : t.divOffset = s.divOffset := by
  rw [Space.divOffset, h.nParam, h.nIter, Space.divOffset]

theorem Extends.dim_le {s t : Space} (h : Extends s t) : s.dim ≤ t.dim := by
  rw [dim, dim, h.divOffset]
  exact Nat.add_le_add_left h.divs.length_le _

/-- What defines a space defines the part of it that was there before. -/
theorem Defines.of_extends {s t : Space} {w : Valuation} (hw : t.Defines w) (h : Extends s t) :
    s.Defines w := by
  intro j d hd
  obtain ⟨rest, hrest⟩ := h.divs
  have hlt : j < s.divs.length := (List.getElem?_eq_some_iff.mp hd).1
  rw [← h.divOffset]
  refine hw j d ?_
  rw [← hrest, List.getElem?_append_left hlt, hd]

/-- A space without divisions is well-formed. -/
theorem wellFormed_ofSizes (nParam nIter : Nat) : (ofSizes nParam nIter).WellFormed := by
  intro j d hd
  simp [ofSizes] at hd

/-- An equal division is shared, any other one gets the next variable. -/
theorem addDivision_cases {s t : Space} {a : Affine} {den : Int} {v : Nat}
    (h : (s.addDivision a den : Outcome ε (Nat × Space)) = .ok (v, t)) :
    (∃ (i : Nat) (d : Division), s.divs[i]? = some d ∧ d.num.same a = true ∧ d.den = den ∧
      v = s.divOffset + i ∧ t = s) ∨
      0 < den ∧ v = s.dim ∧ t = { s with divs := s.divs ++ [⟨a, den⟩] } := by
  unfold addDivision at h
  split at h
  · simp at h
  next hden =>
  split at h
  · next i hi =>
    simp only [Except.ok.injEq, Prod.mk.injEq] at h
    obtain ⟨hlt, hsame, -⟩ := List.findIdx?_eq_some_iff_getElem.mp hi
    simp only [Division.same, Bool.and_eq_true, beq_iff_eq] at hsame
    exact .inl ⟨i, _, List.getElem?_eq_getElem hlt, hsame.1, hsame.2, h.1.symm, h.2.symm⟩
  · simp only [Except.ok.injEq, Prod.mk.injEq] at h
    exact .inr ⟨by omega, h.1.symm, h.2.symm⟩

/-- The variable of a division has the value of the quotient. -/
theorem addDivision_eq_ok {s t : Space} {a : Affine} {den : Int} {v : Nat} (hs : s.WellFormed)
    (ha : a.Within s.dim) (h : (s.addDivision a den : Outcome ε (Nat × Space)) = .ok (v, t)) :
    s.Extends t ∧ t.WellFormed ∧ v < t.dim ∧ ∀ w, t.Defines w → w v = (a.value w).fdiv den := by
  rcases addDivision_cases h with ⟨i, d, hd, hsame, rfl, rfl, rfl⟩ | ⟨hden, rfl, rfl⟩
  · have hlt := (List.getElem?_eq_some_iff.mp hd).1
    refine ⟨.refl _, hs, by rw [dim]; omega, fun w hw => ?_⟩
    rw [hw i d hd, Affine.value_eq_of_same hsame]
  · refine ⟨⟨rfl, rfl, List.prefix_append _ _⟩,
      fun j d hd => ?_, by simp [dim, divOffset], fun w hw => ?_⟩
    · by_cases hj : j < s.divs.length
      · rw [List.getElem?_append_left hj] at hd
        exact hs j d hd
      · obtain ⟨rfl, rfl⟩ : j = s.divs.length ∧ d = ⟨a, den⟩ := by
          have hlen := (List.getElem?_eq_some_iff.mp hd).1
          rw [List.length_append, List.length_singleton] at hlen
          have hjeq : j = s.divs.length := by omega
          subst hjeq
          exact ⟨rfl, by simpa using hd.symm⟩
        exact ⟨hden, ha⟩
    · exact hw s.divs.length ⟨a, den⟩ (by simp)

/-- A quotient needs a division, unless it is the form itself or a number. -/
theorem floor_cases {s t : Space} {a f : Affine} {den : Int}
    (h : (s.floor a den : Outcome ε (Affine × Space)) = .ok (f, t)) :
    t = s ∧ (den = 1 ∧ f = a ∨ a.isConst = true ∧ f = .const (a.constant.fdiv den)) ∨
      ∃ v, (s.addDivision a den : Outcome ε (Nat × Space)) = .ok (v, t) ∧ f = .var v := by
  unfold floor at h
  split at h
  · next hone =>
    simp only [Except.ok.injEq, Prod.mk.injEq] at h
    exact .inl ⟨h.2.symm, .inl ⟨hone, h.1.symm⟩⟩
  split at h
  · next hconst =>
    simp only [Outcome.bind_eq_ok, Outcome.orFault_eq_ok, Word.floorDiv?_eq_some,
      Outcome.pure_eq_ok, Prod.mk.injEq] at h
    obtain ⟨_, ⟨-, -, rfl⟩, hf, ht⟩ := h
    exact .inl ⟨ht.symm, .inr ⟨hconst, hf.symm⟩⟩
  · simp only [Outcome.bind_eq_ok, Outcome.pure_eq_ok, Prod.mk.injEq] at h
    obtain ⟨⟨v, u⟩, hv, rfl, rfl⟩ := h
    exact .inr ⟨v, hv, rfl⟩

/-- The form made by `floor` is the floor of the quotient, wherever the space is
defined. -/
theorem floor_eq_ok {s t : Space} {a f : Affine} {den : Int} (hs : s.WellFormed)
    (ha : a.Within s.dim) (h : (s.floor a den : Outcome ε (Affine × Space)) = .ok (f, t)) :
    s.Extends t ∧ t.WellFormed ∧ f.Within t.dim ∧ ∀ w, t.Defines w →
      f.value w = (a.value w).fdiv den := by
  rcases floor_cases h with ⟨rfl, ⟨rfl, rfl⟩ | ⟨hconst, rfl⟩⟩ | ⟨v, hv, rfl⟩
  · exact ⟨.refl _, hs, ha, fun w _ => by rw [Int.fdiv_one]⟩
  · refine ⟨.refl _, hs, Affine.within_const _ _, fun w _ => ?_⟩
    rw [Affine.value_const, Affine.value_of_isConst hconst]
  · obtain ⟨hext, hwf, hlt, hval⟩ := addDivision_eq_ok hs ha hv
    refine ⟨hext, hwf, Affine.within_var hlt, fun w hw => ?_⟩
    rw [Affine.value_var, hval w hw]

/-- The form made by `modulo` is the remainder of the division rounded down. -/
theorem modulo_eq_ok {s t : Space} {a f : Affine} {den : Int} (hs : s.WellFormed)
    (ha : a.Within s.dim) (h : s.modulo a den = .ok (f, t)) :
    s.Extends t ∧ t.WellFormed ∧ f.Within t.dim ∧ ∀ w, t.Defines w →
      f.value w = (a.value w).fmod den := by
  simp only [modulo, Outcome.bind_eq_ok, Outcome.pure_eq_ok, Prod.mk.injEq] at h
  obtain ⟨⟨q, u⟩, hq, m, hm, f, hf, rfl, rfl⟩ := h
  obtain ⟨hext, hwf, hwithin, hval⟩ := floor_eq_ok hs ha hq
  refine ⟨hext, hwf, (ha.mono hext.dim_le).sub (hwithin.scale hm) hf, fun w hw => ?_⟩
  rw [Affine.value_sub hf, Affine.value_scale hm, hval w hw, Int.fmod_def]

/-! ## exact evaluation -/

/-- Extend `values` by the exact values of the divisions. -/
def pointOnto : List Division → List Int → List Int
  | [], values => values
  | d :: ds, values => pointOnto ds (values ++ [(d.num.value (.ofList values)).fdiv d.den])

/-- The values of all variables, given those of the parameters and iterators, with
integers of any size. -/
def point (s : Space) (base : List Int) : List Int := pointOnto s.divs base

/-- Evaluation of divisions that succeeds gives the point. -/
theorem evalOnto_eq_ok {ds : List Division} {values r : List Int} (h : evalOnto ds values = .ok r) :
    r = pointOnto ds values := by
  induction ds generalizing values with
  | nil =>
      simp only [evalOnto, Except.ok.injEq] at h
      exact h.symm
  | cons d ds ih =>
      simp only [evalOnto, Outcome.bind_eq_ok, Outcome.orFault_eq_ok, Word.floorDiv?_eq_some] at h
      obtain ⟨v, hv, _, ⟨-, -, rfl⟩, h⟩ := h
      rw [ih h, pointOnto, Affine.eval_eq_ok hv]

/-- Evaluation that succeeds gives the exact values. -/
theorem eval_eq_ok {s : Space} {base values : List Int} (h : s.eval base = .ok values) :
    values = s.point (base.take s.divOffset) := by
  unfold eval at h
  split at h
  · simp at h
  · exact evalOnto_eq_ok h

/-- The quotients come after the values they are computed from. -/
theorem exists_pointOnto (ds : List Division) (values : List Int) :
    ∃ qs, pointOnto ds values = values ++ qs := by
  induction ds generalizing values with
  | nil => exact ⟨[], (List.append_nil _).symm⟩
  | cons d ds ih =>
      obtain ⟨qs, hqs⟩ := ih (values ++ [(d.num.value (.ofList values)).fdiv d.den])
      exact ⟨(d.num.value (.ofList values)).fdiv d.den ::
        qs, by rw [pointOnto, hqs, List.append_assoc]; rfl⟩

/-- A point has a value for every division. -/
theorem length_pointOnto (ds : List Division) (values : List Int) :
    (pointOnto ds values).length = values.length + ds.length := by
  induction ds generalizing values with
  | nil => rfl
  | cons d ds ih =>
      rw [pointOnto, ih, List.length_append, List.length_singleton, List.length_cons]
      omega

/-- Each quotient of a point is that of its division. -/
theorem pointOnto_division {ds : List Division} {values : List Int}
    (hds : ∀ (j : Nat) (d : Division), ds[j]? = some d → d.num.Within (values.length + j)) {j : Nat}
    {d : Division} (hd : ds[j]? = some d) :
    Valuation.ofList (pointOnto ds values) (values.length + j) =
      (d.num.value (.ofList (pointOnto ds values))).fdiv d.den := by
  induction ds generalizing values j with
  | nil => simp at hd
  | cons e ds ih =>
      rw [pointOnto]
      cases j with
      | zero =>
          obtain rfl : e = d := by simpa using hd
          obtain ⟨qs, hqs⟩ :=
            exists_pointOnto ds (values ++ [(e.num.value (.ofList values)).fdiv e.den])
          have hsame : e.num.value
              (.ofList (values ++ [(e.num.value (.ofList values)).fdiv e.den] ++ qs)) = e.num.value
              (.ofList values) := by
            refine (hds 0 e rfl).value_congr fun i hi => ?_
            rw [List.append_assoc, Valuation.ofList_append_left (by simpa using hi)]
          rw [hqs, hsame, List.append_assoc, Valuation.ofList_append_right]
          rfl
      | succ j =>
          have hlen : (values ++ [(e.num.value (.ofList values)).fdiv e.den]).length + j =
              values.length + (j + 1) := by
            rw [List.length_append, List.length_singleton]
            omega
          have htail : ∀ (i : Nat) (c : Division), ds[i]? = some c →
              c.num.Within
                ((values ++ [(e.num.value (.ofList values)).fdiv e.den]).length + i) := by
            intro i c hc
            refine (hds (i + 1) c (by simpa using hc)).mono ?_
            rw [List.length_append, List.length_singleton]
            omega
          rw [← hlen]
          exact ih htail (by simpa using hd)

/-- At a point of a space, the divisions are the quotients they stand for. -/
theorem defines_point {s : Space} (hs : s.WellFormed) {base : List Int}
    (hbase : base.length = s.divOffset) : s.Defines (.ofList (s.point base)) := by
  intro j d hd
  rw [← hbase]
  exact pointOnto_division (fun i c hc => hbase ▸ (hs i c hc).2) hd

/-- Every space has such a point. -/
theorem exists_defines {s : Space} (hs : s.WellFormed) : ∃ w, s.Defines w :=
  ⟨_, defines_point hs (List.length_replicate (n := s.divOffset) (a := 0))⟩

/-- Parameters and iterators keep their values in a point. -/
theorem point_base (s : Space) {base : List Int} {i : Nat} (hi : i < base.length) :
    Valuation.ofList (s.point base) i = Valuation.ofList base i := by
  obtain ⟨qs, hqs⟩ := exists_pointOnto s.divs base
  rw [point, hqs, Valuation.ofList_append_left hi]

end Space

/-! ## defining constraints -/

namespace Division

/-- The inequalities `num - den·q ≥ 0` and `den·q + den - 1 - num ≥ 0`, with integers of any
size. -/
def Bounds (d : Division) (q : Nat) (w : Valuation) : Prop :=
  0 ≤ d.num.value w - d.den * w q ∧ 0 ≤ d.den * w q + d.den - 1 - d.num.value w

/-- The two inequalities pin the variable down, also where the numerator is negative. -/
theorem bounds_iff {d : Division} {q : Nat} {w : Valuation} (hden : 0 < d.den) :
    d.Bounds q w ↔ w q = (d.num.value w).fdiv d.den := by
  rw [Int.fdiv_eq_ediv_of_nonneg _ hden.le]
  constructor
  · rintro ⟨hbelow, habove⟩
    have hdiv : d.num.value w - d.den * w q + d.den * w q = d.num.value w := by ring
    exact ((Int.ediv_emod_unique hden).mpr ⟨hdiv, hbelow, by linarith⟩).1.symm
  · intro hw
    have hdiv := Int.emod_add_mul_ediv (d.num.value w) d.den
    have hnonneg := Int.emod_nonneg (d.num.value w) hden.ne'
    have hlt := Int.emod_lt_of_pos (d.num.value w) hden
    rw [Bounds, hw]
    constructor <;> linarith

end Division

namespace Space

/-- The two constraints of a division say that its remainder is in range. -/
theorem divisionConstraints_eq_ok {q : Nat} {d : Division} {cs : List Constraint}
    (h : divisionConstraints q d = .ok cs) :
    (d.num.Within q → ∀ c ∈ cs, c.expr.Within (q + 1)) ∧ ∀ w, (∀ c ∈ cs, c.Holds w) ↔
      d.Bounds q w := by
  simp only [divisionConstraints, Outcome.bind_eq_ok, Outcome.orFault_eq_ok, Word.sub?_eq_some,
    Outcome.pure_eq_ok] at h
  obtain ⟨below, hbelow, gap, hgap, _, ⟨-, rfl⟩, above, habove, rfl⟩ := h
  refine ⟨fun hnum => ?_, fun w => ?_⟩
  · have hnum' : d.num.Within (q + 1) := hnum.mono (Nat.le_succ q)
    have hproduct : (Affine.term q d.den).Within (q + 1) :=
      Affine.within_term _ (Nat.lt_succ_self q)
    simp only [List.forall_mem_cons, List.not_mem_nil, false_implies, implies_true, and_true]
    exact ⟨hnum'.sub hproduct hbelow, (hproduct.sub hnum' hgap).addConst habove⟩
  · have hgap' : d.den * w q - d.num.value w + (d.den - 1) = d.den * w q +
        d.den - 1 - d.num.value w := by ring
    simp only [List.forall_mem_cons, List.not_mem_nil, false_implies, implies_true, and_true,
      Constraint.holds_ge, Affine.value_addConst habove, Affine.value_sub hbelow,
      Affine.value_sub hgap, Affine.value_term, hgap', Division.Bounds]

/-- What holds of every position of a list holds of its head and of every position of its tail. -/
theorem forall_getElem?_cons {α : Type} {x : α} {xs : List α} {P : Nat → α → Prop} :
    (∀ (j : Nat) (y : α), (x :: xs)[j]? = some y → P j y) ↔
      P 0 x ∧ ∀ (j : Nat) (y : α), xs[j]? = some y → P (j + 1) y := by
  rw [← Nat.and_forall_add_one]
  simp

/-- The constraints of divisions say that all remainders are in range. -/
theorem constraintsFrom_eq_ok {q : Nat} {ds : List Division} {cs : List Constraint}
    (h : constraintsFrom q ds = .ok cs) :
    ((∀ (j : Nat) (d : Division), ds[j]? = some d → d.num.Within (q + j)) →
      ∀ c ∈ cs, c.expr.Within (q + ds.length)) ∧
      ∀ w, (∀ c ∈ cs, c.Holds w) ↔ ∀ (j : Nat) (d : Division), ds[j]? = some d →
      d.Bounds (q + j) w := by
  induction ds generalizing q cs with
  | nil =>
      simp only [constraintsFrom, Except.ok.injEq] at h
      simp [← h]
  | cons d ds ih =>
      simp only [constraintsFrom, Outcome.bind_eq_ok, Outcome.pure_eq_ok] at h
      obtain ⟨cs₁, h₁, cs₂, h₂, rfl⟩ := h
      have hshift : ∀ j : Nat, q + 1 + j = q + (j + 1) := fun j => by omega
      obtain ⟨hwithin₁, hholds₁⟩ := divisionConstraints_eq_ok h₁
      obtain ⟨hwithin₂, hholds₂⟩ := ih h₂
      simp only [hshift] at hwithin₂ hholds₂
      refine ⟨fun hds => List.forall_mem_append.mpr ⟨fun c hc => ?_, ?_⟩, fun w => ?_⟩
      · exact (hwithin₁ (hds 0 d rfl) c hc).mono (by simp)
      · exact hwithin₂ fun j e he => hds (j + 1) e (by simpa using he)
      · rw [List.forall_mem_append, hholds₁, hholds₂, forall_getElem?_cons, Nat.add_zero]

/-- The inequalities of every division hold. -/
def Bounded (s : Space) (w : Valuation) : Prop :=
  ∀ (j : Nat) (d : Division), s.divs[j]? = some d → d.Bounds (s.divOffset + j) w

/-- Remainders are in range exactly where the quotients are those they stand for. -/
theorem WellFormed.bounded_iff {s : Space} (hs : s.WellFormed) {w : Valuation} :
    s.Bounded w ↔ s.Defines w :=
  forall₃_congr fun j d hd => Division.bounds_iff (hs j d hd).1

theorem holds_constraints_iff_bounded {s : Space} {cs : List Constraint}
    (h : s.constraints = .ok cs) (w : Valuation) : (∀ c ∈ cs, c.Holds w) ↔ s.Bounded w :=
  (constraintsFrom_eq_ok h).2 w

/-- The defining constraints hold at every valuation that defines the space. -/
theorem holds_constraints {s : Space} {cs : List Constraint} (hs : s.WellFormed)
    (h : s.constraints = .ok cs) :
    (∀ c ∈ cs, c.expr.Within s.dim) ∧ ∀ w, s.Defines w → ∀ c ∈ cs, c.Holds w := by
  refine ⟨(constraintsFrom_eq_ok h).1 fun j d hd => (hs j d hd).2, fun w hw => ?_⟩
  exact (holds_constraints_iff_bounded h w).mpr (hs.bounded_iff.mpr hw)

end Space

end KernelMap
