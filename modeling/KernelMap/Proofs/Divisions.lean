import KernelMap.Proofs.AffineAlgebra
import KernelMap.Proofs.Space

/-!
# KernelMap.Proofs.Divisions

The one extension of given values to the divisions of a space.

The inequalities of a space pin its division variables down one after the other, since a
division only uses variables before it: over given values of the parameters and iterators
they have a single solution, the one that evaluation finds (`Space.bounded_iff_eq_point`).
A space grows by `Request`s.  Each is answered by a form that has the value of a quotient
or a remainder there (`Request.answer_eq_ok`), and further divisions only add values
(`Extends.exists_point`).

The values are integers of any size.  Where all numbers that come up are words, these are
the constraints that are stored and the values that are evaluated
(`Space.exists_constraints_iff`, `Space.eval_eq_ok_iff`).

Main statement: `Space.divisions_are_floor_quotients`.
-/

namespace KernelMap

namespace Space

variable {s t : Space}

/-! ## the only solution -/

/-- The values of the divisions follow from those of the parameters and iterators. -/
theorem Defines.eq_point (hs : s.WellFormed) {w : Valuation} (hw : s.Defines w) {base : List Int}
    (hbase : base.length = s.divOffset)
    (hagree : ∀ i, i < s.divOffset → w i = Valuation.ofList base i) {i : Nat} (hi : i < s.dim) :
    w i = Valuation.ofList (s.point base) i := by
  -- a division only uses variables before it, so the induction is on the variable
  induction i using Nat.strong_induction_on with
  | _ i ih =>
    by_cases hlt : i < s.divOffset
    · rw [hagree i hlt, point_base s (by omega)]
    · obtain ⟨j, rfl⟩ : ∃ j, i = s.divOffset + j := ⟨i - s.divOffset, by omega⟩
      have hj : j < s.divs.length := by
        rw [dim] at hi
        omega
      have hd := List.getElem?_eq_getElem hj
      have hnum : s.divs[j].num.value w = s.divs[j].num.value (.ofList (s.point base)) :=
        (hs j _ hd).2.value_congr fun i hij => ih i hij (by omega)
      rw [hw j _ hd, hnum, defines_point hs hbase j _ hd]

/-- A point has a value for each variable of the space. -/
theorem length_point {base : List Int} (hbase : base.length = s.divOffset) :
    (s.point base).length = s.dim := by
  rw [point, length_pointOnto, hbase, dim]

/-- The inequalities hold exactly at the values that evaluation gives. -/
theorem bounded_iff_eq_point (hs : s.WellFormed) {values : List Int}
    (hvalues : values.length = s.dim) :
    s.Bounded (.ofList values) ↔ values = s.point (values.take s.divOffset) := by
  have hbase : (values.take s.divOffset).length = s.divOffset := by
    rw [List.length_take, hvalues, dim]
    omega
  rw [hs.bounded_iff]
  constructor
  · intro hdefines
    refine List.ext_getElem (by rw [length_point hbase, hvalues]) fun i hi hi' => ?_
    have hsame := hdefines.eq_point hs hbase (fun i hi => ?_) (i := i) (by omega)
    · rwa [Valuation.ofList, Valuation.ofList, List.getD_eq_getElem _ _ hi,
        List.getD_eq_getElem _ _ hi'] at hsame
    · rw [Valuation.ofList, Valuation.ofList, List.getD_eq_getElem?_getD,
        List.getD_eq_getElem?_getD, List.getElem?_take_of_lt hi]
  · intro heq
    rw [heq]
    exact defines_point hs hbase

/-- The defining constraints hold exactly at the values that evaluation gives. -/
theorem holds_constraints_iff (hs : s.WellFormed) {cs : List Constraint}
    (h : s.constraints = .ok cs) {values : List Int} (hvalues : values.length = s.dim) :
    (∀ c ∈ cs, c.Holds (.ofList values)) ↔ values = s.point (values.take s.divOffset) := by
  rw [holds_constraints_iff_bounded h, bounded_iff_eq_point hs hvalues]

/-- The values of divisions are computed one after the other. -/
theorem pointOnto_append (ds es : List Division) (values : List Int) :
    pointOnto (ds ++ es) values = pointOnto es (pointOnto ds values) := by
  induction ds generalizing values with
  | nil => rfl
  | cons d ds ih => rw [List.cons_append, pointOnto, ih, pointOnto]

/-- Further divisions only add values. -/
theorem Extends.exists_point (h : s.Extends t) (base : List Int) :
    ∃ qs, t.point base = s.point base ++ qs := by
  obtain ⟨ds, hds⟩ := h.divs
  rw [point, ← hds, pointOnto_append]
  exact exists_pointOnto ds _

end Space

/-! ## numbers that are words -/

/-- All numbers of the constraints for variable `q` are words. -/
structure Division.Encodable (d : Division) (q : Nat) : Prop where
  below : Affine.Subtractable d.num (.term q d.den)
  gap : Affine.Subtractable (.term q d.den) d.num
  last : Word.fits (d.den - 1) = true
  above : Word.fits (-d.num.constant + (d.den - 1)) = true

/-- Whether a form can be evaluated depends on its own variables only. -/
theorem Affine.Within.evaluable_congr {a : Affine} {n : Nat} (h : a.Within n) {w w' : Valuation}
    (hw : ∀ i, i < n → w i = w' i) : a.Evaluable w ↔ a.Evaluable w' := by
  have hlt : ∀ i, a.coeff i ≠ 0 → i < n := fun i hi => Nat.lt_of_not_le fun hle => hi (h i hle)
  refine forall₂_congr fun i hi => ?_
  have hdot : Coeffs.dot (a.coeffs.take (i + 1)) w = Coeffs.dot (a.coeffs.take (i + 1)) w' := by
    refine Coeffs.dot_congr fun j hj => hw j ?_
    by_contra hge
    exact hj (Coeffs.get_of_length_le (by rw [List.length_take]; have := hlt i hi; omega))
  rw [hw i (hlt i hi), hdot]

namespace Space

variable {s t : Space}

/-- A division has defining constraints exactly if all their numbers are words. -/
theorem exists_divisionConstraints_iff {q : Nat} {d : Division} :
    (∃ cs, divisionConstraints q d = .ok cs) ↔ d.Encodable q := by
  have hconstant : ∀ gap, (Affine.term q d.den).sub d.num = .ok gap →
      gap.constant = -d.num.constant := by
    intro gap hgap
    rw [(Affine.sub_eq_ok hgap).2, Affine.constant_term, zero_sub]
  simp only [divisionConstraints, Outcome.bind_eq_ok, Outcome.orFault_eq_ok, Word.sub?_eq_some,
    Outcome.pure_eq_ok]
  constructor
  · rintro ⟨-, below, hbelow, gap, hgap, -, ⟨hlast, rfl⟩, above, habove, -⟩
    refine ⟨Affine.exists_sub_iff.mp ⟨below, hbelow⟩,
      Affine.exists_sub_iff.mp ⟨gap, hgap⟩, hlast, ?_⟩
    rw [← hconstant gap hgap]
    exact Affine.exists_addConst_iff.mp ⟨above, habove⟩
  · rintro ⟨hbelow, hgap, hlast, habove⟩
    obtain ⟨below, hbelow⟩ := Affine.exists_sub_iff.mpr hbelow
    obtain ⟨gap, hgap⟩ := Affine.exists_sub_iff.mpr hgap
    rw [← hconstant gap hgap] at habove
    obtain ⟨above, habove⟩ := Affine.exists_addConst_iff.mpr habove
    exact ⟨_, below, hbelow, gap, hgap, _, ⟨hlast, rfl⟩, above, habove, rfl⟩

/-- Divisions have defining constraints exactly if all their numbers are words. -/
theorem exists_constraintsFrom_iff {q : Nat} {ds : List Division} :
    (∃ cs, constraintsFrom q ds = .ok cs) ↔
      ∀ (j : Nat) (d : Division), ds[j]? = some d → d.Encodable (q + j) := by
  induction ds generalizing q with
  | nil => simp [constraintsFrom]
  | cons d ds ih =>
      have htail : (∃ cs, constraintsFrom (q + 1) ds = .ok cs) ↔
          ∀ (j : Nat) (d : Division), ds[j]? = some d → d.Encodable (q + (j + 1)) := by
        rw [ih]
        exact forall₃_congr fun j d _ => by rw [Nat.add_right_comm, Nat.add_assoc]
      rw [forall_getElem?_cons, ← htail, Nat.add_zero, ← exists_divisionConstraints_iff]
      simp only [constraintsFrom, Outcome.bind_eq_ok, Outcome.pure_eq_ok]
      constructor
      · rintro ⟨-, cs₁, h₁, cs₂, h₂, -⟩
        exact ⟨⟨cs₁, h₁⟩, cs₂, h₂⟩
      · rintro ⟨⟨cs₁, h₁⟩, cs₂, h₂⟩
        exact ⟨_, cs₁, h₁, cs₂, h₂, rfl⟩

/-- All numbers of the defining constraints are words. -/
def Encodable (s : Space) : Prop :=
  ∀ (j : Nat) (d : Division), s.divs[j]? = some d → d.Encodable (s.divOffset + j)

/-- A space has defining constraints exactly if all their numbers are words. -/
theorem exists_constraints_iff : (∃ cs, s.constraints = .ok cs) ↔ s.Encodable :=
  exists_constraintsFrom_iff

/-- Evaluation succeeds exactly if no number on the way is too large, and then gives the point. -/
theorem evalOnto_eq_ok_iff {ds : List Division} {values r : List Int}
    (hds : ∀ (j : Nat) (d : Division), ds[j]? = some d → 0 < d.den ∧
      d.num.Within (values.length + j)) :
    evalOnto ds values = .ok r ↔
      (∀ d ∈ ds, d.num.Evaluable (.ofList (pointOnto ds values)) ∧
        Word.fits ((d.num.value (.ofList (pointOnto ds values))).fdiv d.den) = true) ∧
      r = pointOnto ds values := by
  induction ds generalizing values with
  | nil =>
      simp only [evalOnto, pointOnto, Except.ok.injEq, List.not_mem_nil, false_implies,
        implies_true, true_and]
      exact eq_comm
  | cons d ds ih =>
      obtain ⟨⟨hden, hnum⟩, hds⟩ := forall_getElem?_cons.mp hds
      rw [pointOnto]
      have ih := @ih (values ++ [(d.num.value (.ofList values)).fdiv d.den]) fun j e he => by
        rw [List.length_append, List.length_singleton, Nat.add_assoc, Nat.add_comm 1 j]
        exact hds j e he
      obtain ⟨qs, hqs⟩ :=
        exists_pointOnto ds (values ++ [(d.num.value (.ofList values)).fdiv d.den])
      -- the first numerator does not see the divisions that are added
      have hagree : ∀ i, i < values.length → Valuation.ofList
          (pointOnto ds (values ++ [(d.num.value (.ofList values)).fdiv d.den])) i =
            Valuation.ofList values i := by
        intro i hi
        rw [hqs, List.append_assoc, Valuation.ofList_append_left hi]
      rw [List.forall_mem_cons, hnum.evaluable_congr hagree, hnum.value_congr hagree]
      simp only [evalOnto, Outcome.bind_eq_ok, Outcome.orFault_eq_ok, Word.floorDiv?_eq_some,
        Affine.eval_eq_ok_iff]
      constructor
      · rintro ⟨_, ⟨heval, rfl⟩, _, ⟨-, hfits, rfl⟩, h⟩
        obtain ⟨hrest, hr⟩ := ih.mp h
        exact ⟨⟨⟨heval, hfits⟩, hrest⟩, hr⟩
      · rintro ⟨⟨⟨heval, hfits⟩, hrest⟩, hr⟩
        exact ⟨_, ⟨heval, rfl⟩, _, ⟨hden.ne', hfits, rfl⟩, ih.mpr ⟨hrest, hr⟩⟩

/-- Every numerator can be evaluated at the values, and every quotient is a word. -/
def Evaluable (s : Space) (values : List Int) : Prop :=
  ∀ d ∈ s.divs, d.num.Evaluable (.ofList values) ∧
    Word.fits ((d.num.value (.ofList values)).fdiv d.den) = true

/-- A space is evaluated exactly if no number on the way is too large, and then to its point. -/
theorem eval_eq_ok_iff (hs : s.WellFormed) {base values : List Int}
    (hbase : base.length = s.divOffset) :
    s.eval base = .ok values ↔ s.Evaluable (s.point base) ∧ values = s.point base := by
  rw [eval, if_neg (by omega), List.take_of_length_le hbase.le]
  exact evalOnto_eq_ok_iff fun j d hd => hbase ▸ hs j d hd

/-! ## requests -/

/-- A division variable, or a form for a quotient or a remainder. -/
inductive Request.Kind where
  | division
  | floor
  | modulo
deriving DecidableEq, Repr

/-- What a space is asked for, about a form and a denominator. -/
structure Request where
  kind : Request.Kind
  form : Affine
  den : Int
deriving DecidableEq, Repr

namespace Request

/-- The form that answers a request, and the space that has its variables. -/
def answer (r : Request) (s : Space) : Outcome EngineError (Affine × Space) :=
  match r.kind with
  | .division => do
    let (v, t) ← s.addDivision r.form r.den
    return (.var v, t)
  | .floor => s.floor r.form r.den
  | .modulo => s.modulo r.form r.den

/-- The number asked for, where the form has the value `x`. -/
def quantity (r : Request) (x : Int) : Int :=
  match r.kind with
  | .division => x.fdiv r.den
  | .floor => x.fdiv r.den
  | .modulo => x - r.den * x.fdiv r.den

theorem quantity_of_modulo {r : Request} (hkind : r.kind = .modulo) (x : Int) :
    r.quantity x = x.fmod r.den := by
  simp only [quantity, hkind, Int.fmod_def]

/-- A remainder is not negative and less than the denominator. -/
theorem quantity_mem_range {r : Request} (hkind : r.kind = .modulo) (hden : 0 < r.den) (x : Int) :
    0 ≤ r.quantity x ∧ r.quantity x < r.den := by
  rw [quantity_of_modulo hkind]
  exact ⟨Int.fmod_nonneg_of_pos x hden, Int.fmod_lt_of_pos x hden⟩

end Request

theorem exists_addDivision {a : Affine} {den : Int} (hden : 0 < den) :
    ∃ v t, (s.addDivision a den : Outcome EngineError (Nat × Space)) = .ok (v, t) := by
  rw [addDivision, if_neg hden.not_ge]
  split
  · exact ⟨_, _, rfl⟩
  · exact ⟨_, _, rfl⟩

/-- The quotient of words is a form that is there, or the variable of a division. -/
theorem exists_floor {a : Affine} {den : Int} (hden : 0 < den) (hwords : a.Representable) :
    (∃ q, (s.floor a den : Outcome EngineError (Affine × Space)) = .ok (q, s)) ∨
      ∃ v t, (s.addDivision a den : Outcome EngineError (Nat × Space)) = .ok (v, t) ∧
        (s.floor a den : Outcome EngineError (Affine × Space)) = .ok (.var v, t) := by
  have hquotient : Word.floorDiv? a.constant den = some (a.constant.fdiv den) :=
    Word.floorDiv?_eq_some.mpr ⟨hden.ne', Word.fits_fdiv hden hwords.2, rfl⟩
  obtain ⟨v, t, hdivision⟩ := exists_addDivision (s := s) (a := a) hden
  unfold floor
  split
  · exact .inl ⟨a, rfl⟩
  split
  · exact .inl ⟨.const (a.constant.fdiv den), by simp [hquotient, Outcome.orFault]⟩
  · exact .inr ⟨v, t, hdivision, by simp [hdivision]⟩

/-- The variable of a division does not occur in its numerator. -/
theorem coeff_addDivision {a : Affine} {den : Int} {v : Nat} (hs : s.WellFormed)
    (ha : a.Within s.dim)
    (h : (s.addDivision a den : Outcome EngineError (Nat × Space)) = .ok (v, t)) :
    a.coeff v = 0 := by
  rcases addDivision_cases h with ⟨i, d, hd, hsame, -, rfl, -⟩ | ⟨-, rfl, -⟩
  · rw [← (Affine.same_iff.mp hsame).2]
    exact (hs i d hd).2 _ le_rfl
  · exact ha _ le_rfl

/-- The remainder is a form of words if the variable of the quotient is not in the numerator. -/
theorem exists_remainder {a : Affine} {den : Int} {v : Nat} (hden : 0 < den)
    (hword : Word.fits den = true) (hwords : a.Representable) (hv : a.coeff v = 0) :
    ∃ m f, (Affine.var v).scale den = .ok m ∧ a.sub m = .ok f := by
  have hneg : Word.fits (-den) = true := by
    rw [Word.fits_iff, Word.least, Word.greatest] at hword ⊢
    omega
  obtain ⟨m, hm⟩ : ∃ m, (Affine.var v).scale den = .ok m := by
    refine Affine.exists_scale_iff.mpr ⟨fun i => ?_, ?_⟩
    · rw [Affine.coeff_var, ite_mul, one_mul, zero_mul]
      split
      · exact hword
      · rfl
    · rw [Affine.var, Affine.constant_term, zero_mul]
      rfl
  obtain ⟨hcoeff, hconstant⟩ := Affine.scale_eq_ok hm
  simp only [Affine.var, Affine.constant_term, Affine.coeff_term, mul_ite,
    mul_one, mul_zero] at hcoeff hconstant
  obtain ⟨f, hf⟩ : ∃ f, a.sub m = .ok f := by
    refine Affine.exists_sub_iff.mpr ⟨fun i => ?_, ?_, fun i => ?_, ?_⟩
    · rw [hcoeff]
      split
      · exact hneg
      · rfl
    · rw [hconstant]
      rfl
    · rw [hcoeff]
      split
      · next hi => rwa [hi, hv, zero_sub]
      · rw [sub_zero]
        exact hwords.fits_coeff i
    · rw [hconstant, sub_zero]
      exact hwords.2
  exact ⟨m, f, hm, hf⟩

/-- A request about words has an answer, or it asks for a remainder where the quotient
needs no division. -/
theorem Request.exists_answer {r : Request} (hs : s.WellFormed) (hden : 0 < r.den)
    (hword : Word.fits r.den = true) (hform : r.form.Within s.dim) (hwords : r.form.Representable) :
    (∃ f t, r.answer s = .ok (f, t)) ∨
      r.kind = .modulo ∧ ∃ q, (s.floor r.form r.den : Outcome EngineError (Affine × Space)) =
        .ok (q, s) := by
  obtain ⟨kind, a, den⟩ := r
  cases kind with
  | division =>
      obtain ⟨v, t, hdivision⟩ := exists_addDivision (s := s) (a := a) hden
      exact .inl ⟨.var v, t, by simp [answer, hdivision]⟩
  | floor =>
      rcases exists_floor hden hwords with ⟨q, hq⟩ | ⟨v, t, -, hq⟩
      · exact .inl ⟨q, s, hq⟩
      · exact .inl ⟨.var v, t, hq⟩
  | modulo =>
      rcases exists_floor hden hwords with ⟨q, hq⟩ | ⟨v, t, hv, hq⟩
      · exact .inr ⟨rfl, q, hq⟩
      · obtain ⟨m, f, hm, hf⟩ := exists_remainder hden hword hwords (coeff_addDivision hs hform hv)
        refine .inl ⟨f, t, ?_⟩
        simp only [answer, Space.modulo, Outcome.bind_eq_ok, Outcome.pure_eq_ok, Prod.mk.injEq]
        exact ⟨(.var v, t), hq, m, hm, f, hf, rfl, rfl⟩

/-- The form has the value asked for, wherever the space is defined. -/
structure Answers (s : Space) (r : Request) (f : Affine) : Prop where
  den : 0 < r.den
  within : f.Within s.dim
  value : ∀ w, s.Defines w → f.value w = r.quantity (r.form.value w)

/-- An answer stays one when the space is extended. -/
theorem Answers.of_extends {r : Request} {f : Affine} (h : s.Answers r f) (hext : s.Extends t) :
    t.Answers r f :=
  ⟨h.den, h.within.mono hext.dim_le, fun w hw => h.value w (hw.of_extends hext)⟩

/-- A request only extends the space and is answered by the form that it returns. -/
theorem Request.answer_eq_ok {r : Request} {f : Affine} (hs : s.WellFormed) (hden : 0 < r.den)
    (hform : r.form.Within s.dim) (h : r.answer s = .ok (f, t)) :
    s.Extends t ∧ t.WellFormed ∧ t.Answers r f := by
  obtain ⟨kind, a, den⟩ := r
  cases kind with
  | division =>
      simp only [answer, Outcome.bind_eq_ok, Outcome.pure_eq_ok, Prod.mk.injEq] at h
      obtain ⟨⟨v, u⟩, hv, rfl, rfl⟩ := h
      obtain ⟨hext, hwf, hlt, hval⟩ := addDivision_eq_ok hs hform hv
      refine ⟨hext, hwf, hden, Affine.within_var hlt, fun w hw => ?_⟩
      rw [Affine.value_var, hval w hw, quantity]
  | floor =>
      obtain ⟨hext, hwf, hwithin, hval⟩ := floor_eq_ok hs hform h
      exact ⟨hext, hwf, hden, hwithin, hval⟩
  | modulo =>
      obtain ⟨hext, hwf, hwithin, hval⟩ := modulo_eq_ok hs hform h
      refine ⟨hext, hwf, hden, hwithin, fun w hw => ?_⟩
      rw [hval w hw, quantity_of_modulo rfl]

/-- A space grows from `s` to `t` by requests with positive denominators, each about
the variables of its time; every request is listed with its answer.  One without an
answer leaves the space as it is (`Request.exists_answer`). -/
inductive Run : Space → List (Request × Affine) → Space → Prop where
  | nil (s : Space) : Run s [] s
  | cons {s t u : Space} {r : Request} {f : Affine} {log : List (Request × Affine)} :
      0 < r.den → r.form.Within s.dim → r.answer s = .ok (f, t) → Run t log u →
      Run s ((r, f) :: log) u

/-- After a run of requests, every one of them is answered by its form. -/
theorem Run.answers {log : List (Request × Affine)} (h : Run s log t) (hs : s.WellFormed) :
    s.Extends t ∧ t.WellFormed ∧ ∀ r f, (r, f) ∈ log → t.Answers r f := by
  induction h with
  | nil s => exact ⟨.refl s, hs, fun r f hmem => by simp at hmem⟩
  | cons hden hform hanswer _ ih =>
      obtain ⟨hext, hwf, hfirst⟩ := Request.answer_eq_ok hs hden hform hanswer
      obtain ⟨hext', hwf', hrest⟩ := ih hwf
      refine ⟨hext.trans hext', hwf', fun r f hmem => ?_⟩
      obtain heq | hmem := List.mem_cons.mp hmem
      · cases heq
        exact hfirst.of_extends hext'
      · exact hrest r f hmem

/-- In a space that has grown by requests, the constraints of the divisions hold at a
single extension of the parameters and iterators, the one that evaluation gives.  There
every answer has the value of its quotient or remainder, and later requests change none
of the values.  Further requests about words are answered, or need no division. -/
theorem divisions_are_floor_quotients {nParam nIter : Nat}
    {log : List (Request × Affine)} {s : Space} (h : Run (ofSizes nParam nIter) log s)
    {base : List Int} (hbase : base.length = nParam + nIter) :
    (∀ values : List Int, values.length = s.dim → base <+: values →
      (s.Bounded (.ofList values) ↔ values = s.point base) ∧
        ∀ cs, s.constraints = .ok cs →
        ((∀ c ∈ cs, c.Holds (.ofList values)) ↔ values = s.point base)) ∧
    ((s.point base).length = s.dim ∧ base <+: s.point base) ∧
    ((∃ cs, s.constraints = .ok cs) ↔ s.Encodable) ∧
    (∀ values, s.eval base = .ok values ↔ s.Evaluable (s.point base) ∧ values = s.point base) ∧
    (∀ r : Request, 0 < r.den → Word.fits r.den = true → r.form.Within s.dim →
      r.form.Representable →
      (∃ f t, r.answer s = .ok (f, t)) ∨
        r.kind = .modulo ∧ ∃ q, (s.floor r.form r.den : Outcome EngineError (Affine × Space)) =
          .ok (q, s)) ∧
    (∀ r f, (r, f) ∈ log →
      f.value (.ofList (s.point base)) = r.quantity (r.form.value (.ofList (s.point base))) ∧
        (r.kind = .modulo → 0 ≤ f.value (.ofList (s.point base)) ∧
          f.value (.ofList (s.point base)) < r.den)) ∧
    ∀ log' t, Run s log' t → s.point base <+: t.point base ∧
      ∀ r f, (r, f) ∈ log →
      f.value (.ofList (t.point base)) = f.value (.ofList (s.point base)) := by
  obtain ⟨hext, hwf, hanswers⟩ := h.answers (wellFormed_ofSizes nParam nIter)
  have hoffset : base.length = s.divOffset := by rw [hext.divOffset, hbase, divOffset, ofSizes]
  refine ⟨fun values hvalues hpre => ?_, ⟨length_point hoffset, ?_⟩, exists_constraints_iff,
    fun values => eval_eq_ok_iff hwf hoffset, fun r => Request.exists_answer hwf,
    fun r f hmem => ?_, fun log' t hrun => ?_⟩
  · have htake : values.take s.divOffset = base := hoffset ▸ (List.prefix_iff_eq_take.mp hpre).symm
    have hbounded := bounded_iff_eq_point hwf hvalues
    rw [htake] at hbounded
    exact ⟨hbounded, fun cs hcs => (holds_constraints_iff_bounded hcs _).trans hbounded⟩
  · obtain ⟨qs, hqs⟩ := exists_pointOnto s.divs base
    exact ⟨qs, hqs.symm⟩
  · have hval := (hanswers r f hmem).value _ (defines_point hwf hoffset)
    rw [hval]
    exact ⟨rfl, fun hkind => Request.quantity_mem_range hkind (hanswers r f hmem).den _⟩
  · obtain ⟨qs, hqs⟩ := (hrun.answers hwf).1.exists_point base
    refine ⟨⟨qs, hqs.symm⟩, fun r f hmem => (hanswers r f hmem).within.value_congr fun i hi => ?_⟩
    rw [hqs, Valuation.ofList_append_left (by rwa [length_point hoffset])]

/-- Iterator 1 within its block of 32. -/
def inBlock : Affine := ⟨[0, 1, -32], 0⟩

/-- Blocks of 32, and groups of 8 within a block. -/
def blocked : Space := ⟨1, 1, [⟨.var 1, 32⟩, ⟨inBlock, 8⟩]⟩

/-- The quotient is asked for once more, with another list of coefficients. -/
def blockedLog : List (Request × Affine) :=
  [(⟨.floor, .var 1, 32⟩, .var 2), (⟨.modulo, .var 1, 32⟩, inBlock), (⟨.floor, inBlock, 8⟩, .var 3),
    (⟨.division, ⟨[0, 1, 0, 0], 0⟩, 32⟩, .var 2)]

/-- The iterator may be negative: `-70` lies in block `-3`, at `26`, in group 3. -/
theorem blocked_floor_quotients :
    Run (ofSizes 1 1) blockedLog blocked ∧
    (∀ q g : Int, blocked.Bounded (.ofList [100, -70, q, g]) ↔ q = -3 ∧ g = 3) ∧
    blocked.Encodable ∧ blocked.Evaluable [100, -70, -3, 3] ∧
    inBlock.value (.ofList [100, -70, -3, 3]) = 26 := by
  have hrun : Run (ofSizes 1 1) blockedLog blocked :=
    .cons (by decide) (Affine.within_of_width (by decide)) rfl <|
    .cons (by decide) (Affine.within_of_width (by decide)) rfl <|
    .cons (by decide) (Affine.within_of_width (by decide)) rfl <|
    .cons (by decide) (Affine.within_of_width (by decide)) rfl <|
    .nil _
  have hbase : ([100, -70] : List Int).length = 1 + 1 := rfl
  have hpoint : blocked.point [100, -70] = [100, -70, -3, 3] := by decide
  obtain ⟨honly, -, hencodable, heval, -, hanswers, -⟩ := divisions_are_floor_quotients hrun hbase
  rw [hpoint] at heval hanswers
  refine ⟨hrun, fun q g => ?_, hencodable.mp ⟨_, rfl⟩, ((heval _).mp rfl).1, ?_⟩
  · have hvalues := (honly [100, -70, q, g] rfl ⟨[q, g], rfl⟩).1
    rw [hpoint] at hvalues
    simpa using hvalues
  · exact (hanswers ⟨.modulo, .var 1, 32⟩ inBlock (by decide)).1

end Space

end KernelMap
