import KernelMap.Tile.Infer
import KernelMap.Proofs.Equalities
import KernelMap.Proofs.Access

/-!
# KernelMap.Proofs.Stride

What is done to a relation before bounds on its output `x` are looked for.

The preparation keeps every point (`relaxes_prepare`), so a stride shown by one of
its equalities divides the shifted output at all of them (`dvd_of_commonStride`),
and the output can be replaced by the quotient (`projectOutput_eq_ok`).
-/

namespace KernelMap

/-! ## divisibility of forms -/

namespace Coeffs

theorem get_drop (cs : List Int) (n i : Nat) : get (cs.drop n) i = get cs (n + i) := by
  simp [get, List.getD_eq_getElem?_getD]

/-- A common divisor divides coefficients that are not stored, too. -/
theorem dvd_get {g : Int} {cs : List Int} (h : ∀ c ∈ cs, g ∣ c) (i : Nat) : g ∣ get cs i := by
  by_cases hi : i < cs.length
  · rw [get_of_lt hi]
    exact h _ (List.getElem_mem hi)
  · rw [get_of_length_le (Nat.le_of_not_lt hi)]
    exact Int.dvd_zero g

/-- A list is what comes before `x`, the coefficient of `x` and what comes
after. -/
theorem dot_split {cs : List Int} {x : Nat} (hx : x < cs.length) (w : Valuation) :
    dot cs w =
      dot (cs.take x) w + get cs x * w x + dot (cs.drop (x + 1)) fun i => w (x + 1 + i) := by
  have hlen : (cs.take x).length = x := by
    rw [List.length_take]
    omega
  have hsplit : cs = cs.take x ++ get cs x :: cs.drop (x + 1) := by
    rw [get_of_lt hx, List.getElem_cons_drop, List.take_append_drop]
  have hshift : (fun i => w (x + (i + 1))) = fun i => w (x + 1 + i) := by
    funext i
    rw [Nat.add_assoc, Nat.add_comm 1 i]
  conv_lhs => rw [hsplit, dot_append, hlen, dot_cons, Nat.add_zero, hshift]
  ring

end Coeffs

namespace Affine

/-- If `g` divides the coefficients after `x`, the form is the part before `x` and
the term of `x`, up to a multiple of `g`. -/
theorem dvd_value_sub_truncated {a : Affine} {x : Nat} {g : Int} (hg : ∀ i, x < i → g ∣ a.coeff i)
    (w : Valuation) : g ∣ a.value w - ((a.truncated x).value w + a.coeff x * w x) := by
  have htrunc : (a.truncated x).value w = Coeffs.dot (a.coeffs.take x) w + a.constant := by
    rw [truncated, value_trimmed, value_mk]
  by_cases hx : x < a.coeffs.length
  · have hrest : a.value w - ((a.truncated x).value w + a.coeff x * w x) =
        Coeffs.dot (a.coeffs.drop (x + 1)) fun i => w (x + 1 + i) := by
      rw [htrunc, value, Coeffs.dot_split hx w, coeff_eq]
      ring
    have htail : ∀ c ∈ a.coeffs.drop (x + 1), g ∣ c := Coeffs.forall_mem_of_get fun i => by
      rw [Coeffs.get_drop]
      exact hg _ (by omega)
    rw [hrest]
    exact Coeffs.dvd_dot htail _
  · have hall : a.coeffs.take x = a.coeffs := List.take_of_length_le (by omega)
    have hzero : a.coeff x = 0 := Coeffs.get_of_length_le (by omega)
    rw [htrunc, hall, hzero, value]
    simp

end Affine

namespace Polyhedron

/-- Reducing a shift changes its value by multiples of the step. -/
theorem dvd_value_sub_reduceShift (g : Int) (a : Affine) (w : Valuation) :
    g ∣ a.value w - (reduceShift g a).value w := by
  have hdot : ∀ (cs : List Int) (u : Valuation),
      g ∣ Coeffs.dot cs u - Coeffs.dot (cs.map (· % g)) u := by
    intro cs
    induction cs with
    | nil => simp
    | cons c cs ih =>
        intro u
        have hhead : g ∣ (c - c % g) * u 0 := Dvd.dvd.mul_right (Int.dvd_self_sub_emod) _
        have hsum := Int.dvd_add hhead (ih fun i => u (i + 1))
        rw [List.map_cons, Coeffs.dot_cons, Coeffs.dot_cons]
        ring_nf at hsum ⊢
        exact hsum
  have hconst : g ∣ a.constant - a.constant % g := Int.dvd_self_sub_emod
  have hsum := Int.dvd_add (hdot a.coeffs w) hconst
  rw [reduceShift, Affine.value, Affine.value_mk]
  ring_nf at hsum ⊢
  exact hsum

/-- Reducing a shift brings in no variable. -/
theorem coeff_reduceShift {g : Int} {a : Affine} {i : Nat} (h : a.coeff i = 0) :
    (reduceShift g a).coeff i = 0 := by
  have hmap : (reduceShift g a).coeff i = a.coeff i % g := by
    simp only [reduceShift, Affine.coeff, List.getD_eq_getElem?_getD, List.getElem?_map]
    cases a.coeffs[i]? <;> simp
  rw [hmap, h, Int.zero_emod]

/-! ## preparation -/

/-- `t` has the variables of `s` and at least its points. -/
structure Relaxes (s t : Polyhedron) : Prop where
  nVars : t.nVars = s.nVars
  sound : ∀ w, s.Holds w → t.Holds w
  wellFormed : t.WellFormed

theorem Relaxes.trans {s t u : Polyhedron} (h : Relaxes s t) (h' : Relaxes t u) : Relaxes s u :=
  ⟨h'.nVars.trans h.nVars, fun w hw => h'.sound w (h.sound w hw), h'.wellFormed⟩

/-- What keeps the points does not lose any. -/
theorem SamePoints.relaxes {s t : Polyhedron} (h : SamePoints s t) : Relaxes s t :=
  ⟨h.nVars, fun w => (h.holds w).mpr, h.wellFormed⟩

/-- A defined existential is one of the list, and the equality found has it. -/
theorem findDefined_eq_some {s : Polyhedron} {x e pos : Nat} {es : List Nat}
    (h : s.findDefined x es = some (e, pos)) :
    e ∈ es ∧ ∃ c, s.constraints[pos]? = some c ∧ c.kind = .equality ∧ c.coeff e ≠ 0 := by
  induction es with
  | nil => simp [findDefined] at h
  | cons k ks ih =>
      rw [findDefined] at h
      split at h
      · next pos' hfind =>
        simp only [Option.some.injEq, Prod.mk.injEq] at h
        obtain ⟨rfl, rfl⟩ := h
        obtain ⟨hlt, hp, -⟩ := List.findIdx?_eq_some_iff_getElem.mp hfind
        simp only [Bool.and_eq_true, beq_iff_eq, bne_iff_ne] at hp
        exact ⟨by simp, _, List.getElem?_eq_getElem hlt, hp.1⟩
      · exact ⟨List.mem_cons_of_mem _ (ih h).1, (ih h).2⟩

/-- What solving an equality for an existential keeps, the substitutions keep. -/
theorem keeps_of_substituteRounds {P : Polyhedron → Prop} {x : Nat}
    (hstep : ∀ (s t : Polyhedron) (e pos : Nat) (c : Constraint), P s → x < e →
      s.constraints[pos]? = some c → c.kind = .equality → c.coeff e ≠ 0 →
      s.eliminateWith e pos = .ok t → P t)
    {n : Nat} {s t : Polyhedron} (hs : P s) (h : substituteRounds x n s = .ok t) : P t := by
  induction n generalizing s with
  | zero => exact Except.ok.inj h ▸ hs
  | succ n ih =>
      rw [substituteRounds] at h
      split at h
      · exact Except.ok.inj h ▸ hs
      · next e pos hfind =>
        simp only [Outcome.bind_eq_ok] at h
        obtain ⟨u, hu, h⟩ := h
        obtain ⟨hmem, c, hc, hkind, he⟩ := findDefined_eq_some hfind
        have hlt : x < e := (List.mem_range'_1.mp hmem).1
        exact ih (hstep s u e pos c hs hlt hc hkind he hu) h

/-- Substitution of equalities loses no points. -/
theorem relaxes_substituteRounds {x n : Nat} {s t : Polyhedron} (hs : s.WellFormed)
    (h : substituteRounds x n s = .ok t) : Relaxes s t := by
  refine keeps_of_substituteRounds (P := Relaxes s)
    (fun u t e pos c hu _ hc hkind he ht => ?_) ⟨rfl, fun _ => id, hs⟩ h
  have hproj := projects_eliminateWith hc hkind he ht
  exact hu.trans ⟨hproj.nVars, hproj.sound, hproj.wellFormed hu.wellFormed⟩

/-- Nor does all that is done before strides are looked for. -/
theorem relaxes_prepare {s t : Polyhedron} {x : Nat} (hs : s.WellFormed) (h : s.prepare x = .ok t) :
    Relaxes s t := by
  simp only [prepare, Outcome.bind_eq_ok] at h
  obtain ⟨s₁, h₁, s₂, h₂, h₃⟩ := h
  have hdetect := samePoints_detectEqualities hs h₁
  have hfix := samePoints_fixDetermined hdetect.wellFormed h₂
  exact (hdetect.trans hfix).relaxes.trans (relaxes_substituteRounds hfix.wellFormed h₃)

/-- Every prepared relation comes from one of the given ones, and every point is
in a prepared relation. -/
theorem prepareAll_eq_ok {x : Nat} {ss rs : List Polyhedron} (hss : ∀ s ∈ ss, s.WellFormed)
    (h : prepareAll x ss = .ok rs) :
    (∀ r ∈ rs, ∃ s ∈ ss, Relaxes s r) ∧ ∀ s ∈ ss, ∀ w, s.Holds w → ∃ r ∈ rs, r.Holds w := by
  induction ss generalizing rs with
  | nil =>
      simp only [prepareAll, Except.ok.injEq] at h
      simp [← h]
  | cons s ss ih =>
      obtain ⟨hs, hss⟩ := List.forall_mem_cons.mp hss
      simp only [prepareAll, Outcome.bind_eq_ok] at h
      obtain ⟨b, hb, h⟩ := h
      split at h
      · next htrue =>
        obtain ⟨hfrom, hpoints⟩ := ih hss h
        refine ⟨fun r hr => (hfrom r hr).imp fun u hu => by simp [hu], ?_⟩
        rw [List.forall_mem_cons]
        exact ⟨fun w hw => absurd hw (not_holds_of_isEmpty hs (htrue ▸ hb) w), hpoints⟩
      · simp only [Outcome.bind_eq_ok, Outcome.pure_eq_ok] at h
        obtain ⟨r, hr, rest, hrest, rfl⟩ := h
        obtain ⟨hfrom, hpoints⟩ := ih hss hrest
        have hrelax := relaxes_prepare hs hr
        rw [List.forall_mem_cons, List.forall_mem_cons]
        exact ⟨⟨⟨s, by simp, hrelax⟩, fun u hu => (hfrom u hu).imp fun v hv => by simp [hv]⟩,
          ⟨fun w hw => ⟨r, by simp, hrelax.sound w hw⟩,
            fun u hu w hw => (hpoints u hu w hw).imp fun v hv => by simp [hv]⟩⟩

end Polyhedron

/-! ## strides -/

/-- The step is a proper stride, and the shift is a form in the variables before
`x`. -/
def Stride.Regular (x : Nat) (st : Stride) : Prop := 1 < st.step ∧ ∀ i, x ≤ i → st.shift.coeff i = 0

/-- `q` is the index corrected for the stride: their quotient, which is exact, or
the index itself. -/
def Stride.IsQuotient (stride : Option Stride) (w : Valuation) (index q : Int) : Prop :=
  match stride with
  | none => index = q
  | some st => index + st.shift.value w = st.step * q

namespace Polyhedron

/-- The stride shown by an equality with coefficient `±1` divides the shifted
output wherever the equality holds. -/
theorem dvd_of_equality {x : Nat} {c : Constraint} {g : Int} {shift : Affine}
    (hkind : c.kind = .equality) (hx : (c.coeff x).natAbs = 1)
    (hg : (strideOf x c : Outcome EngineError Int) = .ok g)
    (hshift : c.expr.scale (c.coeff x) = .ok shift) {w : Valuation} (hw : c.Holds w) :
    g ∣ w x + (reduceShift g (shift.truncated x)).value w := by
  simp only [strideOf, Outcome.orFault_eq_ok] at hg
  obtain ⟨-, -, hdvd, -⟩ := Coeffs.content?_eq_some le_rfl hg
  have hcoeff := (Affine.scale_eq_ok hshift).1
  have hzero : shift.value w = 0 := by
    rw [Affine.value_scale hshift, (Constraint.holds_of_kind_eq hkind).mp hw, mul_zero]
  have hunit : shift.coeff x = 1 := by
    have hsq : c.coeff x * c.coeff x = 1 := by
      rcases Int.natAbs_eq (c.coeff x) with h | h <;> rw [h, hx] <;> rfl
    rw [hcoeff]
    exact hsq
  have htail : ∀ i, x < i → g ∣ shift.coeff i := by
    intro i hi
    have hci : g ∣ Coeffs.get c.coeffs (x + 1 + (i - (x + 1))) := by
      rw [← Coeffs.get_drop]
      exact Coeffs.dvd_get hdvd _
    rw [Nat.add_sub_cancel' hi] at hci
    rw [hcoeff]
    exact Dvd.dvd.mul_left hci _
  -- the form is zero, so its part up to `x` is a multiple of `g`
  have hpart := Affine.dvd_value_sub_truncated htail w
  rw [hzero, hunit, one_mul, zero_sub, Int.dvd_neg] at hpart
  have hreduce := dvd_value_sub_reduceShift g (shift.truncated x) w
  have hdiff := Int.dvd_sub hpart hreduce
  ring_nf at hdiff ⊢
  exact hdiff

/-- The stride found is the one from before or one that the constraints imply. -/
theorem largestStride_eq_ok {x : Nat} {cs : List Constraint} {best : Option Stride} {st : Stride}
    (h : largestStride x cs best = .ok (some st)) :
    best = some st ∨ (st.Regular x ∧ ∀ w : Valuation, (∀ c ∈ cs, c.Holds w) →
      st.step ∣ w x + st.shift.value w) := by
  induction cs generalizing best with
  | nil =>
      simp only [largestStride, Except.ok.injEq] at h
      exact Or.inl h
  | cons c cs ih =>
      have hrest : ∀ {b : Option Stride}, largestStride x cs b = .ok (some st) → b = some st ∨
          (st.Regular x ∧ ∀ w : Valuation, (∀ d ∈ c :: cs, d.Holds w) →
            st.step ∣ w x + st.shift.value w) := by
        intro b hb
        refine (ih hb).imp_right fun hst =>
          ⟨hst.1, fun w hw => hst.2 w fun d hd => hw d (by simp [hd])⟩
      rw [largestStride] at h
      split at h
      · next hc =>
        simp only [Bool.and_eq_true, beq_iff_eq] at hc
        simp only [Outcome.bind_eq_ok] at h
        obtain ⟨g, hg, h⟩ := h
        split at h
        · exact hrest h
        · next hlarge =>
          simp only [Outcome.bind_eq_ok] at h
          obtain ⟨shift, hshift, h⟩ := h
          rcases hrest h with hbest | hst
          · split at hbest
            · right
              cases hbest
              refine ⟨⟨by simpa using hlarge, fun i hi => coeff_reduceShift ?_⟩, fun w hw => ?_⟩
              · rw [Affine.coeff_truncated, if_neg (by omega)]
              · exact dvd_of_equality hc.1 hc.2 hg hshift (hw c (by simp))
            · exact Or.inl hbest
          · exact Or.inr hst
      · exact hrest h

/-- A common stride is a stride of every system. -/
theorem dvd_of_commonStride_some {x : Nat} {ss : List Polyhedron} {c st : Stride}
    (h : commonStride x ss (some c) = .ok (some st)) :
    st = c ∧ ∀ s ∈ ss, ∀ w, s.Holds w → c.step ∣ w x + c.shift.value w := by
  induction ss with
  | nil =>
      simp only [commonStride, Except.ok.injEq, Option.some.injEq] at h
      exact ⟨h.symm, by simp⟩
  | cons s ss ih =>
      simp only [commonStride, Outcome.bind_eq_ok] at h
      obtain ⟨found, hfound, h⟩ := h
      cases found with
      | none => simp at h
      | some found =>
          simp only at h
          split at h
          · next hsame =>
            simp only [Bool.and_eq_true, beq_iff_eq] at hsame
            obtain ⟨hst, hrest⟩ := ih h
            refine ⟨hst, List.forall_mem_cons.mpr ⟨fun w hw => ?_, hrest⟩⟩
            rw [hsame.1, Affine.value_eq_of_same hsame.2]
            exact ((largestStride_eq_ok hfound).resolve_left (by simp)).2 w hw.2
          · simp at h

/-- A common stride divides the shifted output at every point of every
relation. -/
theorem dvd_of_commonStride {x : Nat} {ss : List Polyhedron} {st : Stride}
    (h : commonStride x ss none = .ok (some st)) :
    st.Regular x ∧ ∀ s ∈ ss, ∀ w, s.Holds w → st.step ∣ w x + st.shift.value w := by
  cases ss with
  | nil => simp [commonStride] at h
  | cons s ss =>
      simp only [commonStride, Outcome.bind_eq_ok] at h
      obtain ⟨found, hfound, h⟩ := h
      cases found with
      | none => simp at h
      | some found =>
          obtain ⟨rfl, hrest⟩ := dvd_of_commonStride_some h
          obtain ⟨hregular, hdvd⟩ := (largestStride_eq_ok hfound).resolve_left (by simp)
          exact ⟨hregular, List.forall_mem_cons.mpr ⟨fun w hw => hdvd w hw.2, hrest⟩⟩

/-! ## the quotient as output -/

theorem exchange_exchange (x y k : Nat) : exchange x y (exchange x y k) = k := by
  unfold exchange
  split_ifs <;> simp_all

/-- A system in terms of the quotient has, for each point with one, a point with this quotient. -/
theorem applyStride_eq_ok {s t : Polyhedron} {x : Nat} {st : Stride} (hs : s.WellFormed)
    (hx : x < s.nVars) (hst : st.Regular x) (h : s.applyStride x st = .ok t) :
    t.WellFormed ∧ x < t.nVars ∧ ∀ w q, s.Holds w → w x + st.shift.value w = st.step * q →
      ∃ w', t.Holds w' ∧ (∀ i, i < x → w' i = w i) ∧ w' x = q := by
  simp only [applyStride, Outcome.bind_eq_ok] at h
  obtain ⟨s₁, h₁, sum, hsum, e, he, s₂, h₂, s₃, h₃, h₄⟩ := h
  have hwf₂ : s₂.WellFormed := (hs.addVars h₁).add h₂
  have hproj := projects_project hwf₂ h₃
  have hwf₃ := hproj.wellFormed hwf₂
  have hn : x < s₃.nVars := by
    have hn₁ : s₁.nVars = s.nVars + 1 := by rw [addVars_eq_ok h₁]
    have hn₂ := (add_eq_ok h₂).1
    have hn₃ := hproj.nVars
    omega
  refine ⟨wellFormed_embed h₄, nVars_embed h₄ ▸ hn, fun w q hw hq => ?_⟩
  -- the new variable takes the quotient, then changes places with the output
  let w₁ : Valuation := Function.update w s.nVars q
  have hlast : w₁ s.nVars = q := Function.update_self ..
  have hold : ∀ i, i < s.nVars → w₁ i = w i := fun i hi => Function.update_of_ne (by omega) _ _
  have hw₁ : s₁.Holds w₁ :=
    (holds_addVars h₁ w₁).mpr ((holds_update (hs.involves_eq_false le_rfl) w q).mpr hw)
  have hshift : st.shift.value w₁ = st.shift.value w := Affine.value_update (hst.2 _ hx.le) w q
  have he₁ : (Constraint.eq e).Holds w₁ := by
    rw [Constraint.holds_eq, Affine.value_sub he, Affine.value_add hsum, Affine.value_var,
      Affine.value_term, hshift, hlast, hold x hx, hq, sub_self]
  have hw₃ : s₃.Holds w₁ := hproj.sound w₁ ((holds_add h₂ w₁).mpr ⟨hw₁, he₁⟩)
  have hw₄ := (holds_embed_range hwf₃ (fun k _ => exchange_exchange x s.nVars k) h₄ w₁).mpr hw₃
  refine ⟨_, hw₄, fun i hi => ?_, ?_⟩
  · have hfix : exchange x s.nVars i = i := by
      rw [exchange, if_neg (by omega), if_neg (by omega)]
    rw [hfix, hold i (by omega)]
  · rw [exchange, if_pos rfl, hlast]

/-- The variables after an output can be projected out. -/
theorem project_existentials {s t : Polyhedron} {x : Nat} (hs : s.WellFormed)
    (h : s.project (s.existentials x) = .ok t) :
    Relaxes s t ∧ ∀ v, x < v → t.involves v = false := by
  have hproj := projects_project hs h
  refine ⟨⟨hproj.nVars, hproj.sound, hproj.wellFormed hs⟩, fun v hv => ?_⟩
  by_cases hlt : v < s.nVars
  · exact hproj.clears v (by simp [existentials, List.mem_range'_1]; omega)
  · exact (hproj.wellFormed hs).involves_eq_false (by rw [hproj.nVars]; omega)

/-- After the projection only the variables up to `x` occur, and every point has
its quotient as output. -/
theorem projectOutput_eq_ok {s t : Polyhedron} {x : Nat} {stride : Option Stride}
    (hs : s.WellFormed) (hx : x < s.nVars) (hst : ∀ st, stride = some st → st.Regular x)
    (h : projectOutput x stride s = .ok t) :
    t.WellFormed ∧ x < t.nVars ∧ (∀ v, x < v → t.involves v = false) ∧
      ∀ w q, s.Holds w → Stride.IsQuotient stride w (w x) q → t.Holds (Function.update w x q) := by
  cases stride with
  | none =>
      obtain ⟨hrelax, hgone⟩ := project_existentials hs h
      refine ⟨hrelax.wellFormed, hrelax.nVars ▸ hx, hgone, fun w q hw hq => ?_⟩
      rw [← show w x = q from hq, Function.update_eq_self]
      exact hrelax.sound w hw
  | some st =>
      simp only [projectOutput, Outcome.bind_eq_ok] at h
      obtain ⟨u, hu, h⟩ := h
      obtain ⟨hwf, hxu, hpoint⟩ := applyStride_eq_ok hs hx (hst st rfl) hu
      obtain ⟨hrelax, hgone⟩ := project_existentials hwf h
      refine ⟨hrelax.wellFormed, hrelax.nVars ▸ hxu, hgone, fun w q hw hq => ?_⟩
      obtain ⟨w', hw', hbefore, hat⟩ := hpoint w q hw hq
      refine (holds_congr fun v hv => ?_).mp (hrelax.sound w' hw')
      by_cases hvx : v = x
      · rw [hvx, Function.update_self, hat]
      · have hle : ¬ x < v := fun hlt => by simp [hgone v hlt] at hv
        rw [Function.update_of_ne hvx, hbefore v (by omega)]

end Polyhedron

end KernelMap
