import KernelMap.Polyhedron.Equalities
import KernelMap.Proofs.Optimum
import Mathlib.Data.List.Perm.Basic

/-!
# KernelMap.Proofs.Equalities

Making equalities explicit changes no integer point.

Main statements: `samePoints_detectEqualities`, `samePoints_fixDetermined`.
-/

namespace KernelMap.Polyhedron

/-- `t` has the variables and the integer points of `s`. -/
structure SamePoints (s t : Polyhedron) : Prop where
  nVars : t.nVars = s.nVars
  holds : ∀ w, t.Holds w ↔ s.Holds w
  wellFormed : t.WellFormed

theorem SamePoints.refl {s : Polyhedron} (hs : s.WellFormed) : SamePoints s s :=
  ⟨rfl, fun _ => Iff.rfl, hs⟩

/-- Steps that keep the points can follow each other. -/
theorem SamePoints.trans {s t u : Polyhedron} (h : SamePoints s t) (h' : SamePoints t u) :
    SamePoints s u :=
  ⟨h'.nVars.trans h.nVars, fun w => (h'.holds w).trans (h.holds w), h'.wellFormed⟩

/-- Simplification keeps the points. -/
theorem samePoints_simplify {s t : Polyhedron} (hs : s.WellFormed) (h : s.simplify = .ok t) :
    SamePoints s t :=
  ⟨(simplified_of_simplify h).nVars, (simplified_of_simplify h).holds, hs.simplify h⟩

/-- A polyhedron without points may be marked infeasible. -/
theorem samePoints_infeasible {s : Polyhedron} (hs : s.WellFormed) (hempty : ∀ w, ¬ s.Holds w) :
    SamePoints s { s with infeasible := true } :=
  ⟨rfl, fun w => ⟨fun hw => by simp [Holds] at hw, fun hw => absurd hw (hempty w)⟩, hs⟩

/-! ## tight inequalities -/

/-- The exchange puts the new element in the place of the one at position `i`, up to
order. -/
theorem perm_swapLast {cs : List Constraint} {i : Nat} (hi : i < cs.length) (c : Constraint) :
    (swapLast cs i c).Perm (c :: cs.eraseIdx i) := by
  rcases List.eq_nil_or_concat cs with rfl | ⟨init, last, rfl⟩
  · simp at hi
  rw [List.concat_eq_append] at hi ⊢
  rw [List.length_append, List.length_singleton] at hi
  simp only [swapLast, List.getLast?_concat]
  refine List.perm_append_comm.trans (.cons c ?_)
  by_cases hlt : i < init.length
  · -- the last element moves to position `i`
    rw [List.set_append_left _ _ hlt, List.dropLast_concat, List.eraseIdx_append_of_lt_length hlt]
    exact (List.set_perm_cons_eraseIdx hlt last).trans (List.perm_append_singleton last _).symm
  · obtain rfl : i = init.length := by omega
    rw [List.eraseIdx_append_of_length_le le_rfl]
    simp

/-- What is left after the swap: the new constraint and all but the old one. -/
theorem mem_swapLast {cs : List Constraint} {i : Nat} (hi : i < cs.length) {c d : Constraint} :
    d ∈ swapLast cs i c ↔ d = c ∨ ∃ j, j ≠ i ∧ cs[j]? = some d := by
  rw [(perm_swapLast hi c).mem_iff, List.mem_cons, List.mem_eraseIdx_iff_getElem?]

/-- What holds of all constraints and of the new one holds after the exchange. -/
theorem forall_mem_swapLast {P : Constraint → Prop} {cs : List Constraint} {i : Nat}
    (hi : i < cs.length) {c : Constraint} (hcs : ∀ d ∈ cs, P d) (hc : P c) :
    ∀ d ∈ swapLast cs i c, P d := by
  intro d hd
  rcases (mem_swapLast hi).mp hd with rfl | ⟨j, -, hj⟩
  · exact hc
  · exact hcs d (List.mem_of_getElem? hj)

/-- Exchanging a constraint for one with the same points within `s`. -/
theorem holds_swapLast {s : Polyhedron} {i : Nat} {c d : Constraint}
    (hc : s.constraints[i]? = some c) {w : Valuation} (hcd : s.Holds w → d.Holds w)
    (hdc : d.Holds w → c.Holds w) :
    { s with constraints := swapLast s.constraints i d }.Holds w ↔ s.Holds w := by
  have hmem := @mem_swapLast s.constraints i (List.getElem?_eq_some_iff.mp hc).1 d
  constructor
  · rintro ⟨hf, hall⟩
    refine ⟨hf, fun e he => ?_⟩
    obtain ⟨j, hj⟩ := List.mem_iff_getElem?.mp he
    by_cases hji : j = i
    · obtain rfl : c = e := Option.some.inj (hc.symm.trans (hji ▸ hj))
      exact hdc (hall d (hmem.mpr (Or.inl rfl)))
    · exact hall e (hmem.mpr (Or.inr ⟨j, hji, hj⟩))
  · rintro hw
    refine ⟨hw.1, fun e he => ?_⟩
    rcases hmem.mp he with rfl | ⟨j, -, hj⟩
    · exact hcd hw
    · exact hw.2 e (List.mem_of_getElem? hj)

/-- The new constraint has as many coefficients as the old one. -/
theorem WellFormed.swapLast {s : Polyhedron} {i : Nat} {c d : Constraint} (hs : s.WellFormed)
    (hc : s.constraints[i]? = some c) (hd : d.coeffs.length = c.coeffs.length) :
    ({ s with constraints := swapLast s.constraints i d } : Polyhedron).WellFormed := by
  refine forall_mem_swapLast (List.getElem?_eq_some_iff.mp hc).1 hs ?_
  rw [hd, hs c (List.mem_of_getElem? hc)]

/-- A tight inequality is exchanged for the normal form of its equality, or for the
equality itself if that has no integer point. -/
theorem tightenAt_cases {s t : Polyhedron} {i : Nat} {c : Constraint}
    (h : s.tightenAt i c = .ok t) :
    (∃ e, (Constraint.normalize { c with kind := .equality } : Outcome EngineError _) =
      .ok (some e) ∧
      t = { s with constraints := swapLast s.constraints i e }) ∨
    (Constraint.normalize { c with kind := .equality } : Outcome EngineError _) = .ok none ∧
      t = { s with constraints := swapLast s.constraints i { c with kind := .equality },
                   infeasible := true } := by
  simp only [tightenAt, Outcome.bind_eq_ok] at h
  obtain ⟨r, hr, h⟩ := h
  cases r with
  | some e => exact Or.inl ⟨e, hr, (Outcome.pure_eq_ok.mp h).symm⟩
  | none => exact Or.inr ⟨hr, (Outcome.pure_eq_ok.mp h).symm⟩

/-- An inequality that is nowhere positive may become an equality. -/
theorem samePoints_tightenAt {s t : Polyhedron} {i : Nat} {c : Constraint} (hs : s.WellFormed)
    (hc : s.constraints[i]? = some c) (hkind : c.kind = .inequality)
    (htight : ∀ w, s.Holds w → c.expr.value w ≤ 0) (h : s.tightenAt i c = .ok t) :
    SamePoints s t := by
  have hequality : ∀ w, s.Holds w → ({ c with kind := .equality } : Constraint).Holds w := by
    intro w hw
    have hge := (Constraint.holds_of_kind_ge hkind).mp (hw.2 c (List.mem_of_getElem? hc))
    exact Constraint.holds_eq.mpr (le_antisymm (htight w hw) hge)
  have hinequality : ∀ w, ({ c with kind := .equality } : Constraint).Holds w → c.Holds w := by
    intro w hw
    exact (Constraint.holds_of_kind_ge hkind).mpr (Constraint.holds_eq.mp hw).ge
  rcases tightenAt_cases h with ⟨e, hr, rfl⟩ | ⟨hr, rfl⟩
  · have hset := Constraint.sameSet_of_normalize hr
    exact ⟨rfl, fun w => holds_swapLast hc (fun hw => (hset.holds w).mpr (hequality w hw))
      (fun hw => hinequality w ((hset.holds w).mp hw)), hs.swapLast hc hset.length⟩
  · have hempty : ∀ w, ¬ s.Holds w := fun w hw =>
      Constraint.not_holds_of_normalize hr w (hequality w hw)
    exact ⟨rfl, fun w => ⟨fun hw => by simp [Holds] at hw, fun hw => absurd hw (hempty w)⟩,
      hs.swapLast hc rfl⟩

/-- The polyhedron that a round comes to. -/
def Round.result : Round → Polyhedron
  | .done s => s
  | .next _ s => s

/-- What a round of the search for tight inequalities may do at position `i`: end the search
because there is a contradiction or no position left; find that the inequality there holds
nowhere; go on to the next position; or make the inequality an equality. -/
inductive Tightens (i : Nat) (s : Polyhedron) : Round → Prop
  | stop : Tightens i s (.done s)
  | clash (c : Constraint) (get : s.constraints[i]? = some c) (kind : c.kind = .inequality)
      (max : s.maximize c.expr = .ok .empty ∨ ∃ v < 0, s.maximize c.expr = .ok (.value v)) :
      Tightens i s (.done { s with infeasible := true })
  | pass (lt : i < s.constraints.length) : Tightens i s (.next (i + 1) s)
  | tight (c : Constraint) (t : Polyhedron) (get : s.constraints[i]? = some c)
      (kind : c.kind = .inequality) (feasible : s.infeasible = false)
      (max : s.maximize c.expr = .ok (.value 0)) (tighten : s.tightenAt i c = .ok t) :
      Tightens i s (.next i t)

/-- A round stops, goes on to the next constraint or makes one an equality. -/
theorem tightenRound_cases {i : Nat} {s : Polyhedron} {r : Round} (h : tightenRound i s = .ok r) :
    Tightens i s r := by
  unfold tightenRound at h
  split at h
  · exact Except.ok.inj h ▸ .stop
  next hinf =>
  rw [Bool.not_eq_true] at hinf
  split at h
  · exact Except.ok.inj h ▸ .stop
  next c hc =>
  have hlt : i < s.constraints.length := (List.getElem?_eq_some_iff.mp hc).1
  split at h
  · exact Except.ok.inj h ▸ .pass hlt
  next hkind =>
  simp only [Outcome.bind_eq_ok] at h
  obtain ⟨best, hbest, h⟩ := h
  cases best with
  | empty => exact Outcome.pure_eq_ok.mp h ▸ .clash c hc hkind (Or.inl hbest)
  | unbounded => exact Outcome.pure_eq_ok.mp h ▸ .pass hlt
  | value v =>
      dsimp only at h
      split at h
      · next hneg => exact Outcome.pure_eq_ok.mp h ▸ .clash c hc hkind (Or.inr ⟨v, hneg, hbest⟩)
      split at h
      · next hzero =>
        simp only [Outcome.bind_eq_ok, Outcome.pure_eq_ok] at h
        obtain ⟨t, ht, rfl⟩ := h
        exact .tight c t hc hkind hinf (hzero ▸ hbest) ht
      · exact Outcome.pure_eq_ok.mp h ▸ .pass hlt

/-- What every round keeps, the search keeps. -/
theorem keeps_of_tightenRounds {P : Polyhedron → Prop}
    (hround : ∀ i s r, P s → Tightens i s r → P r.result) {n i : Nat} {s t : Polyhedron} (hs : P s)
    (h : tightenRounds n i s = .ok t) : P t := by
  induction n generalizing i s with
  | zero => exact Except.ok.inj h ▸ hs
  | succ n ih =>
      simp only [tightenRounds, Outcome.bind_eq_ok] at h
      obtain ⟨r, hr, h⟩ := h
      have hkept := hround i s r hs (tightenRound_cases hr)
      cases r with
      | done u => exact Outcome.pure_eq_ok.mp h ▸ hkept
      | next j u => exact ih hkept h

/-- No round loses or adds a point. -/
theorem Tightens.samePoints {i : Nat} {s : Polyhedron} {r : Round} (hs : s.WellFormed)
    (h : Tightens i s r) : SamePoints s r.result := by
  have hobj : ∀ c, s.constraints[i]? = some c → ∀ v, s.nVars ≤ v → c.expr.coeff v = 0 :=
    fun c hc v hv => involves_eq_false.mp (hs.involves_eq_false hv) c (List.mem_of_getElem? hc)
  cases h with
  | stop => exact .refl hs
  | clash c get kind max =>
      refine samePoints_infeasible hs fun w hw => ?_
      rcases max with hempty | ⟨v, hneg, hv⟩
      · exact not_holds_of_maximize hs (hobj c get) hempty w hw
      · have hle := value_le_of_maximize hs (hobj c get) hv hw
        have hge := (Constraint.holds_of_kind_ge kind).mp (hw.2 c (List.mem_of_getElem? get))
        omega
  | pass _ => exact .refl hs
  | tight c t get kind _ max tighten =>
      exact samePoints_tightenAt hs get kind
        (fun w hw => value_le_of_maximize hs (hobj c get) max hw) tighten

/-- The whole scan keeps the points. -/
theorem samePoints_tightenRounds {n i : Nat} {s t : Polyhedron} (hs : s.WellFormed)
    (h : tightenRounds n i s = .ok t) : SamePoints s t :=
  keeps_of_tightenRounds (P := SamePoints s)
    (fun _ _ _ hu hround => hu.trans (hround.samePoints hu.wellFormed)) (.refl hs) h

/-- Making equalities explicit keeps the points. -/
theorem samePoints_detectEqualities {s t : Polyhedron} (hs : s.WellFormed)
    (h : s.detectEqualities = .ok t) : SamePoints s t := by
  simp only [detectEqualities, Outcome.bind_eq_ok] at h
  obtain ⟨s₁, h₁, s₂, h₂, h₃⟩ := h
  have hfirst := samePoints_simplify hs h₁
  have hrounds := samePoints_tightenRounds hfirst.wellFormed h₂
  exact hfirst.trans (hrounds.trans (samePoints_simplify hrounds.wellFormed h₃))

/-! ## determined variables -/

/-- What fixing a variable may do: nothing; find that there is no point, because an optimum
says so or the optima are the wrong way round; or add the equality with the only value. -/
inductive Fixes (s : Polyhedron) (v : Nat) : Polyhedron → Prop
  | same : Fixes s v s
  | clash (occurs : s.involves v = true)
      (optima : s.minimize (.var v) = .ok .empty ∨ s.maximize (.var v) = .ok .empty ∨
        ∃ l h, h < l ∧ s.minimize (.var v) = .ok (.value l) ∧
        s.maximize (.var v) = .ok (.value h)) :
      Fixes s v { s with infeasible := true }
  | fix (x : Int) (t : Polyhedron) (occurs : s.involves v = true)
      (min : s.minimize (.var v) = .ok (.value x)) (max : s.maximize (.var v) = .ok (.value x))
      (add : (s.addTerms .equality [(v, 1)] (-x) : Outcome EngineError Polyhedron) = .ok t) :
      Fixes s v t

/-- A variable is left alone or given the one value that it can have. -/
theorem fixVar_cases {s t : Polyhedron} {v : Nat} (h : s.fixVar v = .ok t) : Fixes s v t := by
  unfold fixVar at h
  split at h
  · exact Except.ok.inj h ▸ .same
  next hinv =>
  have hoccurs : s.involves v = true := by
    simp only [Bool.or_eq_true, Bool.not_eq_true', not_or, Bool.not_eq_false] at hinv
    exact hinv.2
  simp only [Outcome.bind_eq_ok] at h
  obtain ⟨hi, hhi, lo, hlo, h⟩ := h
  split at h
  · next l u =>
    split at h
    · next heq =>
      subst heq
      simp only [Outcome.bind_eq_ok, Outcome.orFault_eq_ok, Word.neg?_eq_some] at h
      obtain ⟨_, ⟨-, rfl⟩, h⟩ := h
      exact .fix l t hoccurs hlo hhi h
    split at h
    · next hlt =>
      exact Outcome.pure_eq_ok.mp h ▸ .clash hoccurs (Or.inr (Or.inr ⟨l, u, hlt, hlo, hhi⟩))
    · exact Outcome.pure_eq_ok.mp h ▸ .same
  · exact Outcome.pure_eq_ok.mp h ▸ .clash hoccurs (Or.inl hlo)
  · exact Outcome.pure_eq_ok.mp h ▸ .clash hoccurs (Or.inr (Or.inl hhi))
  · exact Outcome.pure_eq_ok.mp h ▸ .same

/-- What fixing one variable keeps, fixing several keeps. -/
theorem keeps_of_fixVars {P : Polyhedron → Prop} (hfix : ∀ v s t, P s → Fixes s v t → P t)
    {vs : List Nat} {s t : Polyhedron} (hs : P s) (h : s.fixVars vs = .ok t) : P t := by
  induction vs generalizing s with
  | nil => exact Except.ok.inj h ▸ hs
  | cons v vs ih =>
      simp only [fixVars, Outcome.bind_eq_ok] at h
      obtain ⟨u, hu, h⟩ := h
      exact ih (hfix v s u hs (fixVar_cases hu)) h

theorem Fixes.samePoints {s t : Polyhedron} {v : Nat} (hs : s.WellFormed) (h : Fixes s v t) :
    SamePoints s t := by
  have hobj : ∀ i, s.nVars ≤ i → s.involves v = true → (Affine.var v).coeff i = 0 := by
    intro i hi hoccurs
    have hne : i ≠ v := fun heq => by simp [hs.involves_eq_false (heq ▸ hi)] at hoccurs
    rw [Affine.coeff_var, if_neg hne]
  have hle : ∀ h, s.involves v = true → s.maximize (.var v) = .ok (.value h) → ∀ w, s.Holds w →
      w v ≤ h := fun h hoccurs hmax w hw => by
    simpa using value_le_of_maximize hs (hobj · · hoccurs) hmax hw
  have hge : ∀ l, s.involves v = true → s.minimize (.var v) = .ok (.value l) → ∀ w, s.Holds w →
      l ≤ w v := fun l hoccurs hmin w hw => by
    simpa using le_value_of_minimize hs (hobj · · hoccurs) hmin hw
  cases h with
  | same => exact .refl hs
  | clash occurs optima =>
      refine samePoints_infeasible hs fun w hw => ?_
      rcases optima with hmin | hmax | ⟨l, h, hlt, hmin, hmax⟩
      · exact not_holds_of_minimize hs (hobj · · occurs) hmin w hw
      · exact not_holds_of_maximize hs (hobj · · occurs) hmax w hw
      · have h₁ := hle h occurs hmax w hw
        have h₂ := hge l occurs hmin w hw
        omega
  | fix x t occurs min max add =>
      have hv : v < s.nVars := by
        by_contra hge
        simp [hs.involves_eq_false (Nat.le_of_not_lt hge)] at occurs
      refine ⟨?_, fun w => ?_, hs.addTerms add⟩
      · rw [nVars_addTerms add]
        simp [Constraint.termsLength]
        omega
      · rw [holds_addTerms add]
        refine ⟨fun hw => hw.1, fun hw => ⟨hw, ?_⟩⟩
        have h₁ := hle x occurs max w hw
        have h₂ := hge x occurs min w hw
        simp [Constraint.termsValue]
        omega

/-- Fixing the variables of a list keeps the points. -/
theorem samePoints_fixVars {s t : Polyhedron} {vs : List Nat} (hs : s.WellFormed)
    (h : s.fixVars vs = .ok t) : SamePoints s t :=
  keeps_of_fixVars (P := SamePoints s)
    (fun _ _ _ hu hfix => hu.trans (hfix.samePoints hu.wellFormed)) (.refl hs) h

theorem samePoints_fixDetermined {s t : Polyhedron} {start stop : Nat} (hs : s.WellFormed)
    (h : s.fixDetermined start stop = .ok t) : SamePoints s t := by
  simp only [fixDetermined, Outcome.bind_eq_ok] at h
  obtain ⟨u, hu, h⟩ := h
  have hfix := samePoints_fixVars hs hu
  exact hfix.trans (samePoints_simplify hfix.wellFormed h)

end KernelMap.Polyhedron
