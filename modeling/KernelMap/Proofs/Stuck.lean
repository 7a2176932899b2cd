import KernelMap.Proofs.Normal

/-!
# KernelMap.Proofs.Stuck

Constraints without a normal form.

Normalization takes magnitudes and changes signs without a look at the word range.
On words it faults exactly if the constraint is `Stuck`: the least word is a
coefficient, or it is the constant of an equality that has to change its sign
(`Constraint.normalize_eq_fault_iff`).  All other constraints of words are `Storable`.
Normal forms are, and simplification neither faults on storable constraints nor
makes others (`Polyhedron.Storable.simplify_ne_fault`, `Polyhedron.Storable.simplify`).
-/

namespace KernelMap

/-! ## words -/

namespace Word

/-- The word has a negation. -/
def Negatable (x : Int) : Prop := least < x ∧ x ≤ greatest

instance (x : Int) : Decidable (Negatable x) := inferInstanceAs (Decidable (_ ∧ _))

/-- All words but the least have a negation. -/
theorem negatable_iff {x : Int} : Negatable x ↔ fits x = true ∧ x ≠ least := by
  rw [fits_iff, Negatable]
  omega

theorem Negatable.fits {x : Int} (h : Negatable x) : fits x = true := (negatable_iff.mp h).1

/-- The negation of a word has a negation. -/
theorem Negatable.neg {x : Int} (h : Negatable x) : Negatable (-x) := by
  unfold Negatable least greatest at *
  omega

@[simp] theorem negatable_zero : Negatable 0 := by decide

@[simp] theorem negatable_one : Negatable 1 := by decide

/-- The negation of a word has a negation, that word. -/
theorem negatable_of_neg? {x y : Int} (hx : fits x = true) (h : neg? x = some y) : Negatable y := by
  obtain ⟨hneg, rfl⟩ := neg?_eq_some.mp h
  rw [fits_iff] at hx hneg
  unfold Negatable least greatest at *
  omega

/-- The least word is the only one without a magnitude. -/
theorem abs?_eq_none_iff {x : Int} (hx : fits x = true) : abs? x = none ↔ x = least := by
  rw [fits_iff] at hx
  have hiff : fits x.natAbs = true ↔ x ≠ least := by
    rw [fits_iff]
    unfold least greatest at *
    omega
  rw [abs?, check]
  by_cases hleast : x = least
  · rw [if_neg (by simpa using hiff.not.mpr (by simpa using hleast))]
    simp [hleast]
  · rw [if_pos (hiff.mpr hleast)]
    simp [hleast]

/-- A word with a negation has a magnitude. -/
theorem Negatable.abs?_eq_some {x : Int} (h : Negatable x) : abs? x = some (x.natAbs : Int) := by
  obtain ⟨hfits, hne⟩ := negatable_iff.mp h
  obtain ⟨y, hy⟩ := Option.ne_none_iff_exists'.mp ((abs?_eq_none_iff hfits).not.mpr hne)
  rw [hy, (Word.abs?_eq_some.mp hy).2]

/-- Quotients lie between the dividend and zero. -/
theorem tdiv_between {g : Int} (hg : 0 < g) (x : Int) :
    min x 0 ≤ x.tdiv g ∧ x.tdiv g ≤ max x 0 := by
  have hpos : ∀ y : Int, 0 ≤ y → 0 ≤ y.tdiv g ∧ y.tdiv g ≤ y := fun y hy =>
    ⟨Int.tdiv_nonneg hy hg.le, Int.tdiv_le_self g hy⟩
  rcases le_total 0 x with hx | hx
  · have := hpos x hx
    omega
  · have := hpos (-x) (by omega)
    rw [Int.neg_tdiv] at this
    omega

/-- A quotient by a positive number is a word. -/
theorem fits_tdiv {g x : Int} (hg : 0 < g) (hx : fits x = true) : fits (x.tdiv g) = true :=
  fits_of_between hx (tdiv_between hg x)

/-- A quotient by a positive number has a negation if the dividend has one. -/
theorem Negatable.tdiv {g x : Int} (hg : 0 < g) (hx : Negatable x) : Negatable (x.tdiv g) := by
  have := tdiv_between hg x
  unfold Negatable least greatest at *
  omega

/-- A word with a negation can be divided by every other number than zero. -/
theorem Negatable.fits_fdiv {g x : Int} (hg : g ≠ 0) (hx : Negatable x) :
    Word.fits (x.fdiv g) = true := by
  rcases lt_or_gt_of_ne hg with hneg | hpos
  · rw [← Int.neg_fdiv_neg]
    exact Word.fits_fdiv (by omega) hx.neg.fits
  · exact Word.fits_fdiv hpos hx.fits

end Word

/-! ## coefficient lists -/

namespace Coeffs

open Word

/-- Words have a common divisor unless the least word is one of them. -/
theorem content?_eq_none_iff {g : Int} {cs : List Int} (hg : Negatable g)
    (hcs : ∀ c ∈ cs, fits c = true) : content? g cs = none ↔ least ∈ cs := by
  fun_induction content? g cs with
  | case1 g => simp
  | case2 g cs ih =>
      rw [ih hg (fun c hc => hcs c (by simp [hc])), List.mem_cons]
      exact (or_iff_right (by decide)).symm
  | case3 g c cs hc ih =>
      obtain ⟨hfits, hcs⟩ := List.forall_mem_cons.mp hcs
      by_cases hleast : c = least
      · have hnone : gcd? g c = none := by
          rw [gcd?, hg.abs?_eq_some, (abs?_eq_none_iff hfits).mpr hleast]
          rfl
        rw [hnone]
        simp [hleast]
      · have hnegatable : Negatable c := negatable_iff.mpr ⟨hfits, hleast⟩
        obtain ⟨d, hd⟩ : ∃ d, gcd? g c = some d :=
          ⟨_, by rw [gcd?, hg.abs?_eq_some, hnegatable.abs?_eq_some]; rfl⟩
        have hsmall : Negatable d := by
          have hle := Nat.le_of_dvd (Int.natAbs_pos.mpr hc) (Int.gcd_dvd_natAbs_right g c)
          rw [eq_of_gcd?_eq_some hd]
          unfold Negatable least greatest at *
          omega
        rw [hd, Option.bind_eq_bind, Option.bind_some, ih d hsmall hcs, List.mem_cons]
        exact (or_iff_right (Ne.symm hleast)).symm

/-- Zeros at the end do not change the common divisor. -/
theorem content?_append_zeros (g : Int) (cs : List Int) (n : Nat) :
    content? g (cs ++ List.replicate n 0) = content? g cs := by
  have hzeros : ∀ g, content? g (List.replicate n 0) = some g := fun g => by
    induction n with
    | zero => rfl
    | succ n ih => rw [List.replicate_succ, content?, if_pos rfl, ih]
  induction cs generalizing g with
  | nil => exact hzeros g
  | cons c cs ih => simp only [List.cons_append, content?, ih]

/-- Zeros at the end do not change the first sign. -/
theorem leadSign_append_zeros (cs : List Int) (n : Nat) :
    leadSign (cs ++ List.replicate n 0) = leadSign cs := by
  have hzeros : (List.replicate n (0 : Int)).find? (· != 0) = none := by
    rw [List.find?_eq_none]
    intro x hx
    simp [List.eq_of_mem_replicate hx]
  rw [leadSign, leadSign, List.find?_append, hzeros, Option.or_none]

/-- Coefficients that are oriented start with a positive one. -/
theorem leadSign_of_oriented {cs : List Int} (h : Oriented cs) : leadSign cs = 1 := by
  induction cs with
  | nil => rfl
  | cons c cs ih =>
      by_cases hc : c = 0
      · have hlead : leadSign (c :: cs) = leadSign cs := by simp [leadSign, hc]
        rw [hlead]
        refine ih fun i hi => h (i + 1) fun j hj => ?_
        cases j with
        | zero => exact hc
        | succ j => exact hi j (by omega)
      · have hlead : leadSign (c :: cs) = c.sign := by simp [leadSign, hc]
        have hnonneg : 0 ≤ c := h 0 (by simp)
        rw [hlead]
        exact Int.sign_eq_one_of_pos (by omega)

/-- If all coefficients can be negated, the results can be negated again. -/
theorem negatable_of_negate? {cs ds : List Int} (hcs : ∀ c ∈ cs, fits c = true)
    (h : negate? cs = some ds) : ds.length = cs.length ∧ ∀ d ∈ ds, Negatable d := by
  have hforall := map?_eq_some.mp h
  refine ⟨hforall.length_eq.symm, fun d hd => ?_⟩
  obtain ⟨c, hc, hneg⟩ := hforall.exists_of_mem_right hd
  exact negatable_of_neg? (hcs c hc) hneg

/-- Dividing by a positive number keeps coefficients negatable. -/
theorem negatable_divide {g : Int} {cs : List Int} (hg : 0 < g) (hcs : ∀ c ∈ cs, Negatable c) :
    ∀ c ∈ divide g cs, Negatable c := by
  unfold divide
  split
  · exact hcs
  · exact List.forall_mem_map.mpr fun c hc => (hcs c hc).tdiv hg

/-- Giving coefficients a sign keeps them negatable. -/
theorem negatable_orient {sign : Int} {cs : List Int} (hsign : sign = 1 ∨ sign = -1)
    (hcs : ∀ c ∈ cs, Negatable c) : ∀ c ∈ orient sign cs, Negatable c := by
  unfold orient
  split
  · exact hcs
  · next hne =>
    obtain rfl := hsign.resolve_left hne
    refine List.forall_mem_map.mpr fun c hc => ?_
    rw [mul_neg_one]
    exact (hcs c hc).neg

end Coeffs

/-! ## constraints -/

namespace Constraint

open Word

variable {ε : Type} {c d : Constraint}

/-- All numbers are words. -/
def Representable (c : Constraint) : Prop := c.expr.Representable

instance (c : Constraint) : Decidable c.Representable :=
  inferInstanceAs (Decidable (Affine.Representable _))

theorem Representable.coeffs (h : c.Representable) : ∀ x ∈ c.coeffs, fits x = true := h.1

/-- The normal form needs the magnitude of the least word: it is a coefficient, or the
constant of an equality without common divisor whose first coefficient is negative. -/
def Stuck (c : Constraint) : Prop :=
  least ∈ c.coeffs ∨ (c.kind = .equality ∧ c.constant = least ∧ Coeffs.leadSign c.coeffs = -1 ∧
    Coeffs.content? 0 c.coeffs = some 1)

instance (c : Constraint) : Decidable c.Stuck := inferInstanceAs (Decidable (_ ∨ _))

/-- Zeros at the end do not make a constraint stuck. -/
theorem stuck_pad (n : Nat) : (c.pad n).Stuck ↔ c.Stuck := by
  have hmem : least ∈ Coeffs.pad n c.coeffs ↔ least ∈ c.coeffs := by
    rw [Coeffs.pad, List.mem_append, List.mem_replicate]
    exact or_iff_left fun h => absurd h.2 (by decide)
  simp only [Stuck, pad, coeffs, Coeffs.pad, Coeffs.leadSign_append_zeros,
    Coeffs.content?_append_zeros] at hmem ⊢
  rw [hmem]
  rfl

theorem Representable.pad (h : c.Representable) (n : Nat) : (c.pad n).Representable := by
  refine ⟨fun x hx => ?_, h.2⟩
  rcases List.mem_append.mp hx with hx | hx
  · exact h.1 x hx
  · rw [List.eq_of_mem_replicate hx]
    decide

/-- A quotient that has to change its sign leaves the words if it is the least word. -/
theorem mul?_tdiv_eq_none_iff {k g sign : Int} (hk : fits k = true) (hg : 0 < g)
    (hsign : sign = 1 ∨ sign = -1) :
    Word.mul? (k.tdiv g) sign = none ↔ k = least ∧ sign = -1 ∧ g = 1 := by
  have hnone : Word.mul? (k.tdiv g) sign = none ↔ ¬ fits (k.tdiv g * sign) = true := by
    rw [Word.mul?, check]
    split <;> simp [*]
  have hq := fits_tdiv hg hk
  rw [hnone]
  rcases hsign with rfl | rfl
  · simp [hq]
  · rw [mul_neg_one, fits_iff]
    rw [fits_iff] at hk hq
    by_cases hone : g = 1
    · subst hone
      rw [Int.tdiv_one] at hq ⊢
      unfold least greatest at *
      omega
    · -- already half of the least word has a negation
      have hhalf : (k.tdiv g).natAbs ≤ k.natAbs / 2 := by
        rw [Int.natAbs_tdiv]
        exact Nat.div_le_div_left (by omega) (by decide)
      unfold least greatest at *
      omega

/-- Normalization faults on stuck constraints and on no others. -/
theorem normalize_eq_fault_iff (hc : c.Representable) :
    (c.normalize : Outcome ε (Option Constraint)) = .fault ↔ c.Stuck := by
  rw [normalize, Outcome.bind_eq_fault, Outcome.orFault_eq_fault,
    Coeffs.content?_eq_none_iff negatable_zero hc.coeffs]
  refine or_congr_right ?_
  simp only [Outcome.orFault_eq_ok]
  constructor
  · rintro ⟨g, hg, h⟩
    obtain ⟨hnonneg, -⟩ := Coeffs.content?_eq_some le_rfl hg
    split at h
    · simp at h
    split at h
    · next hkind =>
      split at h
      · simp at h
      simp only [Outcome.bind_eq_fault, Outcome.orFault_eq_fault, Outcome.pure_ne_fault, and_false,
        exists_false, or_false] at h
      obtain ⟨hconstant, hsign, rfl⟩ :=
        (mul?_tdiv_eq_none_iff hc.2 (by omega) (Coeffs.leadSign_eq _)).mp h
      exact ⟨hkind, hconstant, hsign, hg⟩
    · simp at h
  · rintro ⟨hkind, hconstant, hsign, hg⟩
    have hmul := (mul?_tdiv_eq_none_iff hc.2 Int.one_pos (Coeffs.leadSign_eq c.coeffs)).mpr
      ⟨hconstant, hsign, rfl⟩
    refine ⟨1, hg, ?_⟩
    rw [if_neg (by decide), hkind]
    dsimp only
    rw [if_neg (by simp), Outcome.bind_eq_fault, Outcome.orFault_eq_fault]
    exact Or.inl hmul

/-- A constraint that polyhedra may list: all numbers are words, and it has a normal
form or no integer point. -/
structure Storable (c : Constraint) : Prop where
  representable : c.Representable
  not_stuck : ¬ c.Stuck

/-- The coefficients of a storable constraint can be negated. -/
theorem Storable.negatable (h : c.Storable) : ∀ x ∈ c.coeffs, Negatable x := fun x hx =>
  negatable_iff.mpr ⟨h.representable.1 x hx, fun hleast => h.not_stuck (.inl (hleast ▸ hx))⟩

/-- Every coefficient of a storable constraint can be negated. -/
theorem Storable.negatable_coeff (h : c.Storable) (v : Nat) : Negatable (c.coeff v) := by
  rw [coeff_eq_get, Coeffs.get, List.getD_eq_getElem?_getD]
  cases hv : c.coeffs[v]? with
  | none => exact negatable_zero
  | some x => exact h.negatable x (List.mem_of_getElem? hv)

/-- A storable constraint with zeros at the end is storable. -/
theorem Storable.pad (h : c.Storable) (n : Nat) : (c.pad n).Storable :=
  ⟨h.representable.pad n, (stuck_pad n).not.mpr h.not_stuck⟩

/-- Storable constraints are normalized without a fault. -/
theorem Storable.normalize_ne_fault (h : c.Storable) :
    (c.normalize : Outcome ε (Option Constraint)) ≠ .fault :=
  (normalize_eq_fault_iff h.representable).not.mpr h.not_stuck

/-- With negatable coefficients only an equality may be stuck, one whose constant is the
least word. -/
theorem storable_of_negatable (hcs : ∀ x ∈ c.coeffs, Negatable x) (hk : fits c.constant = true)
    (hsign : c.kind = .equality → c.constant = least → Coeffs.leadSign c.coeffs = 1) :
    c.Storable where
  representable := ⟨fun x hx => (hcs x hx).fits, hk⟩
  not_stuck := by
    rintro (hleast | ⟨hkind, hconstant, hlead, -⟩)
    · exact (negatable_iff.mp (hcs _ hleast)).2 rfl
    · rw [hsign hkind hconstant] at hlead
      cases hlead

/-- An inequality is storable if its coefficients can be negated. -/
theorem storable_ge {cs : List Int} {k : Int} (hcs : ∀ x ∈ cs, Negatable x) (hk : fits k = true) :
    (ge ⟨cs, k⟩).Storable :=
  storable_of_negatable hcs hk nofun

/-- An equality is storable if its numbers can be negated. -/
theorem storable_eq {cs : List Int} {k : Int} (hcs : ∀ x ∈ cs, Negatable x) (hk : Negatable k) :
    (eq ⟨cs, k⟩).Storable :=
  storable_of_negatable hcs hk.fits fun _ hleast => absurd hleast (negatable_iff.mp hk).2

/-- Normal forms can be normalized again. -/
theorem storable_of_normalize (hc : c.Representable)
    (h : (c.normalize : Outcome ε (Option Constraint)) = .ok (some d)) : d.Storable := by
  have hnot : ¬ c.Stuck := by
    rw [← normalize_eq_fault_iff (ε := ε) hc, h]
    exact Outcome.ok_ne_fault
  have hnegatable := Storable.negatable ⟨hc, hnot⟩
  simp only [normalize, Outcome.bind_eq_ok, Outcome.orFault_eq_ok] at h
  obtain ⟨g, hg, h⟩ := h
  obtain ⟨hnonneg, -, hdvd, -⟩ := Coeffs.content?_eq_some le_rfl hg
  split at h
  · split at h
    · simp only [Outcome.pure_eq_ok, Option.some.injEq] at h
      exact h ▸ ⟨hc, hnot⟩
    · simp at h
  · have hpos : 0 < g := by omega
    have hquotients := Coeffs.negatable_divide hpos hnegatable
    split at h
    · split at h
      · simp at h
      · simp only [Outcome.bind_eq_ok, Outcome.orFault_eq_ok, Word.mul?_eq_some, Outcome.pure_eq_ok,
          Option.some.injEq] at h
        obtain ⟨k, ⟨hfits, rfl⟩, rfl⟩ := h
        refine storable_of_negatable (Coeffs.negatable_orient (Coeffs.leadSign_eq _) hquotients)
          hfits fun _ _ => ?_
        exact Coeffs.leadSign_of_oriented (Coeffs.oriented_orient_divide hpos hdvd)
    · simp only [Outcome.pure_eq_ok, Option.some.injEq] at h
      exact h ▸ storable_ge hquotients (fits_fdiv hpos hc.2)

/-- The inequality may be made an equality unless its constant is the least word. -/
theorem Storable.equality (h : c.Storable) (hk : c.constant ≠ least) :
    Storable { c with kind := .equality } :=
  storable_of_negatable h.negatable h.representable.2 fun _ hleast => absurd hleast hk

end Constraint

/-! ## sorting -/

namespace HalfSpace

/-- Of parallel half-spaces one is kept as it is. -/
theorem mem_insert {h g : HalfSpace} {gs : List HalfSpace} (hg : g ∈ insert h gs) :
    g ∈ gs ∨ g.toConstraint = h.toConstraint := by
  induction gs with
  | nil => exact .inr (by rw [List.mem_singleton.mp hg])
  | cons k gs ih =>
      rw [insert] at hg
      split at hg
      · next hc =>
        have hcoeffs : k.coeffs = h.coeffs := by
          rw [h.key_eq] at hc
          exact hasCoeffs_iff.mp hc
        rcases List.mem_cons.mp hg with rfl | hg
        · rcases min_choice k.constant h.constant with hmin | hmin
          · exact .inl (by simp [hmin])
          · exact .inr (by simp [toConstraint, hmin, hcoeffs])
        · exact .inl (by simp [hg])
      · rcases List.mem_cons.mp hg with rfl | hg
        · exact .inl (by simp)
        · exact (ih hg).imp_left fun hmem => by simp [hmem]

end HalfSpace

namespace Polyhedron

/-- The sorted half-spaces are inequalities of the system. -/
theorem toConstraint_mem_of_sorted {s : Polyhedron} {h : HalfSpace} (hh : h ∈ s.sorted.halfSpaces) :
    h.toConstraint ∈ s.constraints := by
  have hfold : ∀ (cs : List Constraint) (t : Sorted), h ∈ (cs.foldl Sorted.insert t).halfSpaces →
      h ∈ t.halfSpaces ∨ h.toConstraint ∈ cs := by
    intro cs
    induction cs with
    | nil => exact fun t hh => .inl hh
    | cons c cs ih =>
        intro t hh
        rcases ih _ hh with hh | hh
        · unfold Sorted.insert at hh
          split at hh
          · exact .inl hh
          · next hkind =>
            rcases HalfSpace.mem_insert hh with hh | heq
            · exact .inl hh
            · have hc : (HalfSpace.ofConstraint c).toConstraint = c := by
                obtain ⟨kind, expr⟩ := c
                obtain rfl : kind = .inequality := hkind
                rfl
              exact .inr (by simp [heq, hc])
        · exact .inr (by simp [hh])
  exact (hfold _ _ hh).resolve_left (by simp)

/-! ## simplification -/

/-- All constraints are storable. -/
def Storable (s : Polyhedron) : Prop := ∀ c ∈ s.constraints, c.Storable

namespace Reduction

variable {all hs : List HalfSpace} {r r' : Reduction} {h : HalfSpace}

/-- The equality of two half-spaces that meet: its constant is the negation of a word. -/
theorem storable_eq_of_meet (hall : ∀ g ∈ all, g.toConstraint.Storable)
    (hh : h.toConstraint.Storable) {o : HalfSpace} (ho : o ∈ all)
    (hmeet : h.constant + o.constant = 0) : (Constraint.eq ⟨h.coeffs, h.constant⟩).Storable := by
  refine hh.equality fun hleast => ?_
  have hword := Word.fits_iff.mp (hall o ho).representable.2
  change h.constant = Word.least at hleast
  change Word.least ≤ o.constant ∧ o.constant ≤ Word.greatest at hword
  unfold Word.least Word.greatest at *
  omega

/-- Storable half-spaces meet without a fault. -/
theorem meet_ne_fault (hn : (all.map (·.coeffs)).Nodup) (hall : ∀ g ∈ all, g.toConstraint.Storable)
    (hh : h.toConstraint.Storable) : r.meet all h ≠ .fault := by
  intro hfault
  unfold meet at hfault
  split at hfault
  · simp at hfault
  split at hfault
  · simp at hfault
  split at hfault
  · simp at hfault
  next o hsome =>
  simp only [Outcome.bind_eq_fault, Outcome.orOverflow_ne_fault, false_or, Outcome.orOverflow_eq_ok,
    Word.add?_eq_some] at hfault
  obtain ⟨_, ⟨-, rfl⟩, hfault⟩ := hfault
  split at hfault
  · simp at hfault
  split at hfault
  · next hzero =>
    rcases Outcome.bind_eq_fault.mp hfault with hfault | ⟨e?, -, hfault⟩
    · exact (storable_eq_of_meet hall hh
        ((HalfSpace.opposite?_iff hn).mp hsome).1 hzero).normalize_ne_fault hfault
    · cases e? <;> simp at hfault
  · simp at hfault

/-- Comparing storable half-spaces does not fault. -/
theorem meetAll_ne_fault (hn : (all.map (·.coeffs)).Nodup)
    (hall : ∀ g ∈ all, g.toConstraint.Storable) (hhs : ∀ g ∈ hs, g.toConstraint.Storable) :
    meetAll all hs r ≠ .fault := by
  induction hs generalizing r with
  | nil => simp [meetAll]
  | cons h hs ih =>
      obtain ⟨hh, hhs⟩ := List.forall_mem_cons.mp hhs
      simp only [meetAll, ne_eq, Outcome.bind_eq_fault, meet_ne_fault hn hall hh, false_or,
        not_exists, not_and]
      exact fun r₁ _ => ih hhs

/-- The equalities that come from comparing storable half-spaces are storable. -/
theorem storable_meetAll (hn : (all.map (·.coeffs)).Nodup) (hhs : ∀ g ∈ hs, g.toConstraint.Storable)
    (hr : ∀ e ∈ r.equalities, e.Storable) (hmeet : meetAll all hs r = .ok r') :
    ∀ e ∈ r'.equalities, e.Storable :=
  forall_equalities_of_meetAll hn (fun h hh _ normal =>
    Constraint.storable_of_normalize (c := .eq ⟨h.coeffs, h.constant⟩)
      (hhs h hh).representable normal)
    hr hmeet

/-- An equality is absorbed without a fault. -/
theorem absorb_ne_fault {e : Constraint} : r.absorb all e ≠ .fault := by
  unfold absorb dropOpposite
  split
  · simp
  · split <;> simp

/-- Equalities are absorbed without a fault. -/
theorem absorbAll_ne_fault {es : List Constraint} : absorbAll all es r ≠ .fault := by
  induction es generalizing r with
  | nil => simp [absorbAll]
  | cons e es ih => simp [absorbAll, absorb_ne_fault, ih]

end Reduction

theorem Storable.halfSpaces {s : Polyhedron} (hs : s.Storable) :
    ∀ g ∈ s.sorted.halfSpaces, g.toConstraint.Storable :=
  fun _ hg => hs _ (toConstraint_mem_of_sorted hg)

/-- Storable constraints are simplified without a fault. -/
theorem Storable.simplify_ne_fault {s : Polyhedron} (hs : s.Storable) : s.simplify ≠ .fault := by
  cases hinf : s.infeasible with
  | true => simp [simplify, hinf]
  | false =>
      intro hfault
      rw [simplify, if_neg (by simp [hinf])] at hfault
      simp only [Outcome.bind_eq_fault] at hfault
      rcases hfault with hfault | ⟨r₁, -, hfault | ⟨r₂, -, hfault⟩⟩
      · exact Reduction.meetAll_ne_fault s.sorted_from.nodup hs.halfSpaces hs.halfSpaces hfault
      · exact Reduction.absorbAll_ne_fault hfault
      · split at hfault <;> simp at hfault

/-- Simplifying keeps constraints storable. -/
theorem Storable.simplify {s t : Polyhedron} (hs : s.Storable) (h : s.simplify = .ok t) :
    t.Storable := by
  cases hinf : s.infeasible with
  | true =>
      simp only [Polyhedron.simplify, hinf, if_true, Except.ok.injEq] at h
      simp [← h, Storable]
  | false =>
      obtain ⟨r₁, r₂, hmeet, habsorb, rfl⟩ := simplify_eq_ok hinf h
      have heqs := Reduction.storable_meetAll s.sorted_from.nodup hs.halfSpaces
        (fun e he => hs e (s.sorted_from.equality e he)) hmeet
      rw [← Reduction.equalities_absorbAll s.sorted_from.nodup habsorb] at heqs
      split
      · simp [Storable]
      · intro c hc
        rcases Reduction.mem_rows.mp hc with hc | ⟨g, hg, -, rfl⟩
        · exact heqs c hc
        · exact hs.halfSpaces g hg

end Polyhedron

end KernelMap
