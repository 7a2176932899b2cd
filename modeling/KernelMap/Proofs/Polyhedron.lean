import KernelMap.Polyhedron.Basic
import KernelMap.Proofs.Constraint

/-!
# KernelMap.Proofs.Polyhedron

The integer points of a polyhedron, and what building one does to them.

A polyhedron is `WellFormed` if every constraint has one coefficient for each of
its variables.  It is so when it is built by the operations below and all
later ones, which is why a variable past the end never occurs.  For each operation
there is one statement on its points and one on the shape of the result:

* `holds_addVars`, `holds_add`, `holds_addTerms`, `holds_addAllLowered` — adding
  a constraint keeps exactly the points where it holds;
* `holds_embed` — a renumbered polyhedron contains a point if the original
  contains it read through the map.
-/

namespace KernelMap.Polyhedron

variable {ε : Type}

/-! ## points and shape -/

/-- Is the valuation a point of the polyhedron?  One that is known to be
infeasible has none. -/
def Holds (s : Polyhedron) (w : Valuation) : Prop :=
  s.infeasible = false ∧ ∀ c ∈ s.constraints, c.Holds w

instance (s : Polyhedron) (w : Valuation) : Decidable (s.Holds w) :=
  inferInstanceAs (Decidable (_ ∧ _))

/-- Every constraint has one coefficient for each variable. -/
def WellFormed (s : Polyhedron) : Prop := ∀ c ∈ s.constraints, c.coeffs.length = s.nVars

instance (s : Polyhedron) : Decidable s.WellFormed := inferInstanceAs (Decidable (∀ _ ∈ _, _))

/-- A system marked infeasible has no points. -/
theorem not_holds_of_infeasible {s : Polyhedron} (h : s.infeasible = true) (w : Valuation) :
    ¬ s.Holds w := by
  simp [Holds, h]

/-- A variable is not involved if its coefficient is zero everywhere. -/
theorem involves_eq_false {s : Polyhedron} {v : Nat} :
    s.involves v = false ↔ ∀ c ∈ s.constraints, c.coeff v = 0 := by
  simp [involves]

/-- Only the values of variables that occur matter. -/
theorem holds_congr {s : Polyhedron} {w w' : Valuation}
    (h : ∀ v, s.involves v = true → w v = w' v) : s.Holds w ↔ s.Holds w' := by
  have hc : ∀ c ∈ s.constraints, (c.Holds w ↔ c.Holds w') := fun c hc =>
    Constraint.holds_congr fun v hv => h v (List.any_eq_true.mpr ⟨c, hc, by simpa using hv⟩)
  constructor
  · rintro ⟨hf, hw⟩
    exact ⟨hf, fun c hcs => (hc c hcs).mp (hw c hcs)⟩
  · rintro ⟨hf, hw⟩
    exact ⟨hf, fun c hcs => (hc c hcs).mpr (hw c hcs)⟩

/-- A variable past the end does not occur. -/
theorem WellFormed.involves_eq_false {s : Polyhedron} (hs : s.WellFormed) {v : Nat}
    (hv : s.nVars ≤ v) : s.involves v = false :=
  Polyhedron.involves_eq_false.mpr fun c hc => by
    rw [Constraint.coeff_eq_get]
    exact Coeffs.get_of_length_le (by rw [hs c hc]; exact hv)

/-- A system without constraints holds everywhere. -/
@[simp] theorem holds_empty (n : Nat) (w : Valuation) : (empty n).Holds w := by
  simp [Holds, empty]

theorem wellFormed_empty (n : Nat) : (empty n).WellFormed := by
  simp [WellFormed, empty]

/-! ## adding variables and constraints -/

/-- Adding variables changes nothing but their number. -/
theorem addVars_eq_ok {s t : Polyhedron} {n : Nat}
    (h : (s.addVars n : Outcome ε Polyhedron) = .ok t) :
    t = { s with nVars := s.nVars + n,
                 constraints := s.constraints.map (·.pad (s.nVars + n)) } := by
  simp only [addVars, Outcome.bind_eq_ok, Outcome.orFault_eq_ok] at h
  obtain ⟨m, hm, h⟩ := h
  have hm : m = s.nVars + n := by
    unfold Index.add? at hm
    split at hm <;> simp_all
  subst hm
  split at h
  · simp at h
  · exact (Outcome.pure_eq_ok.mp h).symm

/-- New variables are free, so that the points stay the same. -/
theorem holds_addVars {s t : Polyhedron} {n : Nat}
    (h : (s.addVars n : Outcome ε Polyhedron) = .ok t) (w : Valuation) : t.Holds w ↔ s.Holds w := by
  simp [addVars_eq_ok h, Holds]

theorem WellFormed.addVars {s t : Polyhedron} {n : Nat} (hs : s.WellFormed)
    (h : (s.addVars n : Outcome ε Polyhedron) = .ok t) : t.WellFormed := by
  rw [addVars_eq_ok h]
  intro c hc
  obtain ⟨d, hd, rfl⟩ := List.mem_map.mp hc
  exact Constraint.length_coeffs_pad (by rw [hs d hd]; exact Nat.le_add_right ..)

@[simp] theorem nVars_push (s : Polyhedron) (c : Constraint) : (s.push c).nVars = s.nVars := by
  unfold push
  split <;> rfl

/-- Pushing a constraint that is true where it has no variables keeps exactly the
points where it holds. -/
theorem holds_push {s : Polyhedron} {c : Constraint} (hc : c.isConst = true → ∀ w, c.Holds w)
    (w : Valuation) : (s.push c).Holds w ↔ s.Holds w ∧ c.Holds w := by
  unfold push
  split
  · next h =>
    simp only [Bool.or_eq_true, List.any_eq_true, Constraint.eqv_iff] at h
    refine ⟨fun hw => ⟨hw, ?_⟩, fun hw => hw.1⟩
    rcases h with hconst | ⟨d, hd, rfl⟩
    · exact hc hconst w
    · exact hw.2 c hd
  · simp only [Holds, List.mem_append, List.mem_singleton]
    constructor
    · rintro ⟨hf, hall⟩
      exact ⟨⟨hf, fun d hd => hall d (Or.inl hd)⟩, hall c (Or.inr rfl)⟩
    · rintro ⟨⟨hf, hall⟩, hcw⟩
      refine ⟨hf, fun d hd => ?_⟩
      rcases hd with hd | rfl
      · exact hall d hd
      · exact hcw

/-- What holds of all constraints holds of them after one is pushed. -/
theorem forall_mem_push {P : Constraint → Prop} {s : Polyhedron} {c : Constraint}
    (hs : ∀ d ∈ s.constraints, P d) (hc : c.isConst = false → P c) :
    ∀ d ∈ (s.push c).constraints, P d := by
  unfold push
  split
  · exact hs
  · next hnew =>
    simp only [Bool.or_eq_true, not_or, Bool.not_eq_true] at hnew
    intro d hd
    rcases List.mem_append.mp hd with hd | hd
    · exact hs d hd
    · exact List.mem_singleton.mp hd ▸ hc hnew.1

/-- A constraint with one coefficient for each variable can be pushed. -/
theorem WellFormed.push {s : Polyhedron} {c : Constraint} (hs : s.WellFormed)
    (hc : c.coeffs.length = s.nVars) : (s.push c).WellFormed := by
  rw [WellFormed, nVars_push]
  exact forall_mem_push hs fun _ => hc

/-- Adding a constraint in two steps: the space grows, then the normal form is
pushed. -/
theorem add_eq_bind (s : Polyhedron) (c : Constraint) :
    (s.add c : Outcome ε Polyhedron) =
      (if s.nVars < c.coeffs.length then s.addVars (c.coeffs.length - s.nVars)
        else .ok s) >>= fun s =>
        if Index.maxLength < s.nVars then .fault
        else (c.pad s.nVars).normalize >>= fun
          | none => pure { s with infeasible := true }
          | some c => pure (s.push c) := by
  unfold add
  split <;> rfl

/-- What adding a constraint may do: the space grows to that of the constraint; then the
constraint is found to hold nowhere, or its normal form is pushed. -/
theorem add_cases {s t : Polyhedron} {c : Constraint}
    (h : (s.add c : Outcome ε Polyhedron) = .ok t) :
    ∃ u, (s.nVars < c.coeffs.length ∧
          (s.addVars (c.coeffs.length - s.nVars) : Outcome ε Polyhedron) = .ok u ∨
        c.coeffs.length ≤ s.nVars ∧ u = s) ∧
      (((c.pad u.nVars).normalize : Outcome ε (Option Constraint)) = .ok none ∧
          t = { u with infeasible := true } ∨
        ∃ d, ((c.pad u.nVars).normalize : Outcome ε (Option Constraint)) = .ok (some d) ∧
          t = u.push d) := by
  simp only [add_eq_bind, Outcome.bind_eq_ok] at h
  obtain ⟨u, hu, h⟩ := h
  refine ⟨u, ?_, ?_⟩
  · split at hu
    · next hlt => exact Or.inl ⟨hlt, hu⟩
    · next hge => exact Or.inr ⟨Nat.le_of_not_lt hge, (Except.ok.inj hu).symm⟩
  · split at h
    · simp at h
    simp only [Outcome.bind_eq_ok] at h
    obtain ⟨r, hr, h⟩ := h
    cases r with
    | none => exact Or.inl ⟨hr, (Outcome.pure_eq_ok.mp h).symm⟩
    | some d => exact Or.inr ⟨d, hr, (Outcome.pure_eq_ok.mp h).symm⟩

/-- What holds of all constraints and of the normal form of a new one holds of all
constraints with the new one. -/
theorem forall_mem_add {P : Constraint → Prop} (hpad : ∀ d n, P d → P (d.pad n)) {s t : Polyhedron}
    {c : Constraint} (hs : ∀ d ∈ s.constraints, P d)
    (hc : ∀ n d, ((c.pad n).normalize : Outcome ε (Option Constraint)) = .ok (some d) →
      d.isConst = false → P d)
    (h : (s.add c : Outcome ε Polyhedron) = .ok t) : ∀ d ∈ t.constraints, P d := by
  obtain ⟨u, hu, h⟩ := add_cases h
  have hgrown : ∀ d ∈ u.constraints, P d := by
    rcases hu with ⟨-, hu⟩ | ⟨-, rfl⟩
    · rw [addVars_eq_ok hu]
      exact List.forall_mem_map.mpr fun d hd => hpad d _ (hs d hd)
    · exact hs
  rcases h with ⟨-, rfl⟩ | ⟨d, hd, rfl⟩
  · exact hgrown
  · exact forall_mem_push hgrown (hc _ d hd)

/-- What adding a constraint does: the space grows to that of the constraint,
the points are those where it holds. -/
theorem add_eq_ok {s t : Polyhedron} {c : Constraint}
    (h : (s.add c : Outcome ε Polyhedron) = .ok t) :
    t.nVars = max s.nVars c.coeffs.length ∧ (∀ w, t.Holds w ↔ s.Holds w ∧ c.Holds w) ∧
      (s.WellFormed → t.WellFormed) := by
  obtain ⟨u, hu, h⟩ := add_cases h
  have hgrow : u.nVars = max s.nVars c.coeffs.length ∧ (∀ w, u.Holds w ↔ s.Holds w) ∧
      (s.WellFormed → u.WellFormed) := by
    rcases hu with ⟨hlt, hu⟩ | ⟨hle, rfl⟩
    · refine ⟨?_, holds_addVars hu, fun hwf => hwf.addVars hu⟩
      rw [addVars_eq_ok hu]
      dsimp only
      omega
    · exact ⟨by omega, fun _ => Iff.rfl, id⟩
  obtain ⟨hn, hpoints, hwf⟩ := hgrow
  rcases h with ⟨hnone, rfl⟩ | ⟨d, hd, rfl⟩
  · refine ⟨hn, fun w => ?_, hwf⟩
    have hno : ¬ c.Holds w := fun hw =>
      Constraint.not_holds_of_normalize hnone w (Constraint.holds_pad.mpr hw)
    simp [Holds, hno]
  · have hset := Constraint.sameSet_of_normalize hd
    refine ⟨by rw [nVars_push, hn], fun w => ?_, fun hs => ?_⟩
    · rw [holds_push (fun hconst => Constraint.holds_of_normalize_isConst hd hconst), hpoints,
        hset.holds, Constraint.holds_pad]
    · refine (hwf hs).push ?_
      rw [hset.length, Constraint.length_coeffs_pad]
      omega

/-- Adding a constraint keeps the points where it holds. -/
theorem holds_add {s t : Polyhedron} {c : Constraint} (h : (s.add c : Outcome ε Polyhedron) = .ok t)
    (w : Valuation) : t.Holds w ↔ s.Holds w ∧ c.Holds w :=
  (add_eq_ok h).2.1 w

/-- Adding a constraint makes room where it is needed. -/
theorem WellFormed.add {s t : Polyhedron} {c : Constraint} (hs : s.WellFormed)
    (h : (s.add c : Outcome ε Polyhedron) = .ok t) : t.WellFormed :=
  (add_eq_ok h).2.2 hs

/-- Adding a constraint given by terms keeps the points that it accepts. -/
theorem holds_addTerms {s t : Polyhedron} {kind : Constraint.Kind}
    {terms : List (Nat × Int)} {k : Int}
    (h : (s.addTerms kind terms k : Outcome ε Polyhedron) = .ok t) (w : Valuation) :
    t.Holds w ↔ s.Holds w ∧ kind.accepts (Constraint.termsValue terms w + k) = true := by
  simp only [addTerms, Outcome.bind_eq_ok] at h
  obtain ⟨c, hc, h⟩ := h
  obtain ⟨hkind, -, hval⟩ := Constraint.ofTerms_eq_ok hc
  rw [holds_add h, Constraint.Holds, hkind, hval]

/-- Adding a constraint given by terms makes room for its variables. -/
theorem nVars_addTerms {s t : Polyhedron} {kind : Constraint.Kind}
    {terms : List (Nat × Int)} {k : Int}
    (h : (s.addTerms kind terms k : Outcome ε Polyhedron) = .ok t) :
    t.nVars = max s.nVars (Constraint.termsLength terms) := by
  simp only [addTerms, Outcome.bind_eq_ok] at h
  obtain ⟨c, hc, h⟩ := h
  rw [(add_eq_ok h).1, (Constraint.ofTerms_eq_ok hc).2.1]

theorem WellFormed.addTerms {s t : Polyhedron} {kind : Constraint.Kind}
    {terms : List (Nat × Int)} {k : Int} (hs : s.WellFormed)
    (h : (s.addTerms kind terms k : Outcome ε Polyhedron) = .ok t) : t.WellFormed := by
  simp only [Polyhedron.addTerms, Outcome.bind_eq_ok] at h
  obtain ⟨c, -, h⟩ := h
  exact hs.add h

/-- Adding renumbered constraints keeps exactly the points where they hold
through the map. -/
theorem holds_addAllLowered {s t : Polyhedron} {map : List Nat} {cs : List Constraint}
    (h : (s.addAllLowered map cs : Outcome ε Polyhedron) = .ok t) (w : Valuation) :
    t.Holds w ↔ s.Holds w ∧ ∀ c ∈ cs, c.Holds fun i => w (map.getD i 0) := by
  induction cs generalizing s with
  | nil =>
      simp only [addAllLowered, Except.ok.injEq] at h
      simp [h]
  | cons c cs ih =>
      simp only [addAllLowered, addLowered, Outcome.bind_eq_ok] at h
      obtain ⟨u, ⟨d, hd, hu⟩, h⟩ := h
      rw [ih h, holds_add hu, Constraint.holds_lower hd, List.forall_mem_cons, and_assoc]

/-- `t` has the variables of `s` and perhaps more. -/
structure Grows (s t : Polyhedron) : Prop where
  nVars : s.nVars ≤ t.nVars
  wellFormed : s.WellFormed → t.WellFormed

theorem Grows.refl (s : Polyhedron) : Grows s s := ⟨le_rfl, id⟩

theorem Grows.trans {s t u : Polyhedron} (h : Grows s t) (h' : Grows t u) : Grows s u :=
  ⟨h.nVars.trans h'.nVars, fun hs => h'.wellFormed (h.wellFormed hs)⟩

/-- Adding a constraint only makes room. -/
theorem grows_add {s t : Polyhedron} {c : Constraint}
    (h : (s.add c : Outcome ε Polyhedron) = .ok t) : Grows s t := by
  obtain ⟨hn, -, hwf⟩ := add_eq_ok h
  exact ⟨by omega, hwf⟩

/-- Adding renamed constraints only makes room. -/
theorem grows_addAllLowered {s t : Polyhedron} {map : List Nat} {cs : List Constraint}
    (h : (s.addAllLowered map cs : Outcome ε Polyhedron) = .ok t) : Grows s t := by
  induction cs generalizing s with
  | nil =>
      simp only [addAllLowered, Except.ok.injEq] at h
      exact h ▸ .refl s
  | cons c cs ih =>
      simp only [addAllLowered, addLowered, Outcome.bind_eq_ok] at h
      obtain ⟨u, ⟨d, -, hu⟩, h⟩ := h
      exact (grows_add hu).trans (ih h)

/-! ## renumbering -/

/-- Coefficients at new places add the terms of the old ones at the renamed variables. -/
theorem embedCoeffs_eq_ok {cs : List Int} {map : List Nat} {out r : List Int}
    (h : (embedCoeffs cs map out : Outcome ε (List Int)) = .ok r) :
    r.length = out.length ∧
      ∀ w, Coeffs.dot r w = Coeffs.dot out w + Coeffs.dot cs fun i => w (map.getD i 0) := by
  fun_induction @embedCoeffs ε cs map out with
  | case1 map out =>
      simp only [Except.ok.injEq] at h
      simp [h]
  | case2 cs out ih =>
      obtain ⟨hlen, hdot⟩ := ih h
      refine ⟨hlen, fun w => ?_⟩
      rw [hdot w, Coeffs.dot_cons]
      simp
  | case3 => simp at h
  | case4 cs i is out ih =>
      obtain ⟨hlen, hdot⟩ := ih h
      refine ⟨hlen, fun w => ?_⟩
      rw [hdot w, Coeffs.dot_cons]
      simp
  | case5 c cs i is out hc ih =>
      simp only [Outcome.bind_eq_ok, Outcome.orFault_eq_ok, Word.add?_eq_some] at h
      obtain ⟨old, hold, sum, ⟨-, rfl⟩, h⟩ := h
      obtain ⟨hi, rfl⟩ := List.getElem?_eq_some_iff.mp hold
      obtain ⟨hlen, hdot⟩ := ih _ h
      refine ⟨by simpa using hlen, fun w => ?_⟩
      rw [hdot w, Coeffs.dot_set hi, Coeffs.get_of_lt hi, Coeffs.dot_cons]
      simp
      ring

/-- Renamed constraints are added without more room, and hold where the old ones do at the renamed
variables. -/
theorem embedOnto_eq_ok {s t : Polyhedron} {map : List Nat} {cs : List Constraint}
    (h : (embedOnto map s cs : Outcome ε Polyhedron) = .ok t) :
    t.nVars = s.nVars ∧ (∀ w, t.Holds w ↔ s.Holds w ∧ ∀ c ∈ cs, c.Holds fun i => w (map.getD i 0)) ∧
      (s.WellFormed → t.WellFormed) := by
  induction cs generalizing s with
  | nil =>
      simp only [embedOnto, Except.ok.injEq] at h
      simp [h]
  | cons c cs ih =>
      simp only [embedOnto] at h
      split at h
      · simp at h
      · simp only [Outcome.bind_eq_ok] at h
        obtain ⟨ds, hds, u, hu, h⟩ := h
        obtain ⟨hlen, hdot⟩ := embedCoeffs_eq_ok hds
        obtain ⟨hn, hpoints, hwf⟩ := add_eq_ok hu
        obtain ⟨hn', hpoints', hwf'⟩ := ih h
        refine ⟨?_, fun w => ?_, fun hs => hwf' (hwf hs)⟩
        · rw [hn', hn, Constraint.coeffs, hlen, List.length_replicate, max_self]
        · have hmoved : (⟨c.kind, ds, c.constant⟩ : Constraint).Holds w ↔ c.Holds fun i =>
              w (map.getD i 0) := by
            rw [Constraint.Holds, Constraint.Holds, Affine.value_mk, hdot w,
              Coeffs.dot_replicate_zero, zero_add]
            rfl
          rw [hpoints', hpoints, hmoved, List.forall_mem_cons, and_assoc]

/-- A renumbered polyhedron contains the points that the original contains when
they are read through the map. -/
theorem holds_embed {s t : Polyhedron} {n : Nat} {map : List Nat}
    (h : (s.embed n map : Outcome ε Polyhedron) = .ok t) (w : Valuation) :
    t.Holds w ↔ s.Holds fun i => w (map.getD i 0) := by
  rw [(embedOnto_eq_ok h).2.1 w]
  simp [Holds, empty]

/-- If `g` undoes the renumbering `f`, the points move by `g`. -/
theorem holds_embed_range {s t : Polyhedron} {n : Nat} {f g : Nat → Nat} (hs : s.WellFormed)
    (hgf : ∀ k, k < s.nVars → g (f k) = k)
    (h : (s.embed n ((List.range s.nVars).map f) : Outcome ε Polyhedron) = .ok t) (w : Valuation) :
    t.Holds (fun j => w (g j)) ↔ s.Holds w := by
  rw [holds_embed h]
  refine holds_congr fun v hv => ?_
  have hlt : v < s.nVars := by
    by_contra hge
    simp [hs.involves_eq_false (Nat.le_of_not_lt hge)] at hv
  have hmap : ((List.range s.nVars).map f).getD v 0 = f v := by
    simp [List.getD_eq_getElem?_getD, hlt]
  rw [hmap, hgf v hlt]

/-- An embedded system has the number of variables asked for. -/
theorem nVars_embed {s t : Polyhedron} {n : Nat} {map : List Nat}
    (h : (s.embed n map : Outcome ε Polyhedron) = .ok t) : t.nVars = n :=
  (embedOnto_eq_ok h).1

/-- An embedded system stores one coefficient for each variable. -/
theorem wellFormed_embed {s t : Polyhedron} {n : Nat} {map : List Nat}
    (h : (s.embed n map : Outcome ε Polyhedron) = .ok t) : t.WellFormed :=
  (embedOnto_eq_ok h).2.2 (wellFormed_empty n)

end KernelMap.Polyhedron
