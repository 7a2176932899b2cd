import KernelMap.Proofs.Normal

/-!
# KernelMap.Proofs.Canonical

What is stored in a polyhedron is in one form, whichever way it came in.

A polyhedron is `Canonical` if every constraint has one coefficient for each variable and
is normal, and no constraint is there twice.  Constraints come in one by one through
`push`, which looks for an equal one, or all at once through `simplify`, which keeps one
constraint for each list of coefficients (`nodup_simplify`).  An `Operation` does one of
the two last, so each keeps the form (`Canonical.apply`) and so does a run
(`Canonical.run`).  What a run can make is `Built`.

Main statement: `Polyhedron.stored_constraints_are_canonical`.
-/

namespace KernelMap

/-! ## coefficient lists -/

namespace Coeffs

/-- The greatest common divisor of the coefficients. -/
def gcd (cs : List Int) : Nat := cs.foldr (fun c g => Int.gcd c g) 0

/-- The greatest common divisor divides every coefficient. -/
theorem gcd_dvd {cs : List Int} {c : Int} (h : c ∈ cs) : (gcd cs : Int) ∣ c := by
  induction cs with
  | nil => simp at h
  | cons d cs ih =>
      rcases List.mem_cons.mp h with rfl | h
      · exact Int.gcd_dvd_left ..
      · exact (Int.gcd_dvd_right ..).trans (ih h)

/-- Coefficients without a common divisor have the greatest common divisor one. -/
theorem Primitive.gcd_eq {cs : List Int} (h : Primitive cs) : gcd cs = 1 := by
  have hdvd : (gcd cs : Int) ∣ 1 := h _ fun i => by
    by_cases hi : i < cs.length
    · rw [get_of_lt hi]
      exact gcd_dvd (List.getElem_mem hi)
    · rw [get_of_length_le (by omega)]
      exact dvd_zero _
  exact Nat.dvd_one.mp (Int.natCast_dvd_natCast.mp hdvd)

/-- Coefficients without a common divisor are not all zero. -/
theorem Primitive.exists_mem_ne_zero {cs : List Int} (h : Primitive cs) : ∃ c ∈ cs, c ≠ 0 := by
  obtain ⟨i, hi⟩ := h.exists_get_ne_zero
  by_contra hzero
  simp only [not_exists, not_and, not_not] at hzero
  exact hi (all_zero_iff.mp (by simpa using hzero) i)

/-- The first coefficient of an oriented list that is not zero is positive. -/
theorem Oriented.lead_pos {cs : List Int} {c : Int} (h : Oriented cs)
    (hc : cs.find? (· != 0) = some c) : 0 < c := by
  induction cs with
  | nil => simp at hc
  | cons d cs ih =>
      by_cases hd : d = 0
      · subst hd
        refine ih (fun i hi => ?_) (by simpa using hc)
        refine h (i + 1) fun j hj => ?_
        cases j with
        | zero => rfl
        | succ j => exact hi j (by omega)
      · obtain rfl : d = c := by simpa [hd] using hc
        exact lt_of_le_of_ne (h 0 (by simp)) (Ne.symm hd)

end Coeffs

namespace Polyhedron

variable {ε : Type}

/-! ## what every operation keeps -/

/-- Every constraint has one coefficient for each variable and is in normal form, and no
constraint is there twice. -/
structure Canonical (s : Polyhedron) : Prop where
  wellFormed : s.WellFormed
  normalized : s.Normalized
  nodup : s.constraints.Nodup

theorem canonical_empty (n : Nat) : (empty n).Canonical :=
  ⟨wellFormed_empty n, normalized_empty n, List.nodup_nil⟩

theorem Canonical.addVars {s t : Polyhedron} {n : Nat} (hs : s.Canonical)
    (h : (s.addVars n : Outcome ε Polyhedron) = .ok t) : t.Canonical := by
  refine ⟨hs.wellFormed.addVars h, hs.normalized.addVars h, ?_⟩
  rw [addVars_eq_ok h]
  -- the constraints have the same length before, so that padding does not make them equal
  refine hs.nodup.map_on fun c hc d hd heq => ?_
  have hlen : c.coeffs.length = d.coeffs.length :=
    (hs.wellFormed c hc).trans (hs.wellFormed d hd).symm
  obtain ⟨kind, coeffs, constant⟩ := c
  obtain ⟨kind', coeffs', constant'⟩ := d
  simp only [Constraint.pad, Constraint.mk.injEq, Affine.mk.injEq] at heq ⊢
  exact ⟨heq.1, List.append_inj_left heq.2.1 hlen, heq.2.2⟩

/-- A constraint that is there is not pushed again. -/
theorem nodup_push {s : Polyhedron} (c : Constraint) (hs : s.constraints.Nodup) :
    (s.push c).constraints.Nodup := by
  unfold push
  split
  · exact hs
  · next hnew =>
    simp only [Bool.or_eq_true, List.any_eq_true, Constraint.eqv_iff,
      exists_eq_right', not_or] at hnew
    dsimp only
    rw [← List.concat_eq_append, List.nodup_concat]
    exact ⟨hnew.2, hs⟩

/-- Adding a constraint keeps a system canonical. -/
theorem Canonical.add {s t : Polyhedron} {c : Constraint} (hs : s.Canonical)
    (h : (s.add c : Outcome ε Polyhedron) = .ok t) : t.Canonical := by
  refine ⟨hs.wellFormed.add h, hs.normalized.add h, ?_⟩
  obtain ⟨u, hu, h⟩ := add_cases h
  have hgrown : u.constraints.Nodup := by
    rcases hu with ⟨-, hu⟩ | ⟨-, rfl⟩
    · exact (hs.addVars hu).nodup
    · exact hs.nodup
  rcases h with ⟨-, rfl⟩ | ⟨d, -, rfl⟩
  · exact hgrown
  · exact nodup_push d hgrown

/-- An intersection adds one constraint after the other. -/
theorem Canonical.intersect {s t u : Polyhedron} (hs : s.Canonical)
    (h : (s.intersect t : Outcome ε Polyhedron) = .ok u) : u.Canonical := by
  have hstart : ({ s with infeasible := s.infeasible || t.infeasible } : Polyhedron).Canonical :=
    ⟨hs.wellFormed, hs.normalized, hs.nodup⟩
  exact addAll_induction Canonical.add hstart h

/-- An embedded system is canonical, whatever it was made from. -/
theorem canonical_embed {s t : Polyhedron} {n : Nat} {map : List Nat}
    (h : (s.embed n map : Outcome ε Polyhedron) = .ok t) : t.Canonical :=
  embed_induction Canonical.add ⟨wellFormed_empty n, normalized_empty n, List.nodup_nil⟩ h

/-- A simplification leaves no constraint twice. -/
theorem Reduced.nodup {t : Polyhedron} (h : t.Reduced) : t.constraints.Nodup := by
  obtain ⟨s, -, hsimp⟩ := h
  exact nodup_simplify hsimp

theorem Canonical.eliminateWith {s t : Polyhedron} {v pos : Nat} (hs : s.Canonical)
    (h : s.eliminateWith v pos = .ok t) : t.Canonical :=
  ⟨hs.wellFormed.eliminateWith h, (reduced_eliminateWith h).normalized,
    (reduced_eliminateWith h).nodup⟩

/-- A projection eliminates one variable after the other. -/
theorem Canonical.project {s t : Polyhedron} {vars : List Nat} (hs : s.Canonical)
    (h : s.project vars = .ok t) : t.Canonical := by
  have hreduced := hs.normalized.project h
  exact ⟨(projects_project hs.wellFormed h).wellFormed hs.wellFormed, hreduced.normalized,
    hreduced.nodup⟩

/-- The scan ends with a simplification, or leaves the system as it is. -/
theorem Canonical.detectEqualities {s t : Polyhedron} (hs : s.Canonical)
    (h : s.detectEqualities = .ok t) : t.Canonical := by
  refine ⟨(samePoints_detectEqualities hs.wellFormed h).wellFormed,
    hs.normalized.detectEqualities h, ?_⟩
  simp only [Polyhedron.detectEqualities, Outcome.bind_eq_ok] at h
  obtain ⟨s₁, -, s₂, -, h⟩ := h
  exact nodup_simplify h

/-- Fixing variables adds equalities to a system. -/
theorem Canonical.fixDetermined {s t : Polyhedron} {start stop : Nat} (hs : s.Canonical)
    (h : s.fixDetermined start stop = .ok t) : t.Canonical := by
  refine ⟨(samePoints_fixDetermined hs.wellFormed h).wellFormed, hs.normalized.fixDetermined h, ?_⟩
  simp only [Polyhedron.fixDetermined, Outcome.bind_eq_ok] at h
  obtain ⟨u, -, h⟩ := h
  exact nodup_simplify h

/-! ## runs of operations -/

/-- A change that can be made to a polyhedron. -/
inductive Operation where
  | addVars (n : Nat)
  | add (c : Constraint)
  | addTerms (kind : Constraint.Kind) (terms : List (Nat × Int)) (constant : Int)
  | addLowered (c : Constraint) (map : List Nat)
  | intersect (t : Polyhedron)
  | embed (nVars : Nat) (map : List Nat)
  | project (vars : List Nat)
  | detectEqualities
  | fixDetermined (start stop : Nat)
  | eliminateWith (v pos : Nat)
deriving DecidableEq, Repr

/-- The polyhedron after the change. -/
def apply (s : Polyhedron) : Operation → Outcome EngineError Polyhedron
  | .addVars n => s.addVars n
  | .add c => s.add c
  | .addTerms kind terms constant => s.addTerms kind terms constant
  | .addLowered c map => s.addLowered c map
  | .intersect t => s.intersect t
  | .embed nVars map => s.embed nVars map
  | .project vars => s.project vars
  | .detectEqualities => s.detectEqualities
  | .fixDetermined start stop => s.fixDetermined start stop
  | .eliminateWith v pos => s.eliminateWith v pos

/-- The polyhedron after changes that are made one after the other, if all of them succeed. -/
def run (s : Polyhedron) : List Operation → Outcome EngineError Polyhedron
  | [] => .ok s
  | op :: ops => do (← s.apply op).run ops

/-- Every operation keeps a system canonical. -/
theorem Canonical.apply {s t : Polyhedron} {op : Operation} (hs : s.Canonical)
    (h : s.apply op = .ok t) : t.Canonical := by
  cases op with
  | addVars n => exact hs.addVars h
  | add c => exact hs.add h
  | addTerms kind terms constant =>
      simp only [Polyhedron.apply, addTerms, Outcome.bind_eq_ok] at h
      obtain ⟨c, -, h⟩ := h
      exact hs.add h
  | addLowered c map =>
      simp only [Polyhedron.apply, addLowered, Outcome.bind_eq_ok] at h
      obtain ⟨d, -, h⟩ := h
      exact hs.add h
  | intersect t => exact hs.intersect h
  | embed nVars map => exact canonical_embed h
  | project vars => exact hs.project h
  | detectEqualities => exact hs.detectEqualities h
  | fixDetermined start stop => exact hs.fixDetermined h
  | eliminateWith v pos => exact hs.eliminateWith h

/-- So does every sequence of operations. -/
theorem Canonical.run {s t : Polyhedron} {ops : List Operation} (hs : s.Canonical)
    (h : s.run ops = .ok t) : t.Canonical := by
  induction ops generalizing s with
  | nil => exact Except.ok.inj h ▸ hs
  | cons op ops ih =>
      simp only [Polyhedron.run, Outcome.bind_eq_ok] at h
      obtain ⟨u, hu, h⟩ := h
      exact ih (hs.apply hu) h

/-- Runs can be put one after the other. -/
theorem run_append (s : Polyhedron) (ops ops' : List Operation) :
    s.run (ops ++ ops') = (s.run ops >>= fun t => t.run ops') := by
  induction ops generalizing s with
  | nil => rfl
  | cons op ops ih => simp only [List.cons_append, Polyhedron.run, ih, bind_assoc]

/-- The polyhedron can be made by operations, from one without constraints. -/
def Built (s : Polyhedron) : Prop := ∃ n ops, (empty n).run ops = .ok s

theorem built_empty (n : Nat) : (empty n).Built := ⟨n, [], rfl⟩

/-- An operation on a system made by operations is one more of them. -/
theorem Built.apply {s t : Polyhedron} (hs : s.Built) (op : Operation) (h : s.apply op = .ok t) :
    t.Built := by
  obtain ⟨n, ops, hrun⟩ := hs
  refine ⟨n, ops ++ [op], ?_⟩
  rw [run_append, Outcome.bind_eq_ok]
  exact ⟨s, hrun, Outcome.bind_eq_ok.mpr ⟨t, h, rfl⟩⟩

/-- A system made by operations is canonical. -/
theorem Built.canonical {s : Polyhedron} (h : s.Built) : s.Canonical := by
  obtain ⟨n, ops, hrun⟩ := h
  exact (canonical_empty n).run hrun

/-- Whatever operations a polyhedron is made by, each of its constraints has one
coefficient for each variable, not all of them zero and without a common divisor; in an
equality the first one that is not zero is positive; and no two constraints are equal. -/
theorem stored_constraints_are_canonical {n : Nat} {ops : List Operation} {s : Polyhedron}
    (h : (empty n).run ops = .ok s) :
    (∀ c ∈ s.constraints, c.coeffs.length = s.nVars ∧ (∃ a ∈ c.coeffs, a ≠ 0) ∧
      Coeffs.gcd c.coeffs = 1 ∧
      (c.kind = .equality → ∃ a, c.coeffs.find? (· != 0) = some a ∧ 0 < a)) ∧
    s.constraints.Nodup := by
  have hs := (canonical_empty n).run h
  refine ⟨fun c hc => ?_, hs.nodup⟩
  have hnormal := hs.normalized c hc
  have hne := hnormal.primitive.exists_mem_ne_zero
  refine ⟨hs.wellFormed c hc, hne, hnormal.primitive.gcd_eq, fun hkind => ?_⟩
  obtain ⟨a, ha⟩ : ∃ a, c.coeffs.find? (· != 0) = some a :=
    Option.isSome_iff_exists.mp (List.find?_isSome.mpr (by simpa using hne))
  exact ⟨a, ha, (hnormal.oriented hkind).lead_pos ha⟩

/-- Two opposite bounds with different factors, a renumbered equality entered twice with
different signs, and then one operation of each further kind. -/
def halvingRun : List Operation :=
  [.addTerms .inequality [(0, 2), (1, -4)] 5, .add (.ge ⟨[-1, 2], -2⟩), .addVars 1,
    .addLowered (.eq ⟨[-3, 3], 0⟩) [0, 2], .add (.eq ⟨[5, 0, -5], 0⟩),
    .intersect ⟨1, [.ge ⟨[1], 0⟩, .ge ⟨[-2], 9⟩], false⟩, .detectEqualities, .eliminateWith 0 0,
    .embed 4 [2, 1, 0], .project [2, 3], .fixDetermined 0 2]

/-- The points `x₀ = 2·x₁ - 2` with `0 ≤ x₀ ≤ 4`. -/
def halving : Polyhedron :=
  ⟨4, [.eq ⟨[1, -2, 0, 0], 2⟩, .ge ⟨[1, 0, 0, 0], 0⟩, .ge ⟨[-1, 0, 0, 0], 4⟩], false⟩

/-- The system `halving` and the operations that make it. -/
theorem halving_is_canonical :
    (empty 2).run halvingRun = .ok halving ∧
      (∀ c ∈ halving.constraints, c.coeffs.length = 4 ∧ (∃ a ∈ c.coeffs, a ≠ 0) ∧
        Coeffs.gcd c.coeffs = 1 ∧
        (c.kind = .equality → ∃ a, c.coeffs.find? (· != 0) = some a ∧ 0 < a)) ∧
      halving.constraints.Nodup := by
  have hrun : (empty 2).run halvingRun = .ok halving := by decide +kernel
  exact ⟨hrun, stored_constraints_are_canonical hrun⟩

end Polyhedron

end KernelMap
