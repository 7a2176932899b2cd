import KernelMap.Polyhedron.Project
import KernelMap.Proofs.Simplify

/-!
# KernelMap.Proofs.Project

Elimination of variables keeps every integer point and really eliminates.

`Projects s vars t` collects what is kept when the variables `vars` are removed
from `s`: the numbering, all points, and the absence of a variable.  One elimination
step, with an equality or with pairs of inequalities, is an instance with a single
variable (`projects_eliminateWith`, `projects_eliminate`); the whole projection
is a chain of such steps, which ends because every step leaves fewer variables
(`projects_projectRounds`).

Main statement: `project_keeps_points`.
-/

namespace KernelMap.Polyhedron

/-! ## derived constraints -/

namespace Derived

variable {ε : Type}

/-- Is the valuation a point of the derived constraints? -/
def Holds (d : Derived) (w : Valuation) : Prop := d.infeasible = false ∧ ∀ c ∈ d.rows, c.Holds w

@[simp] theorem holds_none (w : Valuation) : none.Holds w := by
  simp [Holds, none]

/-- Deriving a constraint keeps the points where it holds. -/
theorem holds_insert {d d' : Derived} {c : Constraint}
    (h : (d.insert c : Outcome ε Derived) = .ok d') (w : Valuation) :
    d'.Holds w ↔ d.Holds w ∧ c.Holds w := by
  simp only [insert, Outcome.bind_eq_ok] at h
  obtain ⟨r, hr, h⟩ := h
  cases r with
  | none =>
      simp only [Outcome.pure_eq_ok] at h
      subst h
      have hno := Constraint.not_holds_of_normalize hr w
      simp [Holds, hno]
  | some e =>
      simp only [Outcome.pure_eq_ok] at h
      have hset := Constraint.sameSet_of_normalize hr
      split at h
      · next hconst =>
        subst h
        have hw := (hset.holds w).mp (Constraint.holds_of_normalize_isConst hr hconst w)
        exact ⟨fun hd => ⟨hd, hw⟩, fun hd => hd.1⟩
      · subst h
        simp only [Holds, List.forall_mem_cons, hset.holds]
        tauto

/-- A property of the rows that only depends on which variables occur is kept. -/
theorem forall_rows_insert {Q : Constraint → Prop}
    (hQ : ∀ c e, Constraint.SameSupport c e → Q c → Q e) {d d' : Derived} {c : Constraint}
    (h : (d.insert c : Outcome ε Derived) = .ok d') (hc : Q c) (hd : ∀ r ∈ d.rows, Q r) :
    ∀ r ∈ d'.rows, Q r := by
  simp only [insert, Outcome.bind_eq_ok] at h
  obtain ⟨r, hr, h⟩ := h
  cases r with
  | none =>
      simp only [Outcome.pure_eq_ok] at h
      exact h ▸ hd
  | some e =>
      simp only [Outcome.pure_eq_ok] at h
      have hset := Constraint.sameSet_of_normalize hr
      split at h
      · exact h ▸ hd
      · subst h
        exact List.forall_mem_cons.mpr ⟨hQ c e hset.toSameSupport hc, hd⟩

/-- Deriving constraints keeps the points where all of them hold. -/
theorem holds_insertAll {d d' : Derived} {cs : List Constraint}
    (h : (d.insertAll cs : Outcome ε Derived) = .ok d') (w : Valuation) :
    d'.Holds w ↔ d.Holds w ∧ ∀ c ∈ cs, c.Holds w := by
  induction cs generalizing d with
  | nil =>
      simp only [insertAll, Except.ok.injEq] at h
      simp [h]
  | cons c cs ih =>
      simp only [insertAll, Outcome.bind_eq_ok] at h
      obtain ⟨d₁, h₁, h⟩ := h
      rw [ih h, holds_insert h₁, List.forall_mem_cons, and_assoc]

/-- What all derived constraints have in common passes to the rows, if it depends on their variables
only. -/
theorem forall_rows_insertAll {Q : Constraint → Prop}
    (hQ : ∀ c e, Constraint.SameSupport c e → Q c → Q e) {d d' : Derived} {cs : List Constraint}
    (h : (d.insertAll cs : Outcome ε Derived) = .ok d') (hcs : ∀ c ∈ cs, Q c)
    (hd : ∀ r ∈ d.rows, Q r) : ∀ r ∈ d'.rows, Q r := by
  induction cs generalizing d with
  | nil =>
      simp only [insertAll, Except.ok.injEq] at h
      exact h ▸ hd
  | cons c cs ih =>
      simp only [insertAll, Outcome.bind_eq_ok] at h
      obtain ⟨d₁, h₁, h⟩ := h
      exact ih h (fun e he => hcs e (by simp [he])) (forall_rows_insert hQ h₁ (hcs c (by simp)) hd)

/-- Constraints can be derived one list after the other. -/
theorem insertAll_append {d d₁ d₂ : Derived} {cs₁ cs₂ : List Constraint}
    (h₁ : (d.insertAll cs₁ : Outcome ε Derived) = .ok d₁)
    (h₂ : (d₁.insertAll cs₂ : Outcome ε Derived) = .ok d₂) :
    (d.insertAll (cs₁ ++ cs₂) : Outcome ε Derived) = .ok d₂ := by
  induction cs₁ generalizing d with
  | nil =>
      simp only [insertAll, Except.ok.injEq] at h₁
      simpa [h₁] using h₂
  | cons c cs ih =>
      simp only [List.cons_append, insertAll, Outcome.bind_eq_ok] at h₁ ⊢
      obtain ⟨d', hd', h₁⟩ := h₁
      exact ⟨d', hd', ih h₁⟩

end Derived

/-! ## removing variables -/

/-- `t` is what is left of `s` without the variables `vars`. -/
structure Projects (s : Polyhedron) (vars : List Nat) (t : Polyhedron) : Prop where
  nVars : t.nVars = s.nVars
  /-- An infeasible result has no constraints. -/
  infeasible : t.infeasible = true → t.constraints = []
  /-- No point is lost. -/
  sound : ∀ w, s.Holds w → t.Holds w
  /-- The variables are gone. -/
  clears : ∀ v ∈ vars, t.involves v = false
  /-- No other variable comes back. -/
  keeps : ∀ v, s.involves v = false → t.involves v = false
  wellFormed : s.WellFormed → t.WellFormed

/-- One projection after the other is a projection of both lists of variables. -/
theorem Projects.trans {s t u : Polyhedron} {vs vs' : List Nat} (h : Projects s vs t)
    (h' : Projects t vs' u) : Projects s (vs ++ vs') u where
  nVars := h'.nVars.trans h.nVars
  infeasible := h'.infeasible
  sound w hw := h'.sound w (h.sound w hw)
  clears v hv := by
    rcases List.mem_append.mp hv with hv | hv
    · exact h'.keeps v (h.clears v hv)
    · exact h'.clears v hv
  keeps v hv := h'.keeps v (h.keeps v hv)
  wellFormed hs := h'.wellFormed (h.wellFormed hs)

/-- Only the variables that occur need to be removed. -/
theorem Projects.of_involved {s t : Polyhedron} {vs vars : List Nat} (h : Projects s vs t)
    (hvars : ∀ v ∈ vars, s.involves v = true → v ∈ vs) : Projects s vars t where
  nVars := h.nVars
  infeasible := h.infeasible
  sound := h.sound
  clears v hv := by
    cases hs : s.involves v with
    | true => exact h.clears v (hvars v hv hs)
    | false => exact h.keeps v hs
  keeps := h.keeps
  wellFormed := h.wellFormed

theorem Projects.refl {s : Polyhedron} (hs : s.infeasible = true → s.constraints = []) :
    Projects s [] s where
  nVars := rfl
  infeasible := hs
  sound _ hw := hw
  clears v hv := by simp at hv
  keeps _ hv := hv
  wellFormed h := h

/-- Simplification projects nothing out. -/
theorem projects_simplify {s t : Polyhedron} (h : s.simplify = .ok t) : Projects s [] t where
  nVars := (simplified_of_simplify h).nVars
  infeasible := (simplified_of_simplify h).infeasible
  sound w := ((simplified_of_simplify h).holds w).mpr
  clears v hv := by simp at hv
  keeps _ := (simplified_of_simplify h).involves_eq_false
  wellFormed hs := hs.simplify h

/-- Replacing the constraints by ones that hold wherever the old ones do, and in
which neither `v` nor a variable that was absent before occurs. -/
theorem projects_replaceBy {s t : Polyhedron} {v : Nat} {cs : List Constraint} {d : Derived}
    (hd : (Derived.none.insertAll cs : Outcome EngineError Derived) = .ok d)
    (h : s.replaceBy d = .ok t)
    (hsound : ∀ w, (∀ c ∈ s.constraints, c.Holds w) → ∀ c ∈ cs, c.Holds w)
    (hclears : ∀ c ∈ cs, c.coeff v = 0)
    (hkeeps : ∀ u, (∀ c ∈ s.constraints, c.coeff u = 0) → ∀ c ∈ cs, c.coeff u = 0)
    (hlength : s.WellFormed → ∀ c ∈ cs, c.coeffs.length = s.nVars) :
    Projects s [v] t := by
  unfold replaceBy at h
  have hsimp := simplified_of_simplify h
  -- what only depends on the variables of the rows goes from `cs` to the result
  have hrows {Q : Constraint → Prop} (hQ : ∀ c e, Constraint.SameSupport c e → Q c → Q e)
      (hcs : ∀ c ∈ cs, Q c) :
      ∀ r ∈ d.rows.reverse, Q r := fun r hr =>
    Derived.forall_rows_insertAll hQ hd hcs (by simp [Derived.none]) r (List.mem_reverse.mp hr)
  have hgone (u : Nat) (hcs : ∀ c ∈ cs, c.coeff u = 0) : t.involves u = false :=
    hsimp.involves_eq_false (involves_eq_false.mpr
      (hrows (fun c e hsupp hc => (hsupp.coeff_eq_zero u).mpr hc) hcs))
  refine ⟨hsimp.nVars, hsimp.infeasible, fun w hw => ?_, fun u hu => ?_,
    fun u hu => ?_, fun hs => ?_⟩
  · obtain ⟨hf, hholds⟩ := (Derived.holds_insertAll hd w).mpr ⟨Derived.holds_none w, hsound w hw.2⟩
    rw [hsimp.holds]
    exact ⟨by simp [hw.1, hf], fun c hc => hholds c (List.mem_reverse.mp hc)⟩
  · obtain rfl := List.mem_singleton.mp hu
    exact hgone u hclears
  · exact hgone u (hkeeps u (involves_eq_false.mp hu))
  · have hwf : ({ s with constraints := d.rows.reverse,
                         infeasible := s.infeasible || d.infeasible } :
        Polyhedron).WellFormed := hrows (fun c e hsupp hc => hsupp.length.trans hc) (hlength hs)
    exact hwf.simplify h

/-! ## elimination with an equality -/

/-- Cancelling a variable with an equality `e` keeps the constraint's points
among those of `e`, and removes the variable. -/
theorem cancel_eq_ok {e c c' : Constraint} {v : Nat} (he : e.kind = .equality) (hv : e.coeff v ≠ 0)
    (h : cancel e v c = .ok c') :
    (∀ w, e.Holds w → (c'.Holds w ↔ c.Holds w)) ∧ c'.coeff v = 0 ∧
      (∀ u, e.coeff u = 0 → c.coeff u = 0 → c'.coeff u = 0) ∧
      (∀ n, e.coeffs.length = n → c.coeffs.length = n → c'.coeffs.length = n) := by
  unfold cancel at h
  dsimp only at h
  split at h
  · next hb =>
    simp only [Except.ok.injEq] at h
    subst h
    exact ⟨fun _ _ => Iff.rfl, hb, fun _ _ hc => hc, fun _ _ hn => hn⟩
  · simp only [Outcome.bind_eq_ok, Outcome.orFault_eq_ok, Word.abs?_eq_some, Word.mul?_eq_some] at h
    obtain ⟨k₁, ⟨-, rfl⟩, k₂, ⟨-, rfl⟩, h⟩ := h
    obtain ⟨hkind, hcoeff, hval, hlen⟩ := Constraint.combine_eq_ok h
    have habs : ((e.coeff v).natAbs : Int) = (e.coeff v).sign * e.coeff v := by
      rw [mul_comm, Int.mul_sign_self]
    have hpos : 0 < ((e.coeff v).natAbs : Int) := by omega
    refine ⟨fun w hw => ?_, ?_, fun u heu hcu => ?_, fun n hen hcn => ?_⟩
    · -- on the points of `e` the combination is a positive multiple of `c`
      have hew := (Constraint.holds_of_kind_eq he).mp hw
      rw [Constraint.Holds, hkind, hval, hew, mul_zero, add_zero, Constraint.Holds,
        Constraint.Kind.accepts_mul hpos]
    · rw [hcoeff, habs]
      ring
    · rw [hcoeff, heu, hcu, mul_zero, mul_zero, add_zero]
    · rw [hlen, hen, hcn, max_self]

/-- Each constraint is derived with the variable cancelled, and no other one is. -/
theorem cancelAll_eq_ok {e : Constraint} {v : Nat} {cs : List Constraint} {d d' : Derived}
    (h : cancelAll e v cs d = .ok d') :
    ∃ cs', (d.insertAll cs' : Outcome EngineError Derived) = .ok d' ∧
      (∀ c' ∈ cs', ∃ c ∈ cs, cancel e v c = .ok c') ∧ ∀ c ∈ cs, ∃ c' ∈ cs',
        cancel e v c = .ok c' := by
  induction cs generalizing d with
  | nil => exact ⟨[], h, by simp, by simp⟩
  | cons c cs ih =>
      simp only [cancelAll, Outcome.bind_eq_ok] at h
      obtain ⟨c', hc', d₁, h₁, h⟩ := h
      obtain ⟨cs', hd, hfrom, hall⟩ := ih h
      refine ⟨c' :: cs', ?_, ?_, ?_⟩
      · simp only [Derived.insertAll, Outcome.bind_eq_ok]
        exact ⟨d₁, h₁, hd⟩
      · exact List.forall_mem_cons.mpr
          ⟨⟨c, by simp, hc'⟩, fun r hr => (hfrom r hr).imp fun b hb => by simp [hb]⟩
      · exact List.forall_mem_cons.mpr
          ⟨⟨c', by simp, hc'⟩, fun b hb => (hall b hb).imp fun r hr => by simp [hr]⟩

/-- Eliminating a variable with an equality that involves it. -/
theorem projects_eliminateWith {s t : Polyhedron} {v pos : Nat} {e : Constraint}
    (hpos : s.constraints[pos]? = some e) (he : e.kind = .equality) (hv : e.coeff v ≠ 0)
    (h : s.eliminateWith v pos = .ok t) : Projects s [v] t := by
  simp only [eliminateWith, hpos, Outcome.bind_eq_ok, Outcome.orFault_eq_ok, Option.some.injEq] at h
  obtain ⟨_, rfl, d, hd, h⟩ := h
  obtain ⟨cs, hd, hfrom, -⟩ := cancelAll_eq_ok hd
  have hmem : e ∈ s.constraints := List.mem_of_getElem? hpos
  refine projects_replaceBy hd h (fun w hw r hr => ?_) (fun r hr => ?_) (fun u hu r hr => ?_)
    (fun hs r hr => ?_) <;> obtain ⟨c, hc, hcancel⟩ := hfrom r hr <;>
      replace hc := List.mem_of_mem_eraseIdx hc <;>
    obtain ⟨hholds, hgone, hkeeps, hlen⟩ := cancel_eq_ok he hv hcancel
  · exact (hholds w (hw e hmem)).mpr (hw c hc)
  · exact hgone
  · exact hkeeps u (hu e hmem) (hu c hc)
  · exact hlen _ (hs e hmem) (hs c hc)

/-- The search finds an equality that involves the variable, if there is one. -/
theorem smallestEquality_eq_ok {ε : Type} {v i : Nat} {cs : List Constraint}
    {best r : Option (Nat × Int)}
    (h : (smallestEquality v i cs best : Outcome ε (Option (Nat × Int))) = .ok r) :
    (∀ p, r = some p → best = some p ∨
      ∃ j c, p.1 = i + j ∧ cs[j]? = some c ∧ c.kind = .equality ∧ c.coeff v ≠ 0) ∧
    (r = none → best = none ∧ ∀ c ∈ cs, c.kind = .equality → c.coeff v = 0) := by
  induction cs generalizing i best with
  | nil =>
      simp only [smallestEquality, Except.ok.injEq] at h
      subst h
      exact ⟨fun p hp => Or.inl hp, fun hr => ⟨hr, by simp⟩⟩
  | cons c cs ih =>
      rw [smallestEquality] at h
      split at h
      · next hc =>
        simp only [Bool.and_eq_true, beq_iff_eq, bne_iff_ne, ne_eq] at hc
        simp only [Outcome.bind_eq_ok] at h
        obtain ⟨size, -, h⟩ := h
        obtain ⟨hsome, hnone⟩ := ih h
        refine ⟨fun p hp => ?_, fun hr => ?_⟩
        · rcases hsome p hp with hbest | ⟨j, c', hj, hc', hrest⟩
          · rcases ite_eq_iff.mp hbest with ⟨-, hfound⟩ | ⟨-, hold⟩
            · exact Or.inr ⟨0, c, by simp [← Option.some.inj hfound], rfl, hc⟩
            · exact Or.inl hold
          · exact Or.inr ⟨j + 1, c', by omega, by simpa using hc', hrest⟩
        · -- with `c` in the list something is always found
          exfalso
          rcases ite_eq_iff.mp (hnone hr).1 with ⟨-, hfound⟩ | ⟨hworse, rfl⟩
          · cases hfound
          · exact hworse rfl
      · next hc =>
        obtain ⟨hsome, hnone⟩ := ih h
        refine ⟨fun p hp => ?_, fun hr => ?_⟩
        · rcases hsome p hp with hbest | ⟨j, c', hj, hc', hrest⟩
          · exact Or.inl hbest
          · exact Or.inr ⟨j + 1, c', by omega, by simpa using hc', hrest⟩
        · refine ⟨(hnone hr).1, List.forall_mem_cons.mpr ⟨fun hkind => ?_, (hnone hr).2⟩⟩
          simpa [hkind] using hc

/-! ## elimination with inequalities -/

/-- A lower and an upper bound of a variable imply their combination, in which
the variable is gone. -/
theorem pair_eq_ok {l u c : Constraint} {v : Nat} (hl : l.kind = .inequality)
    (hu : u.kind = .inequality) (hlv : 0 < l.coeff v) (huv : u.coeff v < 0)
    (h : l.combine (-u.coeff v) u (l.coeff v) = .ok c) :
    (∀ w, l.Holds w → u.Holds w → c.Holds w) ∧ c.coeff v = 0 ∧
      (∀ i, l.coeff i = 0 → u.coeff i = 0 → c.coeff i = 0) ∧
      (∀ n, l.coeffs.length = n → u.coeffs.length = n → c.coeffs.length = n) := by
  obtain ⟨hkind, hcoeff, hval, hlen⟩ := Constraint.combine_eq_ok h
  refine ⟨fun w hlw huw => ?_, ?_, fun i hli hui => ?_, fun n hln hun => ?_⟩
  · have hlw := (Constraint.holds_of_kind_ge hl).mp hlw
    have huw := (Constraint.holds_of_kind_ge hu).mp huw
    rw [Constraint.holds_of_kind_ge (hkind.trans hl), hval]
    exact add_nonneg (mul_nonneg (by omega) hlw) (mul_nonneg hlv.le huw)
  · rw [hcoeff]
    ring
  · rw [hcoeff, hli, hui, mul_zero, mul_zero, add_zero]
  · rw [hlen, hln, hun, max_self]

/-- A lower bound is combined with each upper bound. -/
theorem pairUpper_eq_ok {v : Nat} {l : Constraint} {us : List Constraint} {d d' : Derived}
    (h : pairUpper v l us d = .ok d') :
    ∃ cs, (d.insertAll cs : Outcome EngineError Derived) = .ok d' ∧
      (∀ c ∈ cs, ∃ u ∈ us, l.combine (-u.coeff v) u (l.coeff v) = .ok c) ∧
      ∀ u ∈ us, ∃ c ∈ cs, l.combine (-u.coeff v) u (l.coeff v) = .ok c := by
  induction us generalizing d with
  | nil => exact ⟨[], h, by simp, by simp⟩
  | cons u us ih =>
      simp only [pairUpper, Outcome.bind_eq_ok, Outcome.orFault_eq_ok, Word.neg?_eq_some] at h
      obtain ⟨_, ⟨-, rfl⟩, c, hc, d₁, h₁, h⟩ := h
      obtain ⟨cs, hd, hfrom, hall⟩ := ih h
      refine ⟨c :: cs, ?_, ?_, ?_⟩
      · simp only [Derived.insertAll, Outcome.bind_eq_ok]
        exact ⟨d₁, h₁, hd⟩
      · exact List.forall_mem_cons.mpr
          ⟨⟨u, by simp, hc⟩, fun r hr => (hfrom r hr).imp fun b hb => by simp [hb]⟩
      · exact List.forall_mem_cons.mpr
          ⟨⟨c, by simp, hc⟩, fun b hb => (hall b hb).imp fun r hr => by simp [hr]⟩

/-- Each lower bound is combined with each upper bound. -/
theorem pairAll_eq_ok {v : Nat} {us ls : List Constraint} {d d' : Derived}
    (h : pairAll v us ls d = .ok d') :
    ∃ cs, (d.insertAll cs : Outcome EngineError Derived) = .ok d' ∧
      (∀ c ∈ cs, ∃ l ∈ ls, ∃ u ∈ us, l.combine (-u.coeff v) u (l.coeff v) = .ok c) ∧
      ∀ l ∈ ls, ∀ u ∈ us, ∃ c ∈ cs, l.combine (-u.coeff v) u (l.coeff v) = .ok c := by
  induction ls generalizing d with
  | nil => exact ⟨[], h, by simp, by simp⟩
  | cons l ls ih =>
      simp only [pairAll, Outcome.bind_eq_ok] at h
      obtain ⟨d₁, h₁, h⟩ := h
      split at h
      · simp at h
      · obtain ⟨cs₁, hd₁, hfrom₁, hall₁⟩ := pairUpper_eq_ok h₁
        obtain ⟨cs₂, hd₂, hfrom₂, hall₂⟩ := ih h
        refine ⟨cs₁ ++ cs₂, Derived.insertAll_append hd₁ hd₂, fun c hc => ?_,
          List.forall_mem_cons.mpr ⟨fun u hu => ?_, fun b hb u hu => ?_⟩⟩
        · rcases List.mem_append.mp hc with hc | hc
          · exact ⟨l, by simp, hfrom₁ c hc⟩
          · obtain ⟨b, hb, hpair⟩ := hfrom₂ c hc
            exact ⟨b, by simp [hb], hpair⟩
        · obtain ⟨c, hc, hpair⟩ := hall₁ u hu
          exact ⟨c, by simp [hc], hpair⟩
        · obtain ⟨c, hc, hpair⟩ := hall₂ b hb u hu
          exact ⟨c, by simp [hc], hpair⟩

/-- Eliminating a variable projects it out. -/
theorem projects_eliminate {s t : Polyhedron} {v : Nat} (h : s.eliminate v = .ok t) :
    Projects s [v] t := by
  simp only [eliminate, Outcome.bind_eq_ok] at h
  obtain ⟨best, hbest, h⟩ := h
  cases best with
  | some p =>
      obtain ⟨pos, size⟩ := p
      obtain ⟨j, e, hj, he, hkind, hv⟩ :=
        ((smallestEquality_eq_ok hbest).1 (pos, size) rfl).resolve_left (by simp)
      simp only [zero_add] at hj
      exact projects_eliminateWith (hj ▸ he) hkind hv h
  | none =>
      have hfree := ((smallestEquality_eq_ok hbest).2 rfl).2
      have hkind : ∀ c ∈ s.constraints, c.coeff v ≠ 0 → c.kind = .inequality := by
        intro c hc hv
        cases hk : c.kind with
        | equality => exact absurd (hfree c hc hk) hv
        | inequality => rfl
      simp only [Outcome.bind_eq_ok] at h
      obtain ⟨d₁, hd₁, d, hd, h⟩ := h
      obtain ⟨pairs, hd, hfrom, -⟩ := pairAll_eq_ok hd
      -- a new row is an old one without `v`, or a lower bound with an upper bound
      have horigin : ∀ {c}, c ∈ s.constraints.filter (fun c => c.coeff v == 0) ++ pairs →
          (c ∈ s.constraints ∧ c.coeff v = 0) ∨ ∃ l ∈ s.constraints, ∃ u ∈ s.constraints,
            (0 < l.coeff v ∧ u.coeff v < 0) ∧ l.combine (-u.coeff v) u (l.coeff v) = .ok c := by
        intro c hc
        rcases List.mem_append.mp hc with hc | hc
        · exact Or.inl (by simpa using hc)
        · obtain ⟨l, hl, u, hu, hpair⟩ := hfrom c hc
          simp only [List.mem_filter, decide_eq_true_eq] at hl hu
          exact Or.inr ⟨l, hl.1, u, hu.1, ⟨hl.2, hu.2⟩, hpair⟩
      have hpairs : ∀ {l u c}, l ∈ s.constraints → u ∈ s.constraints → 0 < l.coeff v ∧
          u.coeff v < 0 →
          l.combine (-u.coeff v) u (l.coeff v) = .ok c → _ := fun {l u c} hl hu hsigns hpair =>
        pair_eq_ok (hkind l hl (by omega)) (hkind u hu (by omega)) hsigns.1 hsigns.2 hpair
      refine projects_replaceBy (Derived.insertAll_append hd₁ hd) h (fun w hw c hc => ?_)
        (fun c hc => ?_) (fun i hi c hc => ?_) (fun hs c hc => ?_) <;>
        rcases horigin hc with ⟨hmem, hv⟩ | ⟨l, hl, u, hu, hsigns, hpair⟩
      · exact hw c hmem
      · exact (hpairs hl hu hsigns hpair).1 w (hw l hl) (hw u hu)
      · exact hv
      · exact (hpairs hl hu hsigns hpair).2.1
      · exact hi c hmem
      · exact (hpairs hl hu hsigns hpair).2.2.1 i (hi l hl) (hi u hu)
      · exact hs c hmem
      · exact (hpairs hl hu hsigns hpair).2.2.2 _ (hs l hl) (hs u hu)

/-! ## choosing a variable -/

namespace Tally

/-- A unit coefficient is an occurrence. -/
def Consistent (t : Tally) : Prop := t.unit = true → t.occurs = true

/-- Counting keeps a tally consistent, and its variable then occurs. -/
theorem count_spec {t : Tally} (ht : t.Consistent) (kind : Constraint.Kind) (a : Int) :
    (t.count kind a).Consistent ∧ (t.count kind a).occurs = true := by
  cases hu : t.unit with
  | true => simp [count, hu, ht, ht hu]
  | false =>
      have hoccurs : (t.count kind a).occurs = true := by
        cases kind with
        | equality => cases hk : Word.abs? a <;> simp [count, hu, hk, occurs]
        | inequality => by_cases ha : 0 < a <;> simp [count, hu, occurs, ha]
      exact ⟨fun _ => hoccurs, hoccurs⟩

/-- A row is counted for the variables that it involves. -/
theorem getD_countRow {kind : Constraint.Kind} {as : List Int} {ts : List Tally}
    (h : as.length = ts.length) (v : Nat) : (countRow kind as ts).getD v none =
      if Coeffs.get as v = 0 then ts.getD v none
      else (ts.getD v none).count kind (Coeffs.get as v) := by
  induction as generalizing ts v with
  | nil =>
      obtain rfl := List.length_eq_zero_iff.mp h.symm
      simp [countRow]
  | cons a as ih =>
      cases ts with
      | nil => simp at h
      | cons t ts =>
          cases v with
          | zero => simp [countRow]
          | succ v => simpa [countRow] using ih (by simpa using h) v

theorem length_countRow {kind : Constraint.Kind} {as : List Int} {ts : List Tally}
    (h : as.length = ts.length) : (countRow kind as ts).length = ts.length := by
  induction as generalizing ts with
  | nil =>
      obtain rfl := List.length_eq_zero_iff.mp h.symm
      rfl
  | cons a as ih =>
      cases ts with
      | nil => simp at h
      | cons t ts => simpa [countRow] using ih (by simpa using h)

/-- Counting more constraints finds exactly the further variables that occur in
them. -/
theorem occurs_foldl {cs : List Constraint} {ts : List Tally}
    (hcs : ∀ c ∈ cs, c.coeffs.length = ts.length)
    (hts : ∀ v, (ts.getD v none).Consistent) (v : Nat) :
    ((cs.foldl (fun ts c => countRow c.kind c.coeffs ts) ts).getD v none).occurs =
      ((ts.getD v none).occurs || cs.any (·.coeff v != 0)) := by
  induction cs generalizing ts with
  | nil => simp
  | cons c cs ih =>
      obtain ⟨hc, hcs⟩ := List.forall_mem_cons.mp hcs
      have hrow := @getD_countRow c.kind _ _ hc
      have hcons : ∀ u, ((countRow c.kind c.coeffs ts).getD u none).Consistent := by
        intro u
        rw [hrow u]
        split
        · exact hts u
        · exact (count_spec (hts u) _ _).1
      rw [List.foldl_cons, ih (by simpa [length_countRow hc] using hcs) hcons, hrow v,
        List.any_cons, ← Bool.or_assoc, Constraint.coeff_eq_get]
      congr 1
      by_cases hv : Coeffs.get c.coeffs v = 0
      · simp [hv]
      · rw [if_neg hv, (count_spec (hts v) _ _).2, bne_iff_ne.mpr hv, Bool.or_true]

end Tally

/-- The tallies say which variables a system involves. -/
theorem WellFormed.occurs_tallies {s : Polyhedron} (hs : s.WellFormed) (v : Nat) :
    (s.tallies.getD v Tally.none).occurs = s.involves v := by
  have hnone : ∀ u, (List.replicate s.nVars Tally.none).getD u Tally.none = Tally.none := by
    intro u
    rw [List.getD_eq_getElem?_getD, List.getElem?_replicate]
    split <;> rfl
  have hlen : ∀ c ∈ s.constraints,
      c.coeffs.length = (List.replicate s.nVars Tally.none).length := by
    rw [List.length_replicate]
    exact hs
  have hcons : ∀ u, ((List.replicate s.nVars Tally.none).getD u Tally.none).Consistent := by
    intro u hunit
    rw [hnone] at hunit
    cases hunit
  rw [tallies, Tally.occurs_foldl hlen hcons, hnone]
  rfl

theorem cheapest_eq_none {xs : List (Nat × Nat × Nat)} {best : Option (Nat × Nat × Nat)}
    (h : cheapest xs best = none) : xs = [] ∧ best = none := by
  fun_induction cheapest xs best with
  | case1 best => exact ⟨rfl, Option.map_eq_none_iff.mp h⟩
  | case2 v c rest ih => simpa using ih h
  | case3 v c rest w d ih => simpa using ih h

/-- The cheapest variable is one of those looked at. -/
theorem cheapest_eq_some {xs : List (Nat × Nat × Nat)} {best : Option (Nat × Nat × Nat)} {v : Nat}
    (h : cheapest xs best = some v) : v ∈ xs.map (·.1) ∨ best.map (·.1) = some v := by
  fun_induction cheapest xs best with
  | case1 best => exact Or.inr h
  | case2 u c rest ih => grind
  | case3 u c rest w d ih => grind

/-! ## projection -/

/-- The next variable is one of the list that occurs, and only variables that occur are
left. -/
theorem nextVar?_eq_some {s : Polyhedron} {vars left : List Nat} {v : Nat}
    (h : s.nextVar? vars = .ok (some (v, left))) :
    v ∈ left ∧ left = vars.filter fun v => (s.tallies.getD v Tally.none).occurs := by
  unfold nextVar? at h
  split at h
  · simp at h
  dsimp only at h
  split at h
  · simp at h
  split at h
  · simp at h
  next hsome =>
  simp only [Except.ok.injEq, Option.some.injEq, Prod.mk.injEq] at h
  obtain ⟨rfl, rfl⟩ := h
  exact ⟨by simpa using cheapest_eq_some hsome, rfl⟩

/-- The next variable to eliminate is one of the list, and the rest is part of it. -/
theorem mem_of_nextVar? {s : Polyhedron} {vars left : List Nat} {v : Nat}
    (h : s.nextVar? vars = .ok (some (v, left))) : v ∈ vars ∧ left ⊆ vars := by
  obtain ⟨hv, rfl⟩ := nextVar?_eq_some h
  exact ⟨(List.mem_filter.mp hv).1, fun u hu => (List.mem_filter.mp hu).1⟩

/-- There is nothing to eliminate if there is a contradiction or no variable of the list
occurs. -/
theorem nextVar?_eq_none {s : Polyhedron} {vars : List Nat} (h : s.nextVar? vars = .ok none) :
    s.infeasible = true ∨ ∀ v ∈ vars, (s.tallies.getD v Tally.none).occurs = false := by
  unfold nextVar? at h
  split at h
  · next hinf => exact Or.inl hinf
  dsimp only at h
  split at h
  · simp at h
  split at h
  · next hnone =>
    have hleft := List.map_eq_nil_iff.mp (cheapest_eq_none hnone).1
    exact Or.inr (by simpa [List.filter_eq_nil_iff] using hleft)
  · simp at h

/-- What eliminations that were chosen keep, a projection keeps: `P n vars s` is what is
known with `n` rounds left, `Q` what follows when the rounds are over. -/
theorem projectRounds_induction {P : Nat → List Nat → Polyhedron → Prop} {Q : Polyhedron → Prop}
    (hlast : ∀ vars s, P 0 vars s → Q s)
    (hnone : ∀ n vars s, s.nextVar? vars = .ok none → P (n + 1) vars s → Q s)
    (hstep : ∀ n vars s v left t, s.nextVar? vars = .ok (some (v, left)) → s.eliminate v = .ok t →
      P (n + 1) vars s → P n left t)
    {n : Nat} {vars : List Nat} {s t : Polyhedron} (hs : P n vars s)
    (h : projectRounds n vars s = .ok t) : Q t := by
  induction n generalizing vars s with
  | zero => exact Except.ok.inj h ▸ hlast vars s hs
  | succ n ih =>
      simp only [projectRounds, Outcome.bind_eq_ok] at h
      obtain ⟨next, hnext, h⟩ := h
      cases next with
      | none => exact Outcome.pure_eq_ok.mp h ▸ hnone n vars s hnext hs
      | some p =>
          obtain ⟨v, left⟩ := p
          simp only [Outcome.bind_eq_ok] at h
          obtain ⟨u, hu, h⟩ := h
          exact ih (hstep n vars s v left u hnext hu hs) h

/-- What every elimination of a variable of the list keeps, a projection keeps. -/
theorem keeps_of_projectRounds {P : Polyhedron → Prop} {vars : List Nat}
    (hstep : ∀ v ∈ vars, ∀ s t, P s → s.eliminate v = .ok t → P t) {n : Nat} {s t : Polyhedron}
    (hs : P s) (h : projectRounds n vars s = .ok t) : P t := by
  refine projectRounds_induction (P := fun _ left s => left ⊆ vars ∧ P s) (Q := P)
    (fun _ _ hs => hs.2) (fun _ _ _ _ hs => hs.2) (fun n left s v left' t hnext ht hs => ?_)
    ⟨List.Subset.refl vars, hs⟩ h
  obtain ⟨hv, hsub⟩ := mem_of_nextVar? hnext
  exact ⟨fun u hu => hs.1 (hsub hu), hstep v (hs.1 hv) s t hs.2 ht⟩

/-- Every round removes a variable for good, so as many rounds as variables that
still occur are enough. -/
theorem projects_projectRounds {n : Nat} {vars : List Nat} {s t : Polyhedron} (hs : s.WellFormed)
    (hempty : s.infeasible = true → s.constraints = [])
    (hn : (vars.filter s.involves).length ≤ n) (h : projectRounds n vars s = .ok t) :
    Projects s vars t := by
  -- what is projected from here on is projected from the start
  refine projectRounds_induction (Q := Projects s vars) (P := fun n left u =>
    u.WellFormed ∧ (u.infeasible = true → u.constraints = []) ∧
      (left.filter u.involves).length ≤ n ∧ ∀ t, Projects u left t → Projects s vars t)
    (fun left u hu => ?_) (fun n left u hnext hu => ?_) (fun n left u v left' u' hnext hu' hu => ?_)
    ⟨hs, hempty, hn, fun _ h => h⟩ h
  · obtain ⟨-, hempty, hn, hrest⟩ := hu
    refine hrest u ((Projects.refl hempty).of_involved fun v hv hinv => ?_)
    have hnone := List.length_eq_zero_iff.mp (Nat.le_zero.mp hn)
    exact absurd (List.mem_filter.mpr ⟨hv, hinv⟩) (by simp [hnone])
  · obtain ⟨hwf, hempty, -, hrest⟩ := hu
    refine hrest u ((Projects.refl hempty).of_involved fun v hv hinv => ?_)
    rcases nextVar?_eq_none hnext with hinf | hno
    · simp [involves, hempty hinf] at hinv
    · rw [← hwf.occurs_tallies, hno v hv] at hinv
      cases hinv
  · obtain ⟨hwf, hempty, hn, hrest⟩ := hu
    obtain ⟨hpick, hleft⟩ := nextVar?_eq_some hnext
    simp only [hwf.occurs_tallies] at hleft
    have helim := projects_eliminate hu'
    have hfewer : (left'.filter u'.involves).length ≤ n := by
      have hgone : ¬ u'.involves v = true := by simp [helim.clears v]
      have hlt := List.length_filter_lt_length_iff_exists.mpr ⟨v, hpick, hgone⟩
      rw [← hleft] at hn
      omega
    refine ⟨helim.wellFormed hwf, helim.infeasible, hfewer, fun t ht => hrest t ?_⟩
    exact (helim.trans ht).of_involved fun w hw hinv => by simp [hleft, hw, hinv]

/-- A projection that succeeds projects the variables out. -/
theorem projects_project {s t : Polyhedron} {vars : List Nat} (hs : s.WellFormed)
    (h : s.project vars = .ok t) : Projects s vars t := by
  simp only [project, Outcome.bind_eq_ok] at h
  obtain ⟨s', hsimp, h⟩ := h
  have hfirst := projects_simplify hsimp
  exact hfirst.trans
    (projects_projectRounds (hfirst.wellFormed hs) hfirst.infeasible (List.length_filter_le _ _) h)

/-- A projection keeps the numbering and every integer point, and its constraints
say nothing about the variables projected out. -/
theorem project_keeps_points {s t : Polyhedron} {vars : List Nat} (hs : s.WellFormed)
    (h : s.project vars = .ok t) :
    t.nVars = s.nVars ∧ (∀ v ∈ vars, ∀ c ∈ t.constraints, c.coeff v = 0) ∧
      (∀ w, s.Holds w → t.Holds w) ∧ (t.infeasible = true → ∀ w, ¬ s.Holds w) ∧
      ∀ w w' : Valuation, s.Holds w → (∀ v, v ∉ vars → w' v = w v) → t.Holds w' := by
  have hproj := projects_project hs h
  refine ⟨hproj.nVars, fun v hv => involves_eq_false.mp (hproj.clears v hv), hproj.sound,
    fun hinf w hw => ?_, fun w w' hw hsame => ?_⟩
  · exact not_holds_of_infeasible hinf w (hproj.sound w hw)
  · refine (holds_congr fun v hinv => ?_).mp (hproj.sound w hw)
    have hv : v ∉ vars := fun hmem => by simp [hproj.clears v hmem] at hinv
    exact (hsame v hv).symm

/-- The multiples `x₀ = 3·x₁` with `1 ≤ x₁ ≤ x₂`. -/
def multiples : Polyhedron :=
  ⟨3, [.eq ⟨[1, -3, 0], 0⟩, .ge ⟨[0, 1, 0], -1⟩, .ge ⟨[0, -1, 1], 0⟩], false⟩

/-- Without the factor, a multiple is still at least `3`. -/
theorem project_multiples :
    multiples.WellFormed ∧
      multiples.project [1, 1] = .ok ⟨3, [.ge ⟨[1, 0, 0], -3⟩, .ge ⟨[-1, 0, 3], 0⟩], false⟩ ∧
      Holds ⟨3, [.ge ⟨[1, 0, 0], -3⟩, .ge ⟨[-1, 0, 3], 0⟩], false⟩
      (Valuation.ofList [6, 5, 4]) := by
  have hwf : multiples.WellFormed := by decide
  have hproj : multiples.project [1, 1] = .ok ⟨3, [.ge ⟨[1, 0, 0], -3⟩, .ge ⟨[-1, 0, 3], 0⟩],
      false⟩ := by
    decide +kernel
  refine ⟨hwf, hproj, (project_keeps_points hwf hproj).2.2.2.2 (Valuation.ofList [6, 2, 4]) _
    (by decide) ?_⟩
  intro v hv
  rcases v with _ | _ | v
  · rfl
  · simp at hv
  · rfl

end KernelMap.Polyhedron
