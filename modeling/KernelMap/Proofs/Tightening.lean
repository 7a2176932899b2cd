import KernelMap.Proofs.Equalities

/-!
# KernelMap.Proofs.Tightening

The search for tight inequalities ends.

A round of the search that goes on leaves fewer positions or fewer inequalities to look
at (`roundsLeft_lt_of_tightenRound`), so that the search, which has no bound on its
rounds of its own (`Search`), always comes to an end; the bound in `detectEqualities` does
not cut it short (`search_tightenRounds`).
-/

namespace KernelMap.Polyhedron

/-! ## rounds -/

/-- The search from position `i` ends with `r`. -/
inductive Search : Nat → Polyhedron → Outcome EngineError Polyhedron → Prop where
  | done {i : Nat} {s t : Polyhedron} (h : tightenRound i s = .ok (.done t)) : Search i s (.ok t)
  | fail {i : Nat} {s : Polyhedron} {e : Failure EngineError} (h : tightenRound i s = .error e) :
      Search i s (.error e)
  | next {i j : Nat} {s t : Polyhedron} {r : Outcome EngineError Polyhedron}
      (h : tightenRound i s = .ok (.next j t)) (hrest : Search j t r) : Search i s r

/-! ## the search ends -/

/-- A bound on the rounds from position `i` on: one for each position left and one for each
inequality. -/
def roundsLeft (i : Nat) (s : Polyhedron) : Nat := s.constraints.length - i + s.inequalities

theorem constraints_tightenAt {s t : Polyhedron} {i : Nat} {c : Constraint}
    (h : s.tightenAt i c = .ok t) :
    ∃ d : Constraint, d.kind = .equality ∧ t.constraints = swapLast s.constraints i d := by
  rcases tightenAt_cases h with ⟨e, he, rfl⟩ | ⟨-, rfl⟩
  · exact ⟨e, (Constraint.sameSet_of_normalize he).kind, rfl⟩
  · exact ⟨{ c with kind := .equality }, rfl, rfl⟩

/-- Tightening an inequality keeps the number of constraints and leaves one inequality
less. -/
theorem inequalities_tightenAt {s t : Polyhedron} {i : Nat} {c : Constraint}
    (hc : s.constraints[i]? = some c) (hkind : c.kind = .inequality) (h : s.tightenAt i c = .ok t) :
    t.constraints.length = s.constraints.length ∧ s.inequalities = t.inequalities + 1 := by
  obtain ⟨hi, hget⟩ := List.getElem?_eq_some_iff.mp hc
  obtain ⟨d, hd, ht⟩ := constraints_tightenAt h
  have hnew : t.constraints.Perm (d :: s.constraints.eraseIdx i) := ht ▸ perm_swapLast hi d
  have hold : s.constraints.Perm (c :: s.constraints.eraseIdx i) :=
    hget ▸ (List.getElem_cons_eraseIdx_perm hi).symm
  refine ⟨by rw [hnew.length_eq, hold.length_eq, List.length_cons, List.length_cons], ?_⟩
  rw [inequalities, inequalities, hold.countP_eq, hnew.countP_eq,
    List.countP_cons_of_pos (by simp [hkind]), List.countP_cons_of_neg (by simp [hd])]

/-- A round that goes on leaves fewer rounds. -/
theorem roundsLeft_lt_of_tightenRound {i j : Nat} {s t : Polyhedron}
    (h : tightenRound i s = .ok (.next j t)) : roundsLeft j t < roundsLeft i s := by
  cases tightenRound_cases h with
  | pass hlt =>
      unfold roundsLeft
      omega
  | tight c t get kind _ _ tighten =>
      obtain ⟨hlength, hcount⟩ := inequalities_tightenAt get kind tighten
      unfold roundsLeft
      omega

/-- The bound on the rounds does not cut the search short. -/
theorem search_tightenRounds {n i : Nat} {s : Polyhedron} (hn : roundsLeft i s ≤ n) :
    Search i s (tightenRounds n i s) := by
  induction n generalizing i s with
  | zero =>
      -- no position is left, so that the search is over without a further round
      have hi : s.constraints.length ≤ i := by
        unfold roundsLeft at hn
        omega
      refine .done ?_
      unfold tightenRound
      rw [List.getElem?_eq_none hi]
      by_cases hinf : s.infeasible = true
      · rw [if_pos hinf]
      · rw [if_neg hinf]
  | succ n ih =>
      rw [tightenRounds]
      cases hround : tightenRound i s with
      | error e => exact .fail hround
      | ok round =>
          cases round with
          | done t => exact .done hround
          | next j t =>
              have hless := roundsLeft_lt_of_tightenRound hround
              exact .next hround (ih (by omega))

/-- Only one result ends the search. -/
theorem Search.unique {i : Nat} {s : Polyhedron} {r r' : Outcome EngineError Polyhedron}
    (h : Search i s r) (h' : Search i s r') : r = r' := by
  induction h with
  | done hround => cases h' <;> grind
  | fail hround => cases h' <;> grind
  | next hround _ ih =>
      cases h' with
      | done hround' => grind
      | fail hround' => grind
      | next hround' hrest' =>
          rw [hround, Except.ok.injEq, Round.next.injEq] at hround'
          obtain ⟨rfl, rfl⟩ := hround'
          exact ih hrest'

/-! ## explicit equalities -/

/-- Making equalities explicit keeps the variables and the integer points of a polyhedron.
The search for tight inequalities comes to an end, whatever the polyhedron, and detection is
that search between two simplifications. -/
theorem explicit_equalities_keep_points (s : Polyhedron) :
    (∀ t, s.WellFormed → s.detectEqualities = .ok t → t.nVars = s.nVars ∧ ∀ w,
      t.Holds w ↔ s.Holds w) ∧
    (∀ start stop t, s.WellFormed → s.fixDetermined start stop = .ok t →
      t.nVars = s.nVars ∧ ∀ w, t.Holds w ↔ s.Holds w) ∧
    (∀ i, ∃! r, Search i s r) ∧
    ∀ u, s.simplify = .ok u → ∃ r, Search 0 u r ∧ s.detectEqualities = r >>= simplify := by
  refine ⟨fun t hs h => ?_, fun start stop t hs h => ?_, fun i => ?_, fun u hu => ?_⟩
  · have hsame := samePoints_detectEqualities hs h
    exact ⟨hsame.nVars, hsame.holds⟩
  · have hsame := samePoints_fixDetermined hs h
    exact ⟨hsame.nVars, hsame.holds⟩
  · exact ⟨_, search_tightenRounds le_rfl, fun r hr => hr.unique (search_tightenRounds le_rfl)⟩
  · refine ⟨_, search_tightenRounds le_rfl, ?_⟩
    simp only [detectEqualities, hu]
    rfl

/-- The origin of the plane as three inequalities. -/
def corner : Polyhedron := ⟨2, [.ge ⟨[1, 0], 0⟩, .ge ⟨[0, 1], 0⟩, .ge ⟨[-1, -1], 0⟩], false⟩

/-- The corner becomes three equalities, in another order, and has its points still; with
its first variable fixed it has them as well. -/
theorem corner_keeps_points :
    (∃ t, corner.detectEqualities = .ok t ∧ t.constraints = [.eq ⟨[1, 0], 0⟩, .eq ⟨[1, 1], 0⟩,
      .eq ⟨[0, 1], 0⟩] ∧
      ∀ w, t.Holds w ↔ corner.Holds w) ∧
    (∃ t, corner.fixDetermined 0 1 = .ok t ∧ t.constraints = [.eq ⟨[1, 0], 0⟩, .ge ⟨[0, 1], 0⟩,
      .ge ⟨[-1, -1], 0⟩] ∧
      ∀ w, t.Holds w ↔ corner.Holds w) ∧
    ∃ r, Search 0 corner r ∧ corner.detectEqualities = r >>= simplify := by
  have hs : corner.WellFormed := by decide
  have hdetect : corner.detectEqualities =
      .ok ⟨2, [.eq ⟨[1, 0], 0⟩, .eq ⟨[1, 1], 0⟩, .eq ⟨[0, 1], 0⟩], false⟩ := by
    decide +kernel
  have hfix : corner.fixDetermined 0 1 =
      .ok ⟨2, [.eq ⟨[1, 0], 0⟩, .ge ⟨[0, 1], 0⟩, .ge ⟨[-1, -1], 0⟩], false⟩ := by
    decide +kernel
  have hsimplify : corner.simplify = .ok corner := by decide +kernel
  obtain ⟨hdetected, hfixed, -, hsearch⟩ := explicit_equalities_keep_points corner
  exact ⟨⟨_, hdetect, rfl, (hdetected _ hs hdetect).2⟩, ⟨_, hfix, rfl, (hfixed 0 1 _ hs hfix).2⟩,
    hsearch corner hsimplify⟩

end KernelMap.Polyhedron
