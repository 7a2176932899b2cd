import KernelMap.Access.Pairing
import KernelMap.Proofs.Access
import KernelMap.Proofs.Normal
import Mathlib.Data.List.Lex

/-!
# KernelMap.Proofs.Pairing

The questions about access relations err on the safe side only.

A pairing of two relations contains every pair of their points with common parameters
(`Pairing.exists_includes`).  Each question adds constraints to a pairing and asks
whether it is empty; an empty answer excludes all pairs that satisfy the constraints.
The order of the first positions in which two points differ is settled by
`Pairing.not_lt_of_laterPossible`, for both orders of the two relations.

Main statement: `Access.access_answers_are_safe`.
-/

namespace KernelMap

/-! ## conjunctions of polyhedra -/

namespace Polyhedron

variable {ε : Type}

/-- Adding constraints keeps the points where all of them hold. -/
theorem holds_addAll {s t : Polyhedron} {cs : List Constraint}
    (h : (s.addAll cs : Outcome ε Polyhedron) = .ok t) (w : Valuation) :
    t.Holds w ↔ s.Holds w ∧ ∀ c ∈ cs, c.Holds w := by
  induction cs generalizing s with
  | nil =>
      simp only [addAll, Except.ok.injEq] at h
      simp [h]
  | cons c cs ih =>
      simp only [addAll, Outcome.bind_eq_ok] at h
      obtain ⟨u, hu, h⟩ := h
      rw [ih h, holds_add hu, List.forall_mem_cons, and_assoc]

/-- An intersection has the points of both systems. -/
theorem holds_intersect {s t u : Polyhedron} (h : (s.intersect t : Outcome ε Polyhedron) = .ok u)
    (w : Valuation) : u.Holds w ↔ s.Holds w ∧ t.Holds w := by
  unfold intersect at h
  rw [holds_addAll h]
  simp only [Holds, Bool.or_eq_false_iff]
  tauto

end Polyhedron

/-! ## points of a relation -/

namespace Access

/-- Do some existential values make the point with these parameters, inputs and outputs
satisfy the relation of a piece? -/
def Contains (a : Access) (x : Piece) (params inputs outputs : Valuation) : Prop :=
  ∃ w, x.relation.Holds w ∧ (∀ k, k < a.nParam → w k = params k) ∧
    (∀ j, j < a.nIn → w (a.nParam + j) = inputs j) ∧ ∀ d, d < a.nOut →
    w (a.nParam + a.nIn + d) = outputs d

end Access

namespace Pairing

/-! ## pairs of points -/

/-- The pairing has the shape of an access and contains, as the valuation `w`, the pair
of a point with inputs `i` and outputs `o` and one with inputs `i'` and outputs `o'`. -/
structure Includes (p : Pairing) (a : Access) (i o i' o' w : Valuation) : Prop where
  nIn : p.nIn = a.nIn
  nOut : p.nOut = a.nOut
  wellFormed : p.pairs.WellFormed
  holds : p.pairs.Holds w
  in₁ : ∀ j, j < a.nIn → w (p.in₁ j) = i j
  out₁ : ∀ d, d < a.nOut → w (p.out₁ d) = o d
  in₂ : ∀ j, j < a.nIn → w (p.in₂ j) = i' j
  out₂ : ∀ d, d < a.nOut → w (p.out₂ d) = o' d

/-- The values of a point of the first relation, one of the second, and the
existentials of both. -/
def join (nParam nIn nOut ex₁ : Nat) (w₁ w₂ : Valuation) : Valuation := fun k =>
  let head := nParam + nIn + nOut
  let tail := nParam + 2 * (nIn + nOut)
  if k < head then w₁ k
  else if k < tail then w₂ (k - (nIn + nOut))
  else if k < tail + ex₁ then w₁ (k - tail + head)
  else w₂ (k - (tail + ex₁) + head)

/-- A pairing of two pieces has a point for every pair of theirs that agrees on the parameters. -/
theorem ofPieces_eq_ok {nParam nIn nOut : Nat} {x y : Access.Piece} {p : Pairing}
    (hx : x.relation.WellFormed) (hy : y.relation.WellFormed)
    (h : ofPieces nParam nIn nOut x y = .ok p) :
    (p.nParam = nParam ∧ p.nIn = nIn ∧ p.nOut = nOut) ∧ p.pairs.WellFormed ∧
      ∀ w₁ w₂, x.relation.Holds w₁ → y.relation.Holds w₂ → (∀ k, k < nParam → w₁ k = w₂ k) →
        p.pairs.Holds (join nParam nIn nOut (x.relation.nVars - (nParam + nIn + nOut)) w₁ w₂) := by
  simp only [ofPieces, Outcome.bind_eq_ok, Outcome.orFault_eq_ok, Outcome.pure_eq_ok] at h
  obtain ⟨ex₁, hex₁, ex₂, hex₂, s, hs, t, ht, u, hu, rfl⟩ := h
  have hex₁ : nParam + nIn + nOut ≤ x.relation.nVars ∧
      ex₁ = x.relation.nVars - (nParam + nIn + nOut) := by
    unfold Index.sub? at hex₁
    split at hex₁
    · next hle => exact ⟨hle, (Option.some.inj hex₁).symm⟩
    · cases hex₁
  obtain ⟨hle, rfl⟩ := hex₁
  refine ⟨⟨rfl, rfl, rfl⟩, (Polyhedron.wellFormed_embed hs).intersect hu,
    fun w₁ w₂ hw₁ hw₂ hparams => ?_⟩
  -- each relation reads its own point out of the joint one
  have hread : ∀ {q : Polyhedron} {f : Nat → Nat} {w w' : Valuation}, q.WellFormed →
      (∀ k, k < q.nVars → w (f k) = w' k) → q.Holds w' →
      q.Holds fun i => w (((List.range q.nVars).map f).getD i 0) := by
    intro q f w w' hq hf hw'
    refine (Polyhedron.holds_congr fun v hv => ?_).mpr hw'
    have hlt : v < q.nVars := by
      by_contra hge
      simp [hq.involves_eq_false (Nat.le_of_not_lt hge)] at hv
    have hmap : ((List.range q.nVars).map f).getD v 0 = f v := by
      simp [List.getD_eq_getElem?_getD, hlt]
    rw [hmap, hf v hlt]
  rw [Polyhedron.holds_intersect hu, Polyhedron.holds_embed hs, Polyhedron.holds_embed ht]
  refine ⟨hread hx (fun k hk => ?_) hw₁, hread hy (fun k hk => ?_) hw₂⟩
  · by_cases hhead : k < nParam + nIn + nOut
    · rw [if_pos hhead, join, if_pos hhead]
    · rw [if_neg hhead, join, if_neg (by omega), if_neg (by omega), if_pos (by omega)]
      congr 1
      omega
  · by_cases hparam : k < nParam
    · rw [if_pos hparam, join, if_pos (by omega), hparams k hparam]
    rw [if_neg hparam]
    by_cases hhead : k < nParam + nIn + nOut
    · rw [if_pos hhead, join, if_neg (by omega), if_pos (by omega)]
      congr 1
      omega
    · rw [if_neg hhead, join, if_neg (by omega), if_neg (by omega), if_neg (by omega)]
      congr 1
      omega

/-- Two points of two relations with common parameters make a pair. -/
theorem exists_includes {a : Access} {x y : Access.Piece} {p : Pairing}
    {params i o i' o' : Valuation} (hx : x.relation.WellFormed) (hy : y.relation.WellFormed)
    (h : a.pair x y = .ok p) (hc : a.Contains x params i o) (hc' : a.Contains y params i' o') :
    ∃ w, p.Includes a i o i' o' w := by
  obtain ⟨w₁, hw₁, hparam₁, hin₁, hout₁⟩ := hc
  obtain ⟨w₂, hw₂, hparam₂, hin₂, hout₂⟩ := hc'
  obtain ⟨⟨hnp, hni, hno⟩, hwf, hjoin⟩ := ofPieces_eq_ok hx hy h
  have hparams : ∀ k, k < a.nParam → w₁ k = w₂ k :=
    fun k hk => (hparam₁ k hk).trans (hparam₂ k hk).symm
  refine ⟨_, hni, hno, hwf, hjoin w₁ w₂ hw₁ hw₂ hparams, fun j hj => ?_, fun d hd => ?_,
    fun j hj => ?_, fun d hd => ?_⟩
  · rw [← hin₁ j hj, join, Pairing.in₁, if_pos (by omega), hnp]
  · rw [← hout₁ d hd, join, Pairing.out₁, if_pos (by omega), hnp, hni]
  · rw [← hin₂ j hj, join, Pairing.in₂, if_neg (by omega), if_pos (by omega)]
    congr 1
    omega
  · rw [← hout₂ d hd, join, Pairing.out₂, if_neg (by omega), if_pos (by omega)]
    congr 1
    omega

/-! ## constraints on pairs -/

theorem holds_equate {x y : Nat} {s t : Polyhedron} (h : equate x y s = .ok t) (w : Valuation) :
    t.Holds w ↔ s.Holds w ∧ w x = w y := by
  rw [Polyhedron.holds_addTerms h, Constraint.Kind.accepts_equality]
  refine and_congr_right fun _ => ?_
  simp only [Constraint.termsValue, List.map_cons, List.map_nil, List.sum_cons, List.sum_nil]
  omega

/-- The first variable exceeds the second by at least `k`. -/
theorem holds_exceed {x y : Nat} {k : Int} {s t : Polyhedron} (h : exceed x y k s = .ok t)
    (w : Valuation) : t.Holds w ↔ s.Holds w ∧ w y + k ≤ w x := by
  rw [Polyhedron.holds_addTerms h, Constraint.Kind.accepts_inequality]
  refine and_congr_right fun _ => ?_
  simp only [Constraint.termsValue, List.map_cons, List.map_nil, List.sum_cons, List.sum_nil]
  omega

/-- The inputs of the list are equal in both halves. -/
theorem equateInputs_eq_ok {p : Pairing} {js : List Nat} {s t : Polyhedron}
    (h : p.equateInputs js s = .ok t) :
    (s.WellFormed → t.WellFormed) ∧ ∀ w, t.Holds w ↔ s.Holds w ∧ ∀ j ∈ js,
      w (p.in₂ j) = w (p.in₁ j) := by
  induction js generalizing s with
  | nil =>
      simp only [equateInputs, Except.ok.injEq] at h
      simp [h]
  | cons j js ih =>
      simp only [equateInputs, Outcome.bind_eq_ok] at h
      obtain ⟨u, hu, h⟩ := h
      obtain ⟨hwf, hholds⟩ := ih h
      refine ⟨fun hs => hwf (hs.addTerms hu), fun w => ?_⟩
      rw [hholds, holds_equate hu, List.forall_mem_cons, and_assoc]

/-- The outputs of the list are equal in both halves. -/
theorem equateOutputs_eq_ok {p : Pairing} {ds : List Nat} {s t : Polyhedron}
    (h : p.equateOutputs ds s = .ok t) :
    (s.WellFormed → t.WellFormed) ∧ ∀ w, t.Holds w ↔ s.Holds w ∧ ∀ d ∈ ds,
      w (p.out₂ d) = w (p.out₁ d) := by
  induction ds generalizing s with
  | nil =>
      simp only [equateOutputs, Except.ok.injEq] at h
      simp [h]
  | cons d ds ih =>
      simp only [equateOutputs, Outcome.bind_eq_ok] at h
      obtain ⟨u, hu, h⟩ := h
      obtain ⟨hwf, hholds⟩ := ih h
      refine ⟨fun hs => hwf (hs.addTerms hu), fun w => ?_⟩
      rw [hholds, holds_equate hu, List.forall_mem_cons, and_assoc]

section Questions

variable {a : Access} {p q : Pairing} {i o i' o' w : Valuation}

/-- Equal inputs may be required if the points have them. -/
theorem Includes.withInputs (hw : p.Includes a i o i' o' w) {js : List Nat}
    (h : p.withInputs js = .ok q) (hjs : ∀ j ∈ js, j < a.nIn ∧ i j = i' j) :
    q.Includes a i o i' o' w := by
  simp only [Pairing.withInputs, Outcome.bind_eq_ok, Outcome.pure_eq_ok] at h
  obtain ⟨s, hs, rfl⟩ := h
  obtain ⟨hwf, hholds⟩ := equateInputs_eq_ok hs
  refine { hw with wellFormed := hwf hw.wellFormed,
                   holds := (hholds w).mpr ⟨hw.holds, fun j hj => ?_⟩ }
  obtain ⟨hlt, heq⟩ := hjs j hj
  rw [hw.in₂ j hlt, hw.in₁ j hlt, heq]

/-- Equal elements may be required if the points have them. -/
theorem Includes.withOutputs (hw : p.Includes a i o i' o' w) (h : p.withOutputs = .ok q)
    (ho : ∀ d, d < a.nOut → o d = o' d) : q.Includes a i o i' o' w := by
  simp only [Pairing.withOutputs, Outcome.bind_eq_ok, Outcome.pure_eq_ok] at h
  obtain ⟨s, hs, rfl⟩ := h
  obtain ⟨hwf, hholds⟩ := equateOutputs_eq_ok hs
  refine { hw with wellFormed := hwf hw.wellFormed,
                   holds := (hholds w).mpr ⟨hw.holds, fun d hd => ?_⟩ }
  have hlt : d < a.nOut := by rwa [List.mem_range, hw.nOut] at hd
  rw [hw.out₂ d hlt, hw.out₁ d hlt, ho d hlt]

/-- If no pair can be later, the second inputs do not come after the first ones. -/
theorem not_lt_of_laterPossible {equal : Polyhedron} {js : List Nat} (hequal : equal.WellFormed)
    (h : p.laterPossible equal js = .ok false) (hw : equal.Holds w) :
    ¬ (js.map fun j => w (p.in₁ j)) < js.map fun j => w (p.in₂ j) := by
  induction js generalizing equal with
  | nil => simp
  | cons j js ih =>
      simp only [laterPossible, Outcome.bind_eq_ok] at h
      obtain ⟨s, hs, empty, hempty, h⟩ := h
      cases empty with
      | false => simp at h
      | true =>
          simp only [Bool.not_true, Bool.false_eq_true, if_false, Outcome.bind_eq_ok] at h
          obtain ⟨t, ht, h⟩ := h
          -- the pair is not in the part where the second input exceeds the first
          have hle : w (p.in₂ j) ≤ w (p.in₁ j) := by
            by_contra hlt
            have hs' := (holds_exceed hs w).mpr ⟨hw, by omega⟩
            exact Polyhedron.not_holds_of_isEmpty (hequal.addTerms hs) hempty w hs'
          rw [List.map_cons, List.map_cons, List.cons_lt_cons_iff]
          rintro (hlt | ⟨heq, hrest⟩)
          · omega
          · exact ih (hequal.addTerms ht) h ((holds_equate ht w).mpr ⟨hw, heq.symm⟩) hrest

/-- If no later point is possible, the inputs are not in order. -/
theorem Includes.not_lt (hw : p.Includes a i o i' o' w) {js : List Nat} (hjs : ∀ j ∈ js, j < a.nIn)
    (h : p.laterPossible p.pairs js = .ok false) : ¬ js.map i < js.map i' := by
  have hlater := not_lt_of_laterPossible hw.wellFormed h hw.holds
  have hin₁ : (js.map fun j => w (p.in₁ j)) = js.map i := List.map_congr_left fun j hj =>
    hw.in₁ j (hjs j hj)
  have hin₂ : (js.map fun j => w (p.in₂ j)) = js.map i' := List.map_congr_left fun j hj =>
    hw.in₂ j (hjs j hj)
  rwa [hin₁, hin₂] at hlater

/-- If a variable cannot exceed another, it does not. -/
theorem le_of_exceedPossible {x y : Nat} (hp : p.pairs.WellFormed)
    (h : p.exceedPossible x y = .ok false) (hw : p.pairs.Holds w) : w x ≤ w y := by
  simp only [exceedPossible, Outcome.bind_eq_ok, Outcome.pure_eq_ok, Bool.not_eq_false'] at h
  obtain ⟨s, hs, empty, hempty, rfl⟩ := h
  by_contra hlt
  exact Polyhedron.not_holds_of_isEmpty (hp.addTerms hs) hempty w
    ((holds_exceed hs w).mpr ⟨hw, by omega⟩)

/-- If no outputs can differ, the elements agree at the positions. -/
theorem Includes.outputs_eq (hw : p.Includes a i o i' o' w) {ds : List Nat}
    (hds : ∀ d ∈ ds, d < a.nOut) (h : p.outputsDiffer ds = .ok false) : ∀ d ∈ ds, o d = o' d := by
  induction ds with
  | nil => simp
  | cons d ds ih =>
      simp only [outputsDiffer, Outcome.bind_eq_ok] at h
      obtain ⟨above, habove, h⟩ := h
      cases above with
      | true => simp at h
      | false =>
          simp only [Bool.false_eq_true, if_false, Outcome.bind_eq_ok] at h
          obtain ⟨below, hbelow, h⟩ := h
          cases below with
          | true => simp at h
          | false =>
              obtain ⟨hd, hds⟩ := List.forall_mem_cons.mp hds
              have hle := le_of_exceedPossible hw.wellFormed habove hw.holds
              have hge := le_of_exceedPossible hw.wellFormed hbelow hw.holds
              rw [hw.out₁ d hd, hw.out₂ d hd] at hle hge
              exact List.forall_mem_cons.mpr ⟨le_antisymm hge hle, ih hds (by simpa using h)⟩

end Questions

end Pairing

/-! ## questions about accesses -/

namespace Access

variable {a b : Access} {x y : Piece} {params i o i' o' : Valuation}

/-- A search that finds no pair tested all of them. -/
theorem eq_ok_of_anyPair {α β : Type} {test : α → β → Outcome EngineError Bool} {xs : List α}
    {ys : List β} (h : anyPair test xs ys = .ok false) :
    ∀ x ∈ xs, ∀ y ∈ ys, test x y = .ok false := fun x hx y hy =>
  Outcome.eq_ok_of_anyM (Outcome.eq_ok_of_anyM h x hx) y hy

theorem mem_positions {start stop j : Nat} : j ∈ positions start stop ↔ start ≤ j ∧ j < stop := by
  rw [positions, List.mem_range'_1]
  omega

theorem mem_others {n q j : Nat} (hq : q < n) : j ∈ others n q ↔ j < n ∧ j ≠ q := by
  rw [others, List.mem_append, List.mem_range, List.mem_range'_1]
  omega

/-- Two pieces that do not meet have no common point. -/
theorem not_contains_of_meet (hx : x.relation.WellFormed) (hy : y.relation.WellFormed)
    (h : a.meet x y = .ok false) (hc : a.Contains x params i o) : ¬ a.Contains y params i o := by
  intro hc'
  simp only [meet, Outcome.bind_eq_ok, Outcome.pure_eq_ok, Bool.not_eq_false'] at h
  obtain ⟨p, hp, p₁, hp₁, p₂, hp₂, empty, hempty, rfl⟩ := h
  obtain ⟨w, hw⟩ := Pairing.exists_includes hx hy hp hc hc'
  have hw₁ := hw.withInputs hp₁ fun j hj => ⟨List.mem_range.mp hj, rfl⟩
  have hw₂ := hw₁.withOutputs hp₂ fun _ _ => rfl
  exact Polyhedron.not_holds_of_isEmpty hw₂.wellFormed hempty w hw₂.holds

/-- Two points that agree on the first inputs and touch one element are in order; they
are not equal if they are points of different pieces. -/
theorem not_lt_of_reuse {start k l : Nat} (hx : x.relation.WellFormed) (hy : y.relation.WellFormed)
    (hstart : start ≤ a.nIn) (h : a.reuse start (k, x) (l, y) = .ok false)
    (hc : a.Contains x params i o) (hc' : a.Contains y params i' o)
    (hagree : ∀ j, j < start → i j = i' j) :
    ¬ (positions start a.nIn).map i < (positions start a.nIn).map i' ∧
      (k ≠ l → ¬ ∀ j ∈ positions start a.nIn, i j = i' j) := by
  simp only [reuse, Outcome.bind_eq_ok] at h
  obtain ⟨p, hp, p₁, hp₁, p₂, hp₂, later, hlater, h⟩ := h
  obtain ⟨w, hw⟩ := Pairing.exists_includes hx hy hp hc hc'
  have hw₁ := hw.withInputs hp₁ fun j hj =>
    ⟨(List.mem_range.mp hj).trans_le hstart, hagree j (List.mem_range.mp hj)⟩
  have hw₂ := hw₁.withOutputs hp₂ fun _ _ => rfl
  have hlt : ∀ j ∈ positions start a.nIn, j < a.nIn := fun j hj => (mem_positions.mp hj).2
  cases later with
  | true => simp at h
  | false =>
      refine ⟨hw₂.not_lt hlt hlater, fun hkl heq => ?_⟩
      simp only [Bool.false_eq_true, if_false, if_neg hkl, Outcome.bind_eq_ok, Outcome.pure_eq_ok,
        Bool.not_eq_false'] at h
      obtain ⟨s, hs, empty, hempty, rfl⟩ := h
      obtain ⟨hwf, hholds⟩ := Pairing.equateInputs_eq_ok hs
      refine Polyhedron.not_holds_of_isEmpty (hwf hw₂.wellFormed) hempty w
        ((hholds w).mpr ⟨hw₂.holds, fun j hj => ?_⟩)
      rw [hw₂.in₂ j (hlt j hj), hw₂.in₁ j (hlt j hj), heq j hj]

/-- Threads that contest no element do not touch one in order. -/
theorem not_lt_of_contested {start : Nat} {threads : List Nat} (hx : x.relation.WellFormed)
    (hy : y.relation.WellFormed) (hstart : start ≤ a.nIn) (hthreads : ∀ j ∈ threads, j < a.nIn)
    (h : a.contested start threads x y = .ok false) (hc : a.Contains x params i o)
    (hc' : a.Contains y params i' o) (hagree : ∀ j, j < start → i j = i' j) :
    ¬ threads.map i < threads.map i' := by
  simp only [contested, Outcome.bind_eq_ok] at h
  obtain ⟨p, hp, p₁, hp₁, p₂, hp₂, h⟩ := h
  obtain ⟨w, hw⟩ := Pairing.exists_includes hx hy hp hc hc'
  have hw₁ := hw.withInputs hp₁ fun j hj =>
    ⟨(List.mem_range.mp hj).trans_le hstart, hagree j (List.mem_range.mp hj)⟩
  exact (hw₁.withOutputs hp₂ fun _ _ => rfl).not_lt hthreads h

/-- Pieces that do not diverge have the same outputs at the same inputs. -/
theorem outputs_eq_of_divergent (hx : x.relation.WellFormed) (hy : y.relation.WellFormed)
    (h : a.divergent x y = .ok false) (hc : a.Contains x params i o)
    (hc' : a.Contains y params i o') : ∀ d, d < a.nOut → o d = o' d := by
  simp only [divergent, Outcome.bind_eq_ok] at h
  obtain ⟨p, hp, p₁, hp₁, h⟩ := h
  obtain ⟨w, hw⟩ := Pairing.exists_includes hx hy hp hc hc'
  have hw₁ := hw.withInputs hp₁ fun j hj => ⟨List.mem_range.mp hj, rfl⟩
  intro d hd
  exact hw₁.outputs_eq (fun _ hd => List.mem_range.mp hd) h d (List.mem_range.mpr hd)

/-- The last output moves by one with the input. -/
theorem output_eq_of_movesByOne {pos : Nat} (hx : x.relation.WellFormed) (hpos : pos < a.nIn)
    (hout : 0 < a.nOut) (h : a.movesByOne pos (a.nOut - 1) x = .ok true)
    (hc : a.Contains x params i o) (hc' : a.Contains x params i' o') (hstep : i' pos = i pos + 1)
    (hothers : ∀ j, j < a.nIn → j ≠ pos → i j = i' j) : o' (a.nOut - 1) = o (a.nOut - 1) + 1 := by
  simp only [movesByOne, Outcome.bind_eq_ok] at h
  obtain ⟨p, hp, p₁, hp₁, step, hstep', small, hsmall, large, hlarge, empty, hempty, h⟩ := h
  obtain ⟨w, hw⟩ := Pairing.exists_includes hx hx hp hc hc'
  have hw₁ := hw.withInputs hp₁ fun j hj => by
    obtain ⟨hlt, hne⟩ := (mem_others hpos).mp hj
    exact ⟨hlt, hothers j hlt hne⟩
  have hin₁ := hw₁.in₁ pos hpos
  have hin₂ := hw₁.in₂ pos hpos
  have hlast : a.nOut - 1 < a.nOut := by omega
  have hout₁ := hw₁.out₁ _ hlast
  have hout₂ := hw₁.out₂ _ hlast
  have hstepw : step.Holds w := by
    rw [Polyhedron.holds_addTerms hstep', Constraint.Kind.accepts_equality]
    refine ⟨hw₁.holds, ?_⟩
    simp only [Constraint.termsValue, List.map_cons, List.map_nil, List.sum_cons, List.sum_nil]
    omega
  have hstepwf := hw₁.wellFormed.addTerms hstep'
  cases empty with
  | false => simp at h
  | true =>
      simp only [Bool.not_true, Bool.false_eq_true, if_false] at h
      -- neither a smaller nor a larger move is possible
      have hnotsmall := Polyhedron.not_holds_of_isEmpty (hstepwf.addTerms hsmall) hempty w
      have hnotlarge := Polyhedron.not_holds_of_isEmpty (hstepwf.addTerms hlarge) h w
      rw [Pairing.holds_exceed hsmall, hout₁, hout₂] at hnotsmall
      rw [Pairing.holds_exceed hlarge, hout₁, hout₂] at hnotlarge
      have hgt : ¬ o' (a.nOut - 1) + 0 ≤ o (a.nOut - 1) := fun hle => hnotsmall ⟨hstepw, hle⟩
      have hlt : ¬ o (a.nOut - 1) + 2 ≤ o' (a.nOut - 1) := fun hle => hnotlarge ⟨hstepw, hle⟩
      omega

/-- The outputs do not move with the input. -/
theorem outputs_eq_of_moves {q : Nat} (hx : x.relation.WellFormed) (hq : q < a.nIn)
    (h : a.moves q x = .ok false) (hc : a.Contains x params i o) (hc' : a.Contains x params i' o')
    (hothers : ∀ j, j < a.nIn → j ≠ q → i j = i' j) (hless : i q < i' q) :
    ∀ d, d < a.nOut → o d = o' d := by
  simp only [moves, Outcome.bind_eq_ok] at h
  obtain ⟨p, hp, p₁, hp₁, pairs, hpairs, h⟩ := h
  obtain ⟨w, hw⟩ := Pairing.exists_includes hx hx hp hc hc'
  have hw₁ := hw.withInputs hp₁ fun j hj => by
    obtain ⟨hlt, hne⟩ := (mem_others hq).mp hj
    exact ⟨hlt, hothers j hlt hne⟩
  have hw₂ : ({ p₁ with pairs } : Pairing).Includes a i o i' o' w :=
    { hw₁ with
      wellFormed := hw₁.wellFormed.addTerms hpairs
      holds := (Pairing.holds_exceed hpairs w).mpr
        ⟨hw₁.holds, by rw [hw₁.in₁ q hq, hw₁.in₂ q hq]; omega⟩ }
  intro d hd
  exact hw₂.outputs_eq (fun _ hd => List.mem_range.mp hd) h d (List.mem_range.mpr hd)

theorem eq_of_not_lt {js : List Nat} (h : ¬ js.map i < js.map i') (h' : ¬ js.map i' < js.map i) :
    ∀ j ∈ js, i j = i' j :=
  List.map_inj_left.mp (le_antisymm (not_lt.mp h') (not_lt.mp h))

theorem mem_numbered {k : Nat} (h : a.pieces[k]? = some x) : (k, x) ∈ a.numbered := by
  obtain ⟨hk, hx⟩ := List.getElem?_eq_some_iff.mp h
  refine List.mem_iff_getElem.mpr ⟨k, by simpa [numbered] using hk, ?_⟩
  simp [numbered, hx]

/-! ## answers -/

/-- Accesses that do not overlap have no common point. -/
theorem not_contains_of_overlaps (ha : a.WellFormed) (hb : b.WellFormed)
    (hshape : b.nParam = a.nParam ∧ b.nIn = a.nIn ∧ b.nOut = a.nOut) (h : a.overlaps b = .ok false)
    (hx : x ∈ a.pieces) (hy : y ∈ b.pieces) :
    ¬ (a.Contains x params i o ∧ b.Contains y params i o) := by
  obtain ⟨hparam, hin, hout⟩ := hshape
  rw [overlaps, if_pos ⟨hin.symm, hout.symm⟩] at h
  rintro ⟨hc, hc'⟩
  have hc' : a.Contains y params i o := by
    unfold Contains at hc' ⊢
    rwa [hparam, hin, hout] at hc'
  exact not_contains_of_meet (ha x hx).1 (hb y hy).1 (eq_ok_of_anyPair h x hx y hy) hc hc'

/-- Without reuse, an element is touched by one point through one piece. -/
theorem inputs_eq_of_hasReuse {start k l : Nat} (ha : a.WellFormed) (hstart : start ≤ a.nIn)
    (h : a.hasReuse start = .ok false) (hk : a.pieces[k]? = some x) (hl : a.pieces[l]? = some y)
    (hc : a.Contains x params i o) (hc' : a.Contains y params i' o)
    (hagree : ∀ j, j < start → i j = i' j) : (∀ j, j < a.nIn → i j = i' j) ∧ k = l := by
  have hx := (ha x (List.mem_of_getElem? hk)).1
  have hy := (ha y (List.mem_of_getElem? hl)).1
  have hall := eq_ok_of_anyPair h
  obtain ⟨hnot, hdifferent⟩ :=
    not_lt_of_reuse hx hy hstart (hall _ (mem_numbered hk) _ (mem_numbered hl)) hc hc' hagree
  obtain ⟨hnot', -⟩ :=
    not_lt_of_reuse hy hx hstart (hall _ (mem_numbered hl) _ (mem_numbered hk)) hc' hc fun j hj =>
      (hagree j hj).symm
  have heq := eq_of_not_lt hnot hnot'
  refine ⟨fun j hj => ?_, not_not.mp fun hkl => hdifferent hkl heq⟩
  by_cases hlt : j < start
  · exact hagree j hlt
  · exact heq j (mem_positions.mpr ⟨by omega, hj⟩)

/-- An exclusive element belongs to one choice of the thread inputs. -/
theorem inputs_eq_of_isExclusive {start lo hi : Nat} (ha : a.WellFormed) (hstart : start ≤ a.nIn)
    (hhi : hi ≤ a.nIn) (h : a.isExclusive start lo hi = .ok true) (hx : x ∈ a.pieces)
    (hy : y ∈ a.pieces) (hc : a.Contains x params i o) (hc' : a.Contains y params i' o)
    (hagree : ∀ j, j < start → i j = i' j) {j : Nat} (hlo : lo ≤ j) (hj : j < hi) : i j = i' j := by
  simp only [isExclusive, Outcome.bind_eq_ok, Outcome.pure_eq_ok, Bool.not_eq_true'] at h
  obtain ⟨_, h, rfl⟩ := h
  have hthreads : ∀ j ∈ positions lo hi, j < a.nIn :=
    fun j hj => (mem_positions.mp hj).2.trans_le hhi
  have hall := eq_ok_of_anyPair h
  have hnot := not_lt_of_contested (ha x hx).1 (ha y hy).1 hstart hthreads
    (hall x hx y hy) hc hc' hagree
  have hnot' := not_lt_of_contested (ha y hy).1 (ha x hx).1 hstart hthreads (hall y hy x hx) hc' hc
    fun j hj => (hagree j hj).symm
  exact eq_of_not_lt hnot hnot' j (mem_positions.mpr ⟨hlo, hj⟩)

/-- A single-valued access has one element at each point of the inputs. -/
theorem outputs_eq_of_isSingleValued (ha : a.WellFormed) (h : a.isSingleValued = .ok true)
    (hx : x ∈ a.pieces) (hy : y ∈ a.pieces) (hc : a.Contains x params i o)
    (hc' : a.Contains y params i o') : ∀ d, d < a.nOut → o d = o' d := by
  simp only [isSingleValued, Outcome.bind_eq_ok, Outcome.pure_eq_ok, Bool.not_eq_true'] at h
  obtain ⟨_, h, rfl⟩ := h
  exact outputs_eq_of_divergent (ha x hx).1 (ha y hy).1 (eq_ok_of_anyPair h x hx y hy) hc hc'

/-- An element that does not depend on an input stays the same when only that input changes. -/
theorem outputs_eq_of_dependsOn {q : Nat} (ha : a.WellFormed) (h : a.dependsOn q = .ok false)
    (hx : x ∈ a.pieces) (hc : a.Contains x params i o) (hc' : a.Contains x params i' o')
    (hothers : ∀ j, j < a.nIn → j ≠ q → i j = i' j) (hdiffer : ∃ j, j < a.nIn ∧ i j ≠ i' j) :
    ∀ d, d < a.nOut → o d = o' d := by
  -- the points differ, so they differ in input `q`
  obtain ⟨j, hj, hne⟩ := hdiffer
  obtain rfl : j = q := by
    by_contra hjq
    exact hne (hothers j hj hjq)
  rw [dependsOn, if_neg (by omega)] at h
  have hmoves := Outcome.eq_ok_of_anyM h x hx
  rcases lt_or_gt_of_ne hne with hlt | hgt
  · exact outputs_eq_of_moves (ha x hx).1 hj hmoves hc hc' hothers hlt
  · intro d hd
    have hback := outputs_eq_of_moves (ha x hx).1 hj hmoves hc' hc
      (fun k hk hkj => (hothers k hk hkj).symm) hgt
    exact (hback d hd).symm

/-- Every answer that is not the cautious one is a fact about all points of the
relations: accesses that do not overlap share no point and element; without reuse an
element is touched by one point through one piece; an exclusive element belongs to one
choice of the thread inputs; a single value is the only one; along a coalesced input the
last index moves with it; and an element that does not depend on an input stays the same
when only that input changes. -/
theorem access_answers_are_safe (ha : a.WellFormed) (hb : b.WellFormed)
    (hshape : b.nParam = a.nParam ∧ b.nIn = a.nIn ∧ b.nOut = a.nOut) :
    (a.overlaps b = .ok false → ∀ x ∈ a.pieces, ∀ y ∈ b.pieces, ∀ params i o,
      ¬ (a.Contains x params i o ∧ b.Contains y params i o)) ∧
    (∀ start, start ≤ a.nIn → a.hasReuse start = .ok false →
      ∀ (k l : Nat) (x y : Piece), a.pieces[k]? = some x → a.pieces[l]? = some y → ∀ params i i' o,
        a.Contains x params i o → a.Contains y params i' o → (∀ j, j < start → i j = i' j) →
          (∀ j, j < a.nIn → i j = i' j) ∧ k = l) ∧
    (∀ start lo hi, start ≤ a.nIn → hi ≤ a.nIn → a.isExclusive start lo hi = .ok true →
      ∀ x ∈ a.pieces, ∀ y ∈ a.pieces, ∀ params i i' o,
        a.Contains x params i o → a.Contains y params i' o → (∀ j, j < start → i j = i' j) →
          ∀ j, lo ≤ j → j < hi → i j = i' j) ∧
    (a.isSingleValued = .ok true → ∀ x ∈ a.pieces, ∀ y ∈ a.pieces, ∀ params i o o',
      a.Contains x params i o → a.Contains y params i o' → ∀ d, d < a.nOut → o d = o' d) ∧
    (∀ pos, pos < a.nIn → 0 < a.nOut → a.isCoalesced (some pos) = .ok true →
      ∀ x ∈ a.pieces, ∀ params i i' o o', a.Contains x params i o → a.Contains x params i' o' →
        i' pos = i pos + 1 → (∀ j, j < a.nIn → j ≠ pos → i j = i' j) →
          o' (a.nOut - 1) = o (a.nOut - 1) + 1) ∧
    ∀ q, a.dependsOn q = .ok false → ∀ x ∈ a.pieces, ∀ params i i' o o',
      a.Contains x params i o → a.Contains x params i' o' → (∀ j, j < a.nIn → j ≠ q → i j = i' j) →
        (∃ j, j < a.nIn ∧ i j ≠ i' j) → ∀ d, d < a.nOut → o d = o' d := by
  refine ⟨?_, ?_, ?_, ?_, ?_, ?_⟩
  · intro h x hx y hy params i o
    exact not_contains_of_overlaps ha hb hshape h hx hy
  · intro start hstart h k l x y hk hl params i i' o
    exact inputs_eq_of_hasReuse ha hstart h hk hl
  · intro start lo hi hstart hhi h x hx y hy params i i' o hc hc' hagree j
    exact inputs_eq_of_isExclusive ha hstart hhi h hx hy hc hc' hagree
  · intro h x hx y hy params i o o'
    exact outputs_eq_of_isSingleValued ha h hx hy
  · intro pos hpos hpositive h x hx params i i' o o'
    rw [isCoalesced, if_neg (by omega)] at h
    exact output_eq_of_movesByOne (ha x hx).1 hpos hpositive (Outcome.eq_ok_of_allM h x hx)
  · intro q h x hx params i i' o o'
    exact outputs_eq_of_dependsOn ha h hx

/-- The relation `o = 3·e + i₁` with `e = i₀`, for three neighbouring values of `i₁`. -/
def columnPiece (reference : Nat) (first : Int) : Piece :=
  ⟨reference, 5, [.eq ⟨[0, 0, 1, -1, 3], 0⟩, .eq ⟨[0, 1, 0, 0, -1], 0⟩,
    .ge ⟨[0, 0, 1, 0, 0], -first⟩, .ge ⟨[0, 0, -1, 0, 0], first + 2⟩], false⟩

def columns (reference : Nat) (first : Int) : Access := ⟨1, 2, 1, [columnPiece reference first]⟩

/-- Three columns of rows of length three: an element determines its row and column,
neighbouring columns are neighbours, and the next three columns are other points. -/
theorem columns_answers :
    (columns 0 0).Contains (columnPiece 0 0) (.ofList [9]) (.ofList [4, 2]) (.ofList [14]) ∧
      (∀ params i i' o, (columns 0 0).Contains (columnPiece 0 0) params i o →
        (columns 0 0).Contains (columnPiece 0 0) params i' o → i 0 = i' 0 ∧ i 1 = i' 1) ∧
      (∀ params i i' o o', (columns 0 0).Contains (columnPiece 0 0) params i o →
        (columns 0 0).Contains (columnPiece 0 0) params i' o' → i' 1 = i 1 + 1 → i 0 = i' 0 →
        o' 0 = o 0 + 1) ∧
      ∀ params i o, ¬ ((columns 0 0).Contains (columnPiece 0 0) params i o ∧
        (columns 1 3).Contains (columnPiece 1 3) params i o) := by
  have hreuse : (columns 0 0).hasReuse 0 = .ok false := by decide +kernel
  have hcoalesced : (columns 0 0).isCoalesced (some 1) = .ok true := by decide +kernel
  have hoverlaps : (columns 0 0).overlaps (columns 1 3) = .ok false := by decide +kernel
  have hmem : ∀ r first, columnPiece r first ∈ (columns r first).pieces :=
    fun r first => List.mem_singleton_self _
  obtain ⟨hshared, honce, -, -, hmoves, -⟩ :=
    access_answers_are_safe (a := columns 0 0) (b := columns 1 3) (by decide) (by decide)
      ⟨rfl, rfl, rfl⟩
  refine ⟨⟨.ofList [9, 4, 2, 14, 4], by decide, by decide, by decide, by decide⟩,
    fun params i i' o hc hc' => ?_, fun params i i' o o' hc hc' hstep hrow => ?_,
    hshared hoverlaps _ (hmem 0 0) _ (hmem 1 3)⟩
  · obtain ⟨heq, -⟩ := honce 0 (Nat.zero_le _) hreuse 0 0 _ _ rfl rfl params i i' o hc hc' (by simp)
    exact ⟨heq 0 (by decide), heq 1 (by decide)⟩
  · refine hmoves 1 (by decide) (by decide) hcoalesced _ (hmem 0 0) params i i' o o' hc hc' hstep
      fun j hj hne => ?_
    obtain rfl : j = 0 := by
      have hlt : j < 2 := hj
      omega
    exact hrow

end Access

end KernelMap
