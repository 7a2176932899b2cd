import KernelMap.Access.Extent
import KernelMap.Proofs.Polyhedron
import KernelMap.Scope.Coverage
import KernelMap.Tile.Basic

/-!
# KernelMap.Proofs.EngineCauses

Which causes the constraint engine reports.

The engine reports three causes: a number left the word range, an elimination made too many
constraints, or objects of different spaces were combined.  The last is a mistake of the caller.  Of
the functions that look for it, compiling uses `Access.build`, `Access.overlaps` and `Bound.infer`.
On objects that fit together these report arithmetic causes only, as the others do on all
(`Outcome.NoMismatch`).
-/

namespace KernelMap

/-! ## outcomes -/

namespace Outcome

variable {ε δ α β : Type} {P : ε → Prop}

/-- Every cause that the outcome reports satisfies `P`. -/
def ReportsOnly (P : ε → Prop) (x : Outcome ε α) : Prop := ∀ e, x = .error (.error e) → P e

@[simp] theorem reportsOnly_ok (a : α) : ReportsOnly P (.ok a) := nofun

@[simp] theorem reportsOnly_pure (a : α) : ReportsOnly P (pure a) := nofun

/-- A fault reports no cause. -/
@[simp] theorem reportsOnly_fault : ReportsOnly P (fault : Outcome ε α) := nofun

@[simp] theorem reportsOnly_orFault (x : Option α) : ReportsOnly P (orFault x) := by
  cases x <;> nofun

/-- A raised cause is the one that is reported. -/
@[simp] theorem reportsOnly_raise {cause : ε} :
    ReportsOnly P (raise cause : Outcome ε α) ↔ P cause := by
  simp [ReportsOnly, raise]

/-- The cause is reported only where there is no value. -/
@[simp] theorem reportsOnly_orRaise {cause : ε} {x : Option α} :
    ReportsOnly P (orRaise cause x) ↔ (x = none → P cause) := by
  cases x <;> simp [orRaise]

/-- Two steps report what the first does, and after it what the second does. -/
@[simp] theorem reportsOnly_bind {x : Outcome ε α} {f : α → Outcome ε β} :
    ReportsOnly P (x >>= f) ↔ ReportsOnly P x ∧ ∀ a, x = .ok a → ReportsOnly P (f a) := by
  cases x with
  | ok a => simp [bind, Except.bind]
  | error e => simp [bind, Except.bind, ReportsOnly]

/-- Applying a function to the result reports nothing more. -/
@[simp] theorem reportsOnly_map {x : Outcome ε α} {f : α → β} :
    ReportsOnly P (f <$> x) ↔ ReportsOnly P x := by
  cases x with
  | ok a => simp [Functor.map, Except.map]
  | error e => simp [Functor.map, Except.map, ReportsOnly]

/-- A choice reports what the branch that is taken does. -/
@[simp] theorem reportsOnly_ite {c : Prop} [Decidable c] {x y : Outcome ε α} :
    ReportsOnly P (if c then x else y) ↔ (c → ReportsOnly P x) ∧ (¬ c → ReportsOnly P y) := by
  split <;> simp [*]

/-- Widened causes satisfy a property if the causes satisfy it once they are widened. -/
theorem reportsOnly_widen {f : ε → δ} {Q : δ → Prop} {x : Outcome ε α} :
    ReportsOnly Q (widen f x) ↔ ReportsOnly (fun e => Q (f e)) x := by
  cases x with
  | ok a => simp [widen]
  | error e => cases e <;> simp [widen, Failure.map, ReportsOnly]

/-- A weaker property holds of the causes as well. -/
theorem ReportsOnly.imp {Q : ε → Prop} {x : Outcome ε α} (h : ReportsOnly P x)
    (hPQ : ∀ e, P e → Q e) : ReportsOnly Q x :=
  fun e he => hPQ e (h e he)

/-- A computation on each element of a list reports what one of them does. -/
theorem reportsOnly_mapM {f : α → Outcome ε β} {xs : List α} (h : ∀ x ∈ xs, ReportsOnly P (f x)) :
    ReportsOnly P (xs.mapM f) := by
  induction xs with
  | nil => simp
  | cons x xs ih =>
      obtain ⟨hx, hxs⟩ := List.forall_mem_cons.mp h
      simp [List.mapM_cons, hx, ih hxs]

/-- Looking for an element reports what one of the tests does. -/
theorem reportsOnly_anyM {f : α → Outcome ε Bool} {xs : List α}
    (h : ∀ x ∈ xs, ReportsOnly P (f x)) : ReportsOnly P (xs.anyM f) := by
  induction xs with
  | nil => simp [List.anyM]
  | cons x xs ih =>
      obtain ⟨hx, hxs⟩ := List.forall_mem_cons.mp h
      simp only [List.anyM, reportsOnly_bind, hx, true_and]
      rintro (_ | _) -
      · exact ih hxs
      · simp

/-- Testing all elements reports what one of the tests does. -/
theorem reportsOnly_allM {f : α → Outcome ε Bool} {xs : List α}
    (h : ∀ x ∈ xs, ReportsOnly P (f x)) : ReportsOnly P (xs.allM f) := by
  induction xs with
  | nil => simp [List.allM]
  | cons x xs ih =>
      obtain ⟨hx, hxs⟩ := List.forall_mem_cons.mp h
      simp only [List.allM, reportsOnly_bind, hx, true_and]
      rintro (_ | _) -
      · simp
      · exact ih hxs

end Outcome

/-- The numbers got too large or the constraints too many; the objects fit together. -/
def EngineError.IsArithmetic : EngineError → Prop
  | .spaceMismatch _ => False
  | _ => True

namespace Outcome

variable {α : Type}

/-- No mismatch is reported. -/
abbrev NoMismatch (x : Outcome EngineError α) : Prop := ReportsOnly EngineError.IsArithmetic x

@[simp] theorem isArithmetic_overflow : EngineError.overflow.IsArithmetic := trivial

@[simp] theorem isArithmetic_tooComplex (n : Nat) : (EngineError.tooComplex n).IsArithmetic :=
  trivial

/-- An overflow is not a mismatch. -/
@[simp] theorem noMismatch_orOverflow (x : Option α) : NoMismatch (orOverflow x) := by
  simp [orOverflow, NoMismatch]

end Outcome

open Outcome

/-! ## operations that only fault -/

section Never

variable {ε : Type} {P : ε → Prop}

/-- Renaming the variables of a form has no cause to report. -/
@[simp] theorem Affine.reportsOnly_remapped (a : Affine) (map : List Nat) :
    ReportsOnly P (a.remapped map) := by
  unfold remapped
  generalize const a.constant = out, a.coeffs = cs
  fun_induction @remapOnto ε cs map out <;> simp_all

@[simp] theorem Constraint.reportsOnly_ofTerms (kind : Kind) (terms : List (Nat × Int)) (k : Int) :
    ReportsOnly P (ofTerms kind terms k) := by
  have hadd : ∀ cs, ReportsOnly P (addTerms terms cs) := by
    induction terms with
    | nil => simp [addTerms]
    | cons t terms ih => simp [addTerms, ih]
  simp [ofTerms, hadd]

@[simp] theorem Constraint.reportsOnly_lower (c : Constraint) (map : List Nat) :
    ReportsOnly P (c.lower map) := by
  have hplace : ∀ cs, ReportsOnly P (placeTerms cs map) := by
    intro cs
    fun_induction @placeTerms ε cs map <;> simp_all
  simp [lower, hplace]

@[simp] theorem Constraint.reportsOnly_normalize (c : Constraint) : ReportsOnly P c.normalize := by
  simp only [normalize, reportsOnly_bind, reportsOnly_orFault, true_and]
  intro g _
  split
  · simp
  · split <;> simp

namespace Polyhedron

@[simp] theorem reportsOnly_addVars (s : Polyhedron) (n : Nat) : ReportsOnly P (s.addVars n) := by
  simp [addVars]

/-- Adding a constraint has no cause to report. -/
@[simp] theorem reportsOnly_add (s : Polyhedron) (c : Constraint) : ReportsOnly P (s.add c) := by
  simp only [add_eq_bind, reportsOnly_bind, reportsOnly_ite]
  refine ⟨by simp, fun t _ => ⟨by simp, fun _ => ⟨by simp, ?_⟩⟩⟩
  rintro (_ | d) - <;> simp

@[simp] theorem reportsOnly_addAll (s : Polyhedron) (cs : List Constraint) :
    ReportsOnly P (s.addAll cs) := by
  induction cs generalizing s with
  | nil => simp [addAll]
  | cons c cs ih => simp [addAll, ih]

@[simp] theorem reportsOnly_addTerms (s : Polyhedron) (kind : Constraint.Kind)
    (terms : List (Nat × Int)) (k : Int) : ReportsOnly P (s.addTerms kind terms k) := by
  simp [addTerms]

@[simp] theorem reportsOnly_addAllLowered (s : Polyhedron) (map : List Nat) (cs : List Constraint) :
    ReportsOnly P (s.addAllLowered map cs) := by
  induction cs generalizing s with
  | nil => simp [addAllLowered]
  | cons c cs ih => simp [addAllLowered, addLowered, ih]

/-- Intersecting has no cause to report, as systems need not have the same variables. -/
@[simp] theorem reportsOnly_intersect (s t : Polyhedron) : ReportsOnly P (s.intersect t) := by
  simp [intersect]

@[simp] theorem reportsOnly_embed (s : Polyhedron) (n : Nat) (map : List Nat) :
    ReportsOnly P (s.embed n map) := by
  have hcoeffs : ∀ cs out, ReportsOnly P (embedCoeffs cs map out) := by
    intro cs out
    fun_induction @embedCoeffs ε cs map out <;> simp_all
  unfold embed
  generalize ({ empty n with infeasible := s.infeasible } : Polyhedron) = t, s.constraints = cs
  induction cs generalizing t with
  | nil => simp [embedOnto]
  | cons c cs ih => simp [embedOnto, hcoeffs, ih]

@[simp] theorem reportsOnly_smallestEquality (v i : Nat) (cs : List Constraint)
    (best : Option (Nat × Int)) : ReportsOnly P (smallestEquality v i cs best) := by
  induction cs generalizing i best with
  | nil => simp [smallestEquality]
  | cons c cs ih => simp [smallestEquality, ih]

@[simp] theorem Derived.reportsOnly_insert (d : Derived) (c : Constraint) :
    ReportsOnly P (d.insert c) := by
  simp only [insert, reportsOnly_bind, Constraint.reportsOnly_normalize, true_and]
  rintro (_ | e) - <;> simp

@[simp] theorem Derived.reportsOnly_insertAll (d : Derived) (cs : List Constraint) :
    ReportsOnly P (d.insertAll cs) := by
  induction cs generalizing d with
  | nil => simp [insertAll]
  | cons c cs ih => simp [insertAll, ih]

end Polyhedron

@[simp] theorem Space.reportsOnly_floor (s : Space) (a : Affine) (den : Int) :
    ReportsOnly P (s.floor a den) := by
  have hdivision : ReportsOnly P (s.addDivision a den) := by
    unfold addDivision
    split
    · simp
    · split <;> simp
  simp [floor, hdivision]

end Never

/-! ## forms and constraints -/

@[simp] theorem Affine.noMismatch_add (a b : Affine) : NoMismatch (a.add b) :=
  noMismatch_orOverflow _

@[simp] theorem Affine.noMismatch_scale (a : Affine) (k : Int) : NoMismatch (a.scale k) :=
  noMismatch_orOverflow _

@[simp] theorem Affine.noMismatch_sub (a b : Affine) : NoMismatch (a.sub b) := by simp [sub]

@[simp] theorem Affine.noMismatch_addConst (a : Affine) (k : Int) : NoMismatch (a.addConst k) := by
  simp [addConst]

@[simp] theorem Constraint.noMismatch_combine (c d : Constraint) (k₁ k₂ : Int) :
    NoMismatch (c.combine k₁ d k₂) := by
  simp [combine]

@[simp] theorem Constraint.noMismatch_negated (c : Constraint) : NoMismatch c.negated :=
  noMismatch_orOverflow _

@[simp] theorem Space.noMismatch_modulo (s : Space) (a : Affine) (den : Int) :
    NoMismatch (s.modulo a den) := by
  simp [modulo]

/-- Writing down the definitions of divisions reports no mismatch. -/
@[simp] theorem Space.noMismatch_constraints (s : Space) : NoMismatch s.constraints := by
  have hfrom : ∀ q ds, NoMismatch (constraintsFrom q ds) := by
    intro q ds
    induction ds generalizing q with
    | nil => simp [constraintsFrom]
    | cons d ds ih => simp [constraintsFrom, divisionConstraints, ih]
  exact hfrom _ _

namespace Polyhedron

/-! ## simplification and elimination -/

@[simp] theorem noMismatch_simplify (s : Polyhedron) : NoMismatch s.simplify := by
  have hmeet : ∀ all h r, NoMismatch (Reduction.meet all h r) := by
    intro all h r
    simp only [Reduction.meet, reportsOnly_ite, reportsOnly_ok, reportsOnly_raise,
      isArithmetic_overflow, implies_true, true_and]
    intro _ _
    split
    · simp
    · simp only [reportsOnly_bind, reportsOnly_ite, noMismatch_orOverflow,
        Constraint.reportsOnly_normalize, true_and]
      refine fun _ _ => ⟨by simp, fun _ => ⟨fun _ => ?_, by simp⟩⟩
      rintro (_ | e) - <;> simp
  have hmeetAll : ∀ all hs r, NoMismatch (Reduction.meetAll all hs r) := by
    intro all hs r
    induction hs generalizing r with
    | nil => simp [Reduction.meetAll]
    | cons h hs ih => simp [Reduction.meetAll, hmeet, ih]
  have habsorb : ∀ all e r, NoMismatch (Reduction.absorb all e r) := by
    intro all e r
    simp only [Reduction.absorb, reportsOnly_ite, reportsOnly_raise, isArithmetic_overflow,
      implies_true, true_and]
    intro _
    unfold Reduction.dropOpposite
    split <;> simp
  have habsorbAll : ∀ all es r, NoMismatch (Reduction.absorbAll all es r) := by
    intro all es r
    induction es generalizing r with
    | nil => simp [Reduction.absorbAll]
    | cons e es ih => simp [Reduction.absorbAll, habsorb, ih]
  simp [simplify, hmeetAll, habsorbAll]

@[simp] theorem noMismatch_eliminateWith (s : Polyhedron) (v pos : Nat) :
    NoMismatch (s.eliminateWith v pos) := by
  have hcancel : ∀ e cs d, NoMismatch (cancelAll e v cs d) := by
    intro e cs d
    induction cs generalizing d with
    | nil => simp [cancelAll]
    | cons c cs ih => simp [cancelAll, cancel, ih]
  simp [eliminateWith, replaceBy, hcancel]

/-- Eliminating a variable reports an overflow or too many constraints, if anything. -/
@[simp] theorem noMismatch_eliminate (s : Polyhedron) (v : Nat) : NoMismatch (s.eliminate v) := by
  have hupper : ∀ l us d, NoMismatch (pairUpper v l us d) := by
    intro l us d
    induction us generalizing d with
    | nil => simp [pairUpper]
    | cons u us ih => simp [pairUpper, ih]
  have hpairs : ∀ us ls d, NoMismatch (pairAll v us ls d) := by
    intro us ls d
    induction ls generalizing d with
    | nil => simp [pairAll]
    | cons l ls ih => simp [pairAll, hupper, ih]
  simp only [eliminate, reportsOnly_bind, reportsOnly_smallestEquality, true_and]
  rintro (_ | ⟨pos, size⟩) -
  · simp [replaceBy, hpairs]
  · simp

@[simp] theorem noMismatch_project (s : Polyhedron) (vars : List Nat) :
    NoMismatch (s.project vars) := by
  have hnext : ∀ (s : Polyhedron) vars, NoMismatch (s.nextVar? vars) := by
    intro s vars
    simp only [nextVar?, reportsOnly_ite, reportsOnly_ok, reportsOnly_fault, implies_true, true_and]
    intro _ _
    split <;> simp
  have hrounds : ∀ n vars s, NoMismatch (projectRounds n vars s) := by
    intro n
    induction n with
    | zero => simp [projectRounds]
    | succ n ih =>
        intro vars s
        simp only [projectRounds, reportsOnly_bind, hnext, true_and]
        rintro (_ | ⟨v, left⟩) - <;> simp [ih]
  simp [project, hrounds]

/-! ## questions -/

/-- The test for emptiness reports no mismatch. -/
@[simp] theorem noMismatch_isEmpty (s : Polyhedron) : NoMismatch s.isEmpty := by simp [isEmpty]

@[simp] theorem noMismatch_withObjective (s : Polyhedron) (a : Affine) :
    NoMismatch (s.withObjective a) := by
  simp [withObjective]

/-- Maximizing reports no mismatch, whatever the form has for variables. -/
@[simp] theorem noMismatch_maximize (s : Polyhedron) (a : Affine) : NoMismatch (s.maximize a) := by
  have hupper : ∀ t c, NoMismatch (upperBound? t c) := by
    intro t c
    unfold upperBound?
    dsimp only
    split <;> simp
  have hleast : ∀ t cs best, NoMismatch (leastUpper t cs best) := by
    intro t cs
    induction cs with
    | nil => simp [leastUpper]
    | cons c cs ih =>
        intro best
        simp only [leastUpper, reportsOnly_bind, hupper, true_and]
        rintro (_ | b) - <;> simp [ih]
  simp [maximize, hleast]

@[simp] theorem noMismatch_minimize (s : Polyhedron) (a : Affine) : NoMismatch (s.minimize a) := by
  simp only [minimize, reportsOnly_bind, noMismatch_maximize, Affine.noMismatch_scale, true_and]
  rintro _ - (_ | _ | _) - <;> simp

/-- The test for inclusion reports no mismatch. -/
@[simp] theorem noMismatch_subset (s t : Polyhedron) : NoMismatch (s.subset t) := by
  have hrefutes : ∀ cs, NoMismatch (s.refutesAll cs) := by
    intro cs
    induction cs with
    | nil => simp [refutesAll]
    | cons c cs ih => simp [refutesAll, ih]
  have hentails : ∀ cs, NoMismatch (s.entailsAll cs) := by
    intro cs
    induction cs with
    | nil => simp [entailsAll]
    | cons c cs ih => simp [entailsAll, hrefutes, ih]
  simp [subset, hentails]

/-! ## making equalities explicit -/

/-- Detecting equations reports no mismatch. -/
@[simp] theorem noMismatch_detectEqualities (s : Polyhedron) : NoMismatch s.detectEqualities := by
  have htighten : ∀ s i c, NoMismatch (tightenAt s i c) := by
    intro s i c
    simp only [tightenAt, reportsOnly_bind, Constraint.reportsOnly_normalize, true_and]
    rintro (_ | e) - <;> simp
  have hround : ∀ i s, NoMismatch (tightenRound i s) := by
    intro i s
    simp only [tightenRound, reportsOnly_ite, reportsOnly_ok, implies_true, true_and]
    intro _
    split
    · simp
    split
    · simp
    · simp only [reportsOnly_bind, noMismatch_maximize, true_and]
      rintro (v | _ | _) - <;> simp [htighten]
  have hrounds : ∀ n i s, NoMismatch (tightenRounds n i s) := by
    intro n
    induction n with
    | zero => simp [tightenRounds]
    | succ n ih =>
        intro i s
        simp only [tightenRounds, reportsOnly_bind, hround, true_and]
        rintro (_ | ⟨j, t⟩) - <;> simp [ih]
  simp [detectEqualities, hrounds]

@[simp] theorem noMismatch_fixDetermined (s : Polyhedron) (start stop : Nat) :
    NoMismatch (s.fixDetermined start stop) := by
  have hvar : ∀ s v, NoMismatch (fixVar s v) := by
    intro s v
    simp only [fixVar, reportsOnly_ite, reportsOnly_ok, reportsOnly_bind, noMismatch_maximize,
      noMismatch_minimize, implies_true, true_and]
    intros
    split <;> simp
  have hvars : ∀ vs s, NoMismatch (fixVars s vs) := by
    intro vs
    induction vs with
    | nil => simp [fixVars]
    | cons v vs ih => simp [fixVars, hvar, ih]
  simp [fixDetermined, hvars]

@[simp] theorem noMismatch_ofConstraints (n : Nat) (cs : List Constraint) :
    NoMismatch (ofConstraints n cs) := by
  simp [ofConstraints]

@[simp] theorem noMismatch_vanishes (s : Polyhedron) (a : Affine) : NoMismatch (s.vanishes a) :=
  reportsOnly_allM fun sign _ => by simp

end Polyhedron

/-! ## relations -/

@[simp] theorem StmtSchedule.noMismatch_tightened (s : StmtSchedule) (context : List Constraint) :
    NoMismatch (s.tightened context) := by
  simp [tightened, polyhedron, allConstraints]

@[simp] theorem StmtSchedule.noMismatch_lift (s : StmtSchedule) (a : Affine) :
    NoMismatch (s.lift a) := by
  simp [lift]

@[simp] theorem StmtSchedule.noMismatch_liftConstraint (s : StmtSchedule) (c : Constraint) :
    NoMismatch (s.liftConstraint c) := by
  simp [liftConstraint]

namespace Access

/-- The relation of one reference is made without a mismatch. -/
@[simp] theorem noMismatch_relationOf (nParam : Nat) (context : List Constraint)
    (sched : StmtSchedule) (r : Reference) (depth : Nat) :
    NoMismatch (relationOf nParam context sched r depth) := by
  have hequate : ∀ map v as s, NoMismatch (equateFrom map v as s) := by
    intro map v as
    induction as generalizing v with
    | nil => simp [equateFrom]
    | cons a as ih => simp [equateFrom, ih]
  have houtput : ∀ map v s i, NoMismatch (constrainOutput sched map v s i) := by
    intro map v s i
    cases i <;> simp [constrainOutput]
  have houtputs : ∀ map v is s, NoMismatch (constrainOutputs sched map v is s) := by
    intro map v is
    induction is generalizing v with
    | nil => simp [constrainOutputs]
    | cons i is ih => simp [constrainOutputs, houtput, ih]
  simp [relationOf, StmtSchedule.allConstraints, hequate, houtputs]

/-- A reference has a relation if it has the number of subscripts and its statement the parameters
and coordinates. -/
theorem noMismatch_pieceOf {nParam depth nOut : Nat} {context : List Constraint}
    {item : StmtSchedule × Reference} (hsubscripts : item.2.subscripts.length = nOut)
    (hparam : nParam ≤ item.1.space.nParam) (hdepth : depth ≤ item.1.dims.length) :
    NoMismatch (pieceOf nParam context depth nOut item) := by
  simp [pieceOf, hsubscripts, hparam, hdepth]

/-- An access is built without a mismatch if its references have as many subscripts, and the
statements the parameters and coordinates asked for. -/
theorem noMismatch_build (nOut : Nat) {nParam depth : Nat} {context : List Constraint}
    {items : List (StmtSchedule × Reference)}
    (h : ∀ item ∈ items, item.2.subscripts.length = nOut ∧ nParam ≤ item.1.space.nParam ∧
      depth ≤ item.1.dims.length) :
    NoMismatch (build nParam context items depth) := by
  have hout : ∀ item ∈ items,
      item.2.subscripts.length = items.head?.elim 0 (·.2.subscripts.length) := by
    intro item hitem
    obtain ⟨first, rest, rfl⟩ := List.exists_cons_of_ne_nil (List.ne_nil_of_mem hitem)
    exact (h item hitem).1.trans (h first (by simp)).1.symm
  simp only [build, reportsOnly_bind, reportsOnly_pure, implies_true, and_true]
  exact reportsOnly_mapM fun item hitem => noMismatch_pieceOf (hout item hitem) (h item hitem).2.1
    (h item hitem).2.2

@[simp] theorem noMismatch_selectOut (a : Access) (d : Nat) : NoMismatch (a.selectOut d) := by
  simp only [selectOut, reportsOnly_bind, reportsOnly_pure, implies_true, and_true]
  exact reportsOnly_mapM fun p _ => by simp [Piece.selectOut]

end Access

/-- Inferring the extent of an array reports no mismatch. -/
@[simp] theorem Extent.noMismatch_infer (a : Access) : NoMismatch (infer a) := by
  have hvalid : ∀ x side relations rest, NoMismatch (isValid x side relations rest) := by
    intro x side relations rest
    simp only [isValid, reportsOnly_bind, Affine.noMismatch_sub,
      Affine.noMismatch_addConst, true_and]
    exact fun _ _ _ _ => reportsOnly_allM fun s _ => by simp
  have hside : ∀ x side relations cs, NoMismatch (sideOf x side relations cs) := by
    intro x side relations cs
    induction cs with
    | nil => simp [sideOf]
    | cons c cs ih =>
        unfold sideOf
        split
        · exact ih
        · simp [hvalid, ih]
  have hproject : ∀ x ss, NoMismatch (projectAll x ss) := by
    intro x ss
    induction ss with
    | nil => simp [projectAll]
    | cons s ss ih => simp [projectAll, ih]
  exact reportsOnly_mapM fun d _ => by simp [ofOutput, hproject, hside]

/-! ## comparing relations -/

namespace Pairing

variable (p : Pairing)

@[simp] theorem noMismatch_ofPieces (nParam nIn nOut : Nat) (a b : Access.Piece) :
    NoMismatch (ofPieces nParam nIn nOut a b) := by
  simp [ofPieces]

@[simp] theorem noMismatch_equate (x y : Nat) (s : Polyhedron) : NoMismatch (equate x y s) := by
  simp [equate]

@[simp] theorem noMismatch_exceed (x y : Nat) (k : Int) (s : Polyhedron) :
    NoMismatch (exceed x y k s) := by
  simp [exceed]

@[simp] theorem noMismatch_equateInputs (js : List Nat) (s : Polyhedron) :
    NoMismatch (p.equateInputs js s) := by
  induction js generalizing s with
  | nil => simp [equateInputs]
  | cons j js ih => simp [equateInputs, ih]

@[simp] theorem noMismatch_withInputs (js : List Nat) : NoMismatch (p.withInputs js) := by
  simp [withInputs]

@[simp] theorem noMismatch_withOutputs : NoMismatch p.withOutputs := by
  have houtputs : ∀ ds s, NoMismatch (p.equateOutputs ds s) := by
    intro ds
    induction ds with
    | nil => simp [equateOutputs]
    | cons d ds ih => simp [equateOutputs, ih]
  simp [withOutputs, houtputs]

@[simp] theorem noMismatch_laterPossible (equal : Polyhedron) (js : List Nat) :
    NoMismatch (p.laterPossible equal js) := by
  induction js generalizing equal with
  | nil => simp [laterPossible]
  | cons j js ih => simp [laterPossible, ih]

@[simp] theorem noMismatch_outputsDiffer (ds : List Nat) : NoMismatch (p.outputsDiffer ds) := by
  induction ds with
  | nil => simp [outputsDiffer]
  | cons d ds ih => simp [outputsDiffer, exceedPossible, ih]

end Pairing

namespace Access

variable (a : Access)

@[simp] theorem noMismatch_pair (x y : Piece) : NoMismatch (a.pair x y) := by simp [pair]

/-- A search over all pairs reports what one of the tests does. -/
theorem noMismatch_anyPair {α β : Type} {test : α → β → Outcome EngineError Bool}
    (h : ∀ x y, NoMismatch (test x y)) (xs : List α) (ys : List β) :
    NoMismatch (anyPair test xs ys) :=
  reportsOnly_anyM fun x _ => reportsOnly_anyM fun y _ => h x y

/-- Accesses with inputs and outputs of one shape can be compared. -/
theorem noMismatch_overlaps {b : Access} (hin : a.nIn = b.nIn) (hout : a.nOut = b.nOut) :
    NoMismatch (a.overlaps b) := by
  rw [overlaps, if_pos ⟨hin, hout⟩]
  exact noMismatch_anyPair (fun x y => by simp [meet]) _ _

/-- The test for reuse reports no mismatch. -/
@[simp] theorem noMismatch_hasReuse (start : Nat) : NoMismatch (a.hasReuse start) :=
  noMismatch_anyPair (fun x y => by simp [reuse]) _ _

@[simp] theorem noMismatch_isCoalesced (pos : Option Nat) : NoMismatch (a.isCoalesced pos) := by
  cases pos with
  | none => simp [isCoalesced]
  | some pos =>
      simp only [isCoalesced, reportsOnly_ite, reportsOnly_ok, implies_true, true_and]
      exact fun _ => reportsOnly_allM fun x _ => by simp [movesByOne]

@[simp] theorem noMismatch_isExclusive (start lo hi : Nat) :
    NoMismatch (a.isExclusive start lo hi) := by
  have hcontested : ∀ x y, NoMismatch (a.contested start (positions lo hi) x y) := fun x y => by
    simp [contested]
  simp [isExclusive, noMismatch_anyPair hcontested]

@[simp] theorem noMismatch_isSingleValued : NoMismatch a.isSingleValued := by
  have hdivergent : ∀ x y, NoMismatch (a.divergent x y) := fun x y => by simp [divergent]
  simp [isSingleValued, noMismatch_anyPair hdivergent]

@[simp] theorem noMismatch_dependsOn (q : Nat) : NoMismatch (a.dependsOn q) := by
  simp only [dependsOn, reportsOnly_ite, reportsOnly_ok, implies_true, true_and]
  exact fun _ => reportsOnly_anyM fun x _ => by simp [moves]

end Access

/-! ## tiles -/

namespace Polyhedron

@[simp] theorem noMismatch_prepareAll (x : Nat) (ss : List Polyhedron) :
    NoMismatch (prepareAll x ss) := by
  have hrounds : ∀ n s, NoMismatch (substituteRounds x n s) := by
    intro n
    induction n with
    | zero => simp [substituteRounds]
    | succ n ih =>
        intro s
        unfold substituteRounds
        split <;> simp [ih]
  induction ss with
  | nil => simp [prepareAll]
  | cons s ss ih => simp [prepareAll, prepare, hrounds, ih]

@[simp] theorem noMismatch_commonStride (x : Nat) (ss : List Polyhedron) (common : Option Stride) :
    NoMismatch (commonStride x ss common) := by
  have hlargest : ∀ cs best, NoMismatch (largestStride x cs best) := by
    intro cs
    induction cs with
    | nil => simp [largestStride]
    | cons c cs ih => simp [largestStride, strideOf, ih]
  induction ss generalizing common with
  | nil => simp [commonStride]
  | cons s ss ih =>
      simp only [commonStride, reportsOnly_bind, hlargest, true_and]
      rintro (_ | found) -
      · simp
      · cases common <;> simp [ih]

@[simp] theorem noMismatch_projectOutput (x : Nat) (stride : Option Stride) (s : Polyhedron) :
    NoMismatch (projectOutput x stride s) := by
  cases stride <;> simp [projectOutput, applyStride]

end Polyhedron

namespace Candidate

@[simp] theorem noMismatch_collect (x : Nat) (cs : List Constraint) (found : List Candidate) :
    NoMismatch (collect x cs found) := by
  induction cs generalizing found with
  | nil => simp [collect]
  | cons c cs ih =>
      simp only [collect, reportsOnly_bind]
      refine ⟨by simp [ofConstraint], ?_⟩
      rintro (_ | k) - <;> simp [ih]

@[simp] theorem noMismatch_choose (x : Nat) (relations : List Polyhedron) (cs : List Candidate)
    (best : Option (Int × Candidate)) : NoMismatch (choose x relations cs best) := by
  have hvalid : ∀ c, NoMismatch (isValid x relations c) := by
    intro c
    simp only [isValid, reportsOnly_bind, Affine.noMismatch_sub,
      Affine.noMismatch_addConst, true_and]
    exact fun _ _ _ _ => reportsOnly_allM fun s _ => by simp
  have hsize : ∀ c ss best, NoMismatch (size x c ss best) := by
    intro c ss
    induction ss with
    | nil => simp [size]
    | cons s ss ih =>
        intro best
        simp only [size, reportsOnly_bind]
        refine ⟨by simp [objective], fun _ _ => ⟨by simp, ?_⟩⟩
        rintro (v | _ | _) - <;> simp [ih]
  induction cs generalizing best with
  | nil => simp [choose]
  | cons c cs ih =>
      simp only [choose, reportsOnly_bind, reportsOnly_ite, hvalid, hsize, ih, implies_true,
        true_and, and_true]
      rintro _ - - (_ | n) - <;> simp [ih]

end Candidate

/-- A bound is inferred for one output at a time. -/
@[simp] theorem Tile.noMismatch_infer? (a : Access) : NoMismatch (infer? a) := by
  have hbound : ∀ d s, a.selectOut d = .ok s → NoMismatch (Bound.infer s) := by
    intro d s hs
    simp only [Access.selectOut, Outcome.bind_eq_ok, Outcome.pure_eq_ok] at hs
    obtain ⟨pieces, -, rfl⟩ := hs
    simp only [Bound.infer, ne_eq, not_true_eq_false, if_false, reportsOnly_bind, reportsOnly_ite,
      Polyhedron.noMismatch_prepareAll, Polyhedron.noMismatch_commonStride,
      Candidate.noMismatch_collect, Candidate.noMismatch_choose, true_and]
    refine fun _ _ =>
      ⟨by simp, fun _ stride _ => ⟨reportsOnly_mapM fun _ _ => by simp, fun _ _ _ _ => ?_⟩⟩
    rintro (_ | ⟨n, c⟩) - <;> simp
  have hbounds : ∀ ds, NoMismatch (inferBounds a ds) := by
    intro ds
    induction ds with
    | nil => simp [inferBounds]
    | cons d ds ih =>
        simp only [inferBounds, reportsOnly_bind, Access.noMismatch_selectOut, true_and]
        refine fun s hs => ⟨hbound d s hs, ?_⟩
        rintro (_ | b) - <;> simp [ih]
  simp [infer?, hbounds]

end KernelMap
