import KernelMap.Polyhedron.Project

/-!
# KernelMap.Polyhedron.Optimum

Questions to a polyhedron: is it empty, how large can a form be, is it contained in
another polyhedron.

A polyhedron is reported empty only if it has no integer solution, and an optimum is
a bound on the form at all integer solutions.
-/

namespace KernelMap

/-- The answer to an optimization question. -/
inductive Optimum where
  /-- The form is bounded by this value. -/
  | value (v : Int)
  /-- No bound was found. -/
  | unbounded
  /-- There is no solution. -/
  | empty
deriving DecidableEq, Repr

namespace Polyhedron

/-- Has the polyhedron provably no integer solution? -/
def isEmpty (s : Polyhedron) : Outcome EngineError Bool :=
  if s.infeasible then .ok true
  else if Index.maxLength < s.nVars then .fault
  else do return (← s.project (List.range s.nVars)).infeasible

/-- The upper bound on variable `t` that follows from a constraint on `t`
alone. -/
def upperBound? (t : Nat) (c : Constraint) : Outcome EngineError (Option Int) :=
  let a := c.coeff t
  match c.kind with
  | .equality =>
    if a = 0 then .ok none
    else do
      let num ← .orOverflow (Word.neg? c.constant)
      return some (← .orFault (Word.floorDiv? num a))
  | .inequality =>
    if a < 0 then do
      let den ← .orOverflow (Word.neg? a)
      return some (← .orFault (Word.floorDiv? c.constant den))
    else .ok none

/-- The least upper bound on `t` among `best` and those of the constraints. -/
def leastUpper (t : Nat) : List Constraint → Option Int → Outcome EngineError (Option Int)
  | [], best => .ok best
  | c :: cs, best => do
    match ← upperBound? t c with
    | none => leastUpper t cs best
    | some b => leastUpper t cs (some (best.elim b (min · b)))

/-- The polyhedron with one further variable that is equal to the objective. -/
def withObjective (s : Polyhedron) (objective : Affine) : Outcome EngineError Polyhedron := do
  let t ← s.addVars 1
  if Index.maxLength < t.nVars then
    .fault
  else
    let coeffs ← .orOverflow (Coeffs.negate? (Coeffs.pad s.nVars (objective.coeffs.take s.nVars)))
    let constant ← .orOverflow (Word.neg? objective.constant)
    t.add (.eq ⟨coeffs ++ [1], constant⟩)

/-- An upper bound on `objective` over the solutions: a fresh variable is equated
with it and all others are projected out. -/
def maximize (s : Polyhedron) (objective : Affine) : Outcome EngineError Optimum :=
  if s.infeasible then .ok .empty
  else do
    let u ← s.withObjective objective
    let p ← u.project (List.range s.nVars)
    if p.infeasible then
      return .empty
    else
      return (← leastUpper s.nVars p.constraints none).elim .unbounded .value

/-- A lower bound on `objective` over the solutions. -/
def minimize (s : Polyhedron) (objective : Affine) : Outcome EngineError Optimum := do
  match ← s.maximize (← objective.scale (-1)) with
  | .value v => return .value (← .orOverflow (Word.neg? v))
  | other => return other

/-- Is the polyhedron with each of the constraints added, one at a time, empty? -/
def refutesAll (s : Polyhedron) : List Constraint → Outcome EngineError Bool
  | [] => .ok true
  | c :: cs => do
    if ← (← s.add c).isEmpty then refutesAll s cs else return false

/-- Do the constraints provably hold on all of `s`? -/
def entailsAll (s : Polyhedron) : List Constraint → Outcome EngineError Bool
  | [] => .ok true
  | c :: cs => do
    if ← s.refutesAll (← c.negated) then entailsAll s cs else return false

/-- Is `s` provably contained in `t`? -/
def subset (s t : Polyhedron) : Outcome EngineError Bool :=
  if t.infeasible then s.isEmpty else s.entailsAll t.constraints

end Polyhedron

end KernelMap
