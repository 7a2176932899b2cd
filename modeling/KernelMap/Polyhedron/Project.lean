import KernelMap.Polyhedron.Simplify

/-!
# KernelMap.Polyhedron.Project

Elimination of variables.

A variable is eliminated with an equality that involves it, if there is one, by
adding multiples of the equality to the other constraints; otherwise every lower
bound is combined with every upper bound.  Derived constraints are normalized,
which rounds their constants to the integers.  `Polyhedron.project` eliminates a
list of variables, the cheapest one first.
-/

namespace KernelMap.Polyhedron

/-! ## Derived constraints -/

/-- More constraints than this are given up on. -/
def maxConstraints : Nat := 4096

/-- Constraints derived by an elimination. -/
structure Derived where
  /-- The constraints, last one first. -/
  rows : List Constraint
  /-- A contradiction has been derived. -/
  infeasible : Bool
deriving DecidableEq, Repr

namespace Derived

/-- Nothing derived yet. -/
def none : Derived := ⟨[], false⟩

/-- Add a constraint in normal form, unless it holds everywhere. -/
def insert {ε : Type} (d : Derived) (c : Constraint) : Outcome ε Derived := do
  match ← c.normalize with
  | .none => return { d with infeasible := true }
  | some c => return if c.isConst then d else { d with rows := c :: d.rows }

/-- Add constraints in order. -/
def insertAll {ε : Type} (d : Derived) : List Constraint → Outcome ε Derived
  | [] => .ok d
  | c :: cs => do (← d.insert c).insertAll cs

end Derived

/-- The polyhedron with its constraints replaced by derived ones, simplified. -/
def replaceBy (s : Polyhedron) (d : Derived) : Outcome EngineError Polyhedron :=
  { s with constraints := d.rows.reverse, infeasible := s.infeasible || d.infeasible }.simplify

/-! ## Elimination with an equality -/

/-- The constraint with variable `v` cancelled by a multiple of the equality
`e`. -/
def cancel (e : Constraint) (v : Nat) (c : Constraint) : Outcome EngineError Constraint :=
  let a := e.coeff v
  let b := c.coeff v
  if b = 0 then .ok c
  else do
    let k₁ ← .orFault (Word.abs? a)
    let k₂ ← .orFault (Word.mul? (-a.sign) b)
    c.combine k₁ e k₂

/-- Derive from each constraint of the list the one with `v` cancelled. -/
def cancelAll (e : Constraint) (v : Nat) : List Constraint → Derived → Outcome EngineError Derived
  | [], d => .ok d
  | c :: cs, d => do cancelAll e v cs (← d.insert (← cancel e v c))

/-- Eliminate `v` with the equality at position `pos`, which is used up.  If its
coefficient of `v` is not a unit, the condition that the other terms be
divisible by it is lost. -/
def eliminateWith (s : Polyhedron) (v pos : Nat) : Outcome EngineError Polyhedron := do
  let e ← .orFault s.constraints[pos]?
  s.replaceBy (← cancelAll e v (s.constraints.eraseIdx pos) .none)

/-- The position and size of the smallest non-zero coefficient of `v` in an
equality, the first of them, among `best` and the constraints from position `i`
on. -/
def smallestEquality {ε : Type} (v : Nat) :
    Nat → List Constraint → Option (Nat × Int) → Outcome ε (Option (Nat × Int))
  | _, [], best => .ok best
  | i, c :: cs, best =>
    let a := c.coeff v
    if c.kind == .equality && a != 0 then do
      let size ← .orFault (Word.abs? a)
      let better :=
        match best with
        | some (_, least) => decide (size < least)
        | none => true
      smallestEquality v (i + 1) cs (if better then some (i, size) else best)
    else smallestEquality v (i + 1) cs best

/-! ## Elimination with inequalities -/

/-- Derive the constraints without `v` that follow from the lower bound `l` and
each upper bound of the list. -/
def pairUpper (v : Nat) (l : Constraint) : List Constraint → Derived → Outcome EngineError Derived
  | [], d => .ok d
  | u :: us, d => do
    let b ← .orFault (Word.neg? (u.coeff v))
    pairUpper v l us (← d.insert (← l.combine b u (l.coeff v)))

/-- Derive the constraints without `v` that follow from each lower bound of the
list and the upper bounds `us`. -/
def pairAll (v : Nat) (us : List Constraint) :
    List Constraint → Derived → Outcome EngineError Derived
  | [], d => .ok d
  | l :: ls, d => do
    let d ← pairUpper v l us d
    if maxConstraints < d.rows.length then .raise (.tooComplex d.rows.length)
    else pairAll v us ls d

/-- Eliminate `v`. -/
def eliminate (s : Polyhedron) (v : Nat) : Outcome EngineError Polyhedron := do
  match ← smallestEquality v 0 s.constraints none with
  | some (pos, _) => s.eliminateWith v pos
  | none =>
    let lower := s.constraints.filter fun c => decide (0 < c.coeff v)
    let upper := s.constraints.filter fun c => decide (c.coeff v < 0)
    let other := s.constraints.filter fun c => c.coeff v == 0
    let d ← Derived.insertAll .none other
    s.replaceBy (← pairAll v upper lower d)

/-! ## Choosing a variable -/

/-- How a variable occurs in a polyhedron. -/
structure Tally where
  /-- Some equality has a unit coefficient. -/
  unit : Bool
  /-- Some equality involves the variable. -/
  equality : Bool
  /-- Number of inequalities with a positive coefficient. -/
  lower : Nat
  /-- Number of inequalities with a negative coefficient. -/
  upper : Nat
  /-- Some coefficient of an equality has no magnitude. -/
  broken : Bool
deriving DecidableEq, Repr

namespace Tally

/-- A variable that does not occur. -/
def none : Tally := ⟨false, false, 0, 0, false⟩

/-- Count one more constraint, where the variable has the non-zero coefficient `a`.
Nothing counts after a unit coefficient. -/
def count (kind : Constraint.Kind) (a : Int) (t : Tally) : Tally :=
  if t.unit then t
  else
    match kind with
    | .equality =>
      match Word.abs? a with
      | some size => { t with unit := size == 1, equality := true }
      | .none => { t with equality := true, broken := true }
    | .inequality =>
        if 0 < a then { t with lower := t.lower + 1 } else { t with upper := t.upper + 1 }

/-- Does the variable occur? -/
def occurs (t : Tally) : Bool := t.equality || t.lower != 0 || t.upper != 0

/-- The cost of eliminating the variable: first its class, then the number of
constraints that the elimination derives from inequalities. -/
def cost (t : Tally) : Nat × Nat :=
  if t.unit then (0, 0)
  else if t.equality then (1, 0)
  else (2, t.lower * t.upper)

end Tally

/-- Count one more constraint for each variable, given the coefficients. -/
def Tally.countRow (kind : Constraint.Kind) : List Int → List Tally → List Tally
  | a :: as, t :: ts => (if a = 0 then t else t.count kind a) :: countRow kind as ts
  | _, _ => []

/-- The tallies of all variables. -/
def tallies (s : Polyhedron) : List Tally :=
  s.constraints.foldl (fun ts c => Tally.countRow c.kind c.coeffs ts)
    (List.replicate s.nVars Tally.none)

/-- Is cost `a` of variable `v` less than cost `b` of variable `w`? -/
def cheaper (a : Nat × Nat) (v : Nat) (b : Nat × Nat) (w : Nat) : Bool :=
  a.1 < b.1 || (a.1 == b.1 && (a.2 < b.2 || (a.2 == b.2 && v < w)))

/-- The cheapest variable of a list of variables with costs. -/
def cheapest : List (Nat × Nat × Nat) → Option (Nat × Nat × Nat) → Option Nat
  | [], best => best.map (·.1)
  | (v, c) :: rest, none => cheapest rest (some (v, c))
  | (v, c) :: rest, some (w, d) => cheapest rest (some (if cheaper c v d w then (v, c) else (w, d)))

/-! ## Projection -/

/-- The variable of the list to eliminate next, with those of the list that
occur; none if there is nothing to eliminate. -/
def nextVar? (s : Polyhedron) (vars : List Nat) : Outcome EngineError (Option (Nat × List Nat)) :=
  if s.infeasible then .ok none
  else
    let ts := s.tallies
    let left := vars.filter fun v => (ts.getD v Tally.none).occurs
    if left.any fun v => (ts.getD v Tally.none).broken then .fault
    else
      match cheapest (left.map fun v => (v, (ts.getD v Tally.none).cost)) none with
      | none => .ok none
      | some v => .ok (some (v, left))

/-- Eliminate the variables of the list that occur.  Every round eliminates one
of them for good, so `n` rounds are enough for `n` variables. -/
def projectRounds : (n : Nat) → List Nat → Polyhedron → Outcome EngineError Polyhedron
  | 0, _, s => .ok s
  | n + 1, vars, s => do
    match ← s.nextVar? vars with
    | none => return s
    | some (v, left) => projectRounds n left (← s.eliminate v)

/-- The polyhedron with the variables of the list existentially quantified.  The
numbering is kept; the variables no longer occur. -/
def project (s : Polyhedron) (vars : List Nat) : Outcome EngineError Polyhedron := do
  projectRounds vars.length vars (← s.simplify)

end KernelMap.Polyhedron
