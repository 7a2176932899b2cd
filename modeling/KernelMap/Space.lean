import KernelMap.Constraint.Basic

/-!
# KernelMap.Space

The variables of a statement: parameters, iterators and floor divisions.

A division is a variable defined by `⌊num / den⌋`, where `num` may use
parameters, iterators and earlier divisions.  Divisions turn quotients and
remainders into affine forms of the extended space.
-/

namespace KernelMap

/-- The quantity `⌊num / den⌋`. -/
structure Division where
  num : Affine
  den : Int
deriving DecidableEq, Repr

/-- A space with variables `[parameters | iterators | divisions]`. -/
structure Space where
  nParam : Nat
  nIter : Nat
  divs : List Division
deriving DecidableEq, Repr

/-- The same quantity, up to trailing zeros of the numerator. -/
def Division.same (d e : Division) : Bool := d.num.same e.num && d.den == e.den

namespace Space

/-! ## Layout -/

/-- The space without divisions. -/
def ofSizes (nParam nIter : Nat) : Space := ⟨nParam, nIter, []⟩

/-- The first division variable. -/
def divOffset (s : Space) : Nat := s.nParam + s.nIter

/-- The number of variables. -/
def dim (s : Space) : Nat := s.divOffset + s.divs.length

/-! ## Divisions -/

/-- The variable for `⌊num / den⌋`, and the space that has it.  An equal
division is reused; the denominator must be positive. -/
def addDivision {ε : Type} (s : Space) (num : Affine) (den : Int) : Outcome ε (Nat × Space) :=
  if den ≤ 0 then .fault
  else
    match s.divs.findIdx? (·.same ⟨num, den⟩) with
    | some i => .ok (s.divOffset + i, s)
    | none => .ok (s.dim, { s with divs := s.divs ++ [⟨num, den⟩] })

/-- The form `⌊a / den⌋`.  Division by one is the form itself, and a constant is
divided on the spot. -/
def floor {ε : Type} (s : Space) (a : Affine) (den : Int) : Outcome ε (Affine × Space) :=
  if den = 1 then .ok (a, s)
  else if a.isConst then do
    return (.const (← .orFault (Word.floorDiv? a.constant den)), s)
  else do
    let (v, s) ← s.addDivision a den
    return (.var v, s)

/-- The form `a mod den`. -/
def modulo (s : Space) (a : Affine) (den : Int) : Outcome EngineError (Affine × Space) := do
  let (q, s) ← s.floor a den
  return (← a.sub (← q.scale den), s)

/-- The constraints `num - den·q ≥ 0` and `den·q + den - 1 - num ≥ 0` that define
division variable `q`. -/
def divisionConstraints (q : Nat) (d : Division) : Outcome EngineError (List Constraint) := do
  let product := Affine.term q d.den
  let below ← d.num.sub product
  let gap ← product.sub d.num
  let last ← .orFault (Word.sub? d.den 1)
  let above ← gap.addConst last
  return [.ge below, .ge above]

/-- The defining constraints of the divisions `ds`, the first of which is
variable `q`. -/
def constraintsFrom : Nat → List Division → Outcome EngineError (List Constraint)
  | _, [] => .ok []
  | q, d :: ds => do
    let cs ← divisionConstraints q d
    return cs ++ (← constraintsFrom (q + 1) ds)

/-- The constraints that define every division. -/
def constraints (s : Space) : Outcome EngineError (List Constraint) :=
  constraintsFrom s.divOffset s.divs

/-- Extend `values` by the values of the divisions `ds`. -/
def evalOnto : List Division → List Int → Outcome EngineError (List Int)
  | [], values => .ok values
  | d :: ds, values => do
    let v ← d.num.eval values
    let q ← .orFault (Word.floorDiv? v d.den)
    evalOnto ds (values ++ [q])

/-- The values of all variables, given those of the parameters and iterators.
Values past the iterators are ignored. -/
def eval (s : Space) (base : List Int) : Outcome EngineError (List Int) :=
  if base.length < s.divOffset then .fault
  else evalOnto s.divs (base.take s.divOffset)

end Space

end KernelMap
