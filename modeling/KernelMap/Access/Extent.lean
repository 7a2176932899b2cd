import KernelMap.Access.Basic

/-!
# KernelMap.Access.Extent

Bounds on the elements of an access over the parameters.

A bound is taken from a constraint with a unit coefficient on the output, and
only if it holds in every relation of the access.
-/

namespace KernelMap

/-- A side on which an index is bounded. -/
inductive Side where
  | lower
  | upper
deriving DecidableEq, Repr

/-- The sign of the index in a bound `sign·x + rest ≥ 0`. -/
def Side.sign : Side → Int
  | .lower => 1
  | .upper => -1

namespace Extent

/-- The sign by which a constraint is multiplied to be a bound `sign·x + rest ≥ 0`,
if it can be one. -/
def orientation? (x : Nat) (side : Side) (c : Constraint) : Option Int :=
  let a := c.coeff x
  match c.kind with
  | .inequality => if a = side.sign then some 1 else none
  | .equality => if a.natAbs = 1 then some (a * side.sign) else none

/-- Does `sign·x + rest ≥ 0` hold in every relation? -/
def isValid (x : Nat) (side : Side) (relations : List Polyhedron) (rest : Affine) :
    Outcome EngineError Bool := do
  let e ← (Affine.term x (-side.sign)).sub rest
  let violated ← e.addConst (-1)
  relations.allM fun s => do (← s.add (.ge violated)).isEmpty

/-- The first of the constraints that gives a bound on `x` valid in every
relation. -/
def sideOf (x : Nat) (side : Side) (relations : List Polyhedron) :
    List Constraint → Outcome EngineError (Option Affine)
  | [] => .ok none
  | c :: cs =>
    match orientation? x side c with
    | none => sideOf x side relations cs
    | some sign => do
      let rest := (← c.expr.scale sign).setCoeff x 0
      if ← isValid x side relations rest then
        return some ((← rest.scale (-side.sign)).truncated x)
      else
        sideOf x side relations cs

/-- The relations over the variables up to `x`, without those that are provably
empty. -/
def projectAll (x : Nat) : List Polyhedron → Outcome EngineError (List Polyhedron)
  | [] => .ok []
  | s :: ss => do
    let s ← s.project (List.range' (x + 1) (s.nVars - (x + 1)))
    if ← s.isEmpty then projectAll x ss
    else return s :: (← projectAll x ss)

/-- The bounds of output `d` of an access without inputs. -/
def ofOutput (a : Access) (d : Nat) : Outcome EngineError Extent := do
  let x := a.nParam + a.nIn
  let selected ← a.selectOut d
  let relations ← projectAll x (selected.pieces.map (·.relation))
  let constraints := relations.flatMap (·.constraints)
  let lower ← sideOf x .lower relations constraints
  let upper ← sideOf x .upper relations constraints
  return ⟨lower, upper⟩

/-- The bounds of every output of an access without inputs. -/
def infer (a : Access) : Outcome EngineError (List Extent) := (List.range a.nOut).mapM (ofOutput a)

end Extent

end KernelMap
