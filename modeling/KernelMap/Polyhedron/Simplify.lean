import KernelMap.Polyhedron.Basic

/-!
# KernelMap.Polyhedron.Simplify

Removing redundant constraints.

Of several inequalities with the same coefficients only the one with the least
constant is kept.  Two inequalities with opposite coefficients bound one form
from both sides: they contradict each other, or become an equality when the
bounds meet.  An inequality parallel to an equality is implied or violated by
it.  Equalities come first in the result; within each kind the order of first
occurrence is kept.
-/

namespace KernelMap

namespace Coeffs

/-- Is each list the negation of the other? -/
def opposite : List Int → List Int → Bool
  | [], [] => true
  | a :: as, b :: bs => if a = -b then opposite as bs else false
  | _, _ => false

/-- Do all entries have a negation? -/
def negatable : List Int → Bool
  | [] => true
  | c :: cs => if c = 0 then negatable cs else Word.fits (-c) && negatable cs

/-- A number that tells most lists apart: the sum of the entries, weighted by the
squares of their positions from `i` on.  The key of the negated list is the
negated key. -/
def key (i : Int) : List Int → Int
  | [] => 0
  | c :: cs => if c = 0 then key (i + 1) cs else c * (i * i) + key (i + 1) cs

end Coeffs

/-- The inequality `coeffs · x + constant ≥ 0`. -/
structure HalfSpace where
  coeffs : List Int
  constant : Int
  /-- The key of the coefficients, kept to compare half-spaces quickly. -/
  key : Int
  key_eq : key = Coeffs.key 1 coeffs
deriving DecidableEq, Repr

namespace HalfSpace

/-- The half-space of an inequality. -/
def ofConstraint (c : Constraint) : HalfSpace := ⟨c.coeffs, c.constant, Coeffs.key 1 c.coeffs, rfl⟩

/-- Does the half-space have coefficients `cs`, whose key is `k`? -/
def hasCoeffs (h : HalfSpace) (k : Int) (cs : List Int) : Bool :=
  h.key == k && Coeffs.eqv h.coeffs cs

/-- Does the half-space have the opposite of the coefficients `cs`, whose key is
`k`? -/
def hasOpposite (h : HalfSpace) (k : Int) (cs : List Int) : Bool :=
  h.key == -k && Coeffs.opposite h.coeffs cs

/-- Add a half-space to a list without parallel ones. -/
def insert (h : HalfSpace) : List HalfSpace → List HalfSpace
  | [] => [h]
  | g :: gs =>
    if g.hasCoeffs h.key h.coeffs then { g with constant := min g.constant h.constant } :: gs
    else g :: insert h gs

/-- The half-space with coefficients `cs`. -/
def parallel? (hs : List HalfSpace) (cs : List Int) : Option HalfSpace :=
  let k := Coeffs.key 1 cs
  hs.find? fun h => h.hasCoeffs k cs

/-- The half-space with the opposite of the coefficients `cs`. -/
def opposite? (hs : List HalfSpace) (cs : List Int) : Option HalfSpace :=
  let k := Coeffs.key 1 cs
  hs.find? fun h => h.hasOpposite k cs

/-- The half-space as a constraint. -/
def toConstraint (h : HalfSpace) : Constraint := .ge ⟨h.coeffs, h.constant⟩

end HalfSpace

namespace Polyhedron

/-! ## Collecting -/

/-- Add an equality to a list without parallel ones; the second component tells
whether it contradicts one of them. -/
def insertEquality (c : Constraint) : List Constraint → List Constraint × Bool
  | [] => ([c], false)
  | e :: es =>
    if Coeffs.eqv e.coeffs c.coeffs then (e :: es, e.constant != c.constant)
    else
      let (es, clash) := insertEquality c es
      (e :: es, clash)

/-- The constraints of a polyhedron sorted by kind. -/
structure Sorted where
  equalities : List Constraint
  halfSpaces : List HalfSpace
  infeasible : Bool
deriving DecidableEq, Repr

/-- Sort one constraint in. -/
def Sorted.insert (t : Sorted) (c : Constraint) : Sorted :=
  match c.kind with
  | .equality =>
    let (equalities, clash) := insertEquality c t.equalities
    { t with equalities, infeasible := t.infeasible || clash }
  | .inequality => { t with halfSpaces := HalfSpace.insert (.ofConstraint c) t.halfSpaces }

/-- The constraints sorted by kind. -/
def sorted (s : Polyhedron) : Sorted := s.constraints.foldl Sorted.insert ⟨[], [], false⟩

/-! ## Opposite inequalities -/

/-- What is known while redundant inequalities are looked for. -/
structure Reduction where
  equalities : List Constraint
  /-- Coefficients of the inequalities that are no longer needed. -/
  dropped : List (List Int)
  infeasible : Bool
deriving DecidableEq, Repr

/-- What is known before inequalities are compared. -/
def Sorted.start (t : Sorted) : Reduction := ⟨t.equalities, [], t.infeasible⟩

/-- Add an equality, unless it is known. -/
def Reduction.addEquality (r : Reduction) (e : Constraint) : Reduction :=
  if r.equalities.any e.eqv then r else { r with equalities := r.equalities ++ [e] }

/-- Compare the half-space `h` with its opposite among `all`. -/
def Reduction.meet (all : List HalfSpace) (h : HalfSpace) (r : Reduction) :
    Outcome EngineError Reduction :=
  if r.dropped.any (Coeffs.eqv h.coeffs) then .ok r
  else if !Coeffs.negatable h.coeffs then .raise .overflow
  else
    match HalfSpace.opposite? all h.coeffs with
    | none => .ok r
    | some o => do
      let slack ← .orOverflow (Word.add? h.constant o.constant)
      if slack < 0 then
        return { r with infeasible := true }
      else if slack = 0 then
        let r := { r with dropped := o.coeffs :: h.coeffs :: r.dropped }
        match ← Constraint.normalize (.eq ⟨h.coeffs, h.constant⟩) with
        | some e => return r.addEquality e
        | none => return { r with infeasible := true }
      else
        return r

/-- Compare every half-space of the list with its opposite among `all`. -/
def Reduction.meetAll (all : List HalfSpace) :
    List HalfSpace → Reduction → Outcome EngineError Reduction
  | [], r => .ok r
  | h :: hs, r => do meetAll all hs (← r.meet all h)

/-! ## Inequalities parallel to an equality -/

/-- Drop the half-space `h`, which an equality decides: `clash` tells whether it
is a contradiction. -/
def Reduction.drop (r : Reduction) (h : HalfSpace) (clash : Bool) : Reduction :=
  { r with dropped := h.coeffs :: r.dropped, infeasible := r.infeasible || clash }

/-- Drop the half-space with the coefficients of the equality `e`. -/
def Reduction.dropParallel (all : List HalfSpace) (e : Constraint) (r : Reduction) : Reduction :=
  match HalfSpace.parallel? all e.coeffs with
  | some h => r.drop h (decide (h.constant < e.constant))
  | none => r

/-- Drop the half-space with the opposite of the coefficients of the equality
`e`. -/
def Reduction.dropOpposite (all : List HalfSpace) (e : Constraint) (r : Reduction) :
    Outcome EngineError Reduction :=
  match HalfSpace.opposite? all e.coeffs with
  | some h => do
    let slack ← .orOverflow (Word.add? h.constant e.constant)
    return r.drop h (decide (slack < 0))
  | none => .ok r

/-- Drop the half-spaces parallel or opposite to the equality `e`. -/
def Reduction.absorb (all : List HalfSpace) (e : Constraint) (r : Reduction) :
    Outcome EngineError Reduction :=
  if !Coeffs.negatable e.coeffs then .raise .overflow
  else (r.dropParallel all e).dropOpposite all e

/-- Drop the half-spaces parallel or opposite to the equalities of the list. -/
def Reduction.absorbAll (all : List HalfSpace) :
    List Constraint → Reduction → Outcome EngineError Reduction
  | [], r => .ok r
  | e :: es, r => do absorbAll all es (← r.absorb all e)

/-! ## The whole polyhedron -/

/-- The constraints that are left: the equalities, and the half-spaces that were
not dropped. -/
def Reduction.rows (t : Sorted) (r : Reduction) : List Constraint :=
  let kept := t.halfSpaces.filter fun h => !r.dropped.any (Coeffs.eqv h.coeffs)
  r.equalities ++ kept.map HalfSpace.toConstraint

/-- The polyhedron without redundant constraints; without any if it is infeasible. -/
def simplify (s : Polyhedron) : Outcome EngineError Polyhedron :=
  if s.infeasible then .ok { s with constraints := [] }
  else do
    let t := s.sorted
    let r ← Reduction.meetAll t.halfSpaces t.halfSpaces t.start
    let r ← Reduction.absorbAll t.halfSpaces r.equalities r
    if r.infeasible then
      return { s with constraints := [], infeasible := true }
    else
      return { s with constraints := Reduction.rows t r }

end Polyhedron

end KernelMap
