import KernelMap.Constraint.Basic

/-!
# KernelMap.Polyhedron.Basic

Conjunctions of integer constraints over numbered variables.

A polyhedron holds normalized constraints whose coefficient lists all have the
length of its variable count.  Adding a constraint normalizes it; one without
integer solutions marks the polyhedron infeasible, and one that always holds or is
already there changes nothing.
-/

namespace KernelMap

/-- A conjunction of constraints over `nVars` variables. -/
structure Polyhedron where
  nVars : Nat
  constraints : List Constraint
  /-- A contradiction has been found. -/
  infeasible : Bool
deriving DecidableEq, Repr

namespace Polyhedron

variable {ε : Type}

/-! ## Variables -/

/-- The polyhedron without constraints. -/
def empty (nVars : Nat) : Polyhedron := ⟨nVars, [], false⟩

/-- The polyhedron with `n` further, unconstrained variables. -/
def addVars (s : Polyhedron) (n : Nat) : Outcome ε Polyhedron := do
  let nVars ← .orFault (Index.add? s.nVars n)
  if !s.constraints.isEmpty && Index.maxLength < nVars then
    .fault
  else
    return { s with nVars, constraints := s.constraints.map (·.pad nVars) }

/-- Does some constraint involve variable `v`? -/
def involves (s : Polyhedron) (v : Nat) : Bool :=
  s.constraints.any (·.coeff v != 0)

/-! ## Constraints -/

/-- Add a constraint that is in normal form. -/
def push (s : Polyhedron) (c : Constraint) : Polyhedron :=
  if c.isConst || s.constraints.any c.eqv then s
  else { s with constraints := s.constraints ++ [c] }

/-- Add a constraint.  The space grows if the constraint has more variables. -/
def add (s : Polyhedron) (c : Constraint) : Outcome ε Polyhedron := do
  let s ← if s.nVars < c.coeffs.length then s.addVars (c.coeffs.length - s.nVars) else .ok s
  if Index.maxLength < s.nVars then
    .fault
  else
    match ← (c.pad s.nVars).normalize with
    | none => return { s with infeasible := true }
    | some c => return s.push c

/-- Add constraints in order. -/
def addAll (s : Polyhedron) : List Constraint → Outcome ε Polyhedron
  | [] => .ok s
  | c :: cs => do (← s.add c).addAll cs

/-- Add the constraint on the sum of `terms` and `constant`. -/
def addTerms (s : Polyhedron) (kind : Constraint.Kind) (terms : List (Nat × Int)) (constant : Int) :
    Outcome ε Polyhedron := do
  s.add (← Constraint.ofTerms kind terms constant)

/-- Add a constraint over other variables: variable `i` lives at `map[i]`. -/
def addLowered (s : Polyhedron) (c : Constraint) (map : List Nat) : Outcome ε Polyhedron := do
  s.add (← c.lower map)

/-- Add constraints over other variables, in order. -/
def addAllLowered (s : Polyhedron) (map : List Nat) : List Constraint → Outcome ε Polyhedron
  | [] => .ok s
  | c :: cs => do (← s.addLowered c map).addAllLowered map cs

/-- The conjunction of two polyhedra. -/
def intersect (s t : Polyhedron) : Outcome ε Polyhedron :=
  { s with infeasible := s.infeasible || t.infeasible }.addAll t.constraints

/-! ## Renumbering -/

/-- Add the coefficients `cs` to the entries of `out` at the positions beside
them. -/
def embedCoeffs : List Int → List Nat → List Int → Outcome ε (List Int)
  | [], _, out => .ok out
  | c :: cs, [], out => if c = 0 then embedCoeffs cs [] out else .fault
  | c :: cs, i :: is, out =>
    if c = 0 then embedCoeffs cs is out
    else do
      let old ← .orFault out[i]?
      let sum ← .orFault (Word.add? old c)
      embedCoeffs cs is (out.set i sum)

/-- Add renumbered constraints to `s`. -/
def embedOnto (map : List Nat) (s : Polyhedron) : List Constraint → Outcome ε Polyhedron
  | [] => .ok s
  | c :: cs =>
    if Index.maxLength < s.nVars then .fault
    else do
      let coeffs ← embedCoeffs c.coeffs map (List.replicate s.nVars 0)
      let s ← s.add ⟨c.kind, coeffs, c.constant⟩
      embedOnto map s cs

/-- The polyhedron in a space of `nVars` variables, with variable `i` moved to
`map[i]`. -/
def embed (s : Polyhedron) (nVars : Nat) (map : List Nat) : Outcome ε Polyhedron :=
  embedOnto map { empty nVars with infeasible := s.infeasible } s.constraints

/-! ## Equalities -/

/-- The position of the first equality that involves `v` and satisfies `p`. -/
def findEquality? (s : Polyhedron) (v : Nat) (p : Constraint → Bool) : Option Nat :=
  s.constraints.findIdx? fun c => c.kind == .equality && c.coeff v != 0 && p c

end Polyhedron

end KernelMap
