import KernelMap.Program.Basic
import KernelMap.Space
import KernelMap.Polyhedron.Equalities

/-!
# KernelMap.Schedule.Statement

The schedule of a single statement.

A statement schedule lives in a space that may have more parameters than the
program: after those of the program come block and thread ids.  `lift` moves a
form over the program's parameters and the iterators into that space.
-/

namespace KernelMap

/-- The form with `extra` unused variables inserted before variable `start`. -/
def Affine.insertVars (a : Affine) (start extra : Nat) : Affine :=
  { a with coeffs := Coeffs.trim (a.coeffs.take start ++ List.replicate extra 0 ++
    a.coeffs.drop start) }

/-- The schedule of one statement over `[parameters | iterators | divisions]`. -/
structure StmtSchedule where
  /-- The position of the statement in the program. -/
  stmt : Nat
  /-- The number of parameters of the program. -/
  nProgramParam : Nat
  space : Space
  /-- The domain, and the equations that define the ids. -/
  constraints : List Constraint
  /-- The schedule coordinates. -/
  dims : List Affine
deriving DecidableEq, Repr

namespace StmtSchedule

/-- Statement number `i` in its own space, without schedule coordinates. -/
def untiled (p : Program) (i : Nat) (s : Statement) : StmtSchedule where
  stmt := i
  nProgramParam := p.nParam
  space := .ofSizes p.nParam s.iterators.length
  constraints := s.domain
  dims := []

/-- The number of parameters beyond those of the program, if the space has these. -/
def extraParams? (s : StmtSchedule) : Option Nat := Index.sub? s.space.nParam s.nProgramParam

/-- A form over `[program parameters | iterators]` in the space of the
schedule. -/
def lift (s : StmtSchedule) (a : Affine) : Outcome EngineError Affine := do
  let extra ← .orFault s.extraParams?
  return if extra = 0 then a else a.insertVars s.nProgramParam extra

/-- A constraint over `[program parameters | iterators]` in the space of the
schedule. -/
def liftConstraint (s : StmtSchedule) (c : Constraint) : Outcome EngineError Constraint := do
  return { c with expr := ← s.lift c.expr }

/-- The constraints of the schedule, the definitions of its divisions and
`context`. -/
def allConstraints (s : StmtSchedule) (context : List Constraint) :
    Outcome EngineError (List Constraint) := do
  return s.constraints ++ (← s.space.constraints) ++ context

/-- The points of the statement as a polyhedron over its space. -/
def polyhedron (s : StmtSchedule) (context : List Constraint) : Outcome EngineError Polyhedron := do
  let cs ← s.allConstraints context
  (Polyhedron.empty s.space.dim).addAllLowered (List.range s.space.dim) cs

/-- The points of the statement, with the divisions of a single value fixed. -/
def tightened (s : StmtSchedule) (context : List Constraint) : Outcome EngineError Polyhedron := do
  (← s.polyhedron context).fixDetermined s.space.divOffset s.space.dim

end StmtSchedule

end KernelMap
