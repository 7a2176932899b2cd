import KernelMap.Options
import KernelMap.Schedule.Level
import KernelMap.Schedule.Statement

/-!
# KernelMap.Schedule.Kernel

Kernel schedules and their layout.

Every statement of a kernel has the schedule coordinates

```
[host | block ids | tile loops | thread ids | point loops | inner]
```

with one tile loop and one point loop for each member of the band.
-/

namespace KernelMap

/-- The tiled and distributed schedule of one kernel. -/
structure KernelSchedule where
  /-- The program's parameters, then the block ids and the thread ids. -/
  paramNames : List String
  nProgramParam : Nat
  /-- Constraints on the parameters. -/
  context : List Constraint
  tileFirst : Nat
  tileLen : Nat
  nGrid : Nat
  nBlock : Nat
  tileSizes : List Int
  /-- Blocks for each distributed member of the band, outermost first. -/
  gridSizes : List Int
  /-- Threads for each distributed member of the band, outermost first. -/
  blockSizes : List Int
  gridMapping : Distribution
  threadMapping : Distribution
  levels : List Level
  /-- For each member of the band: no dependence is carried by it. -/
  coincident : List Bool
  statements : List StmtSchedule
  stage : Stage
deriving DecidableEq, Repr

namespace KernelSchedule

/-- The number of schedule coordinates. -/
def depth (k : KernelSchedule) : Nat := k.levels.length

/-- The number of coordinates up to the tile loops. -/
def sharedLen (k : KernelSchedule) : Nat := k.tileFirst + k.nGrid + k.tileLen

/-- The number of coordinates up to the thread ids. -/
def privateLen (k : KernelSchedule) : Nat := k.sharedLen + k.nBlock

def nParam (k : KernelSchedule) : Nat := k.paramNames.length

/-- The position of the tile loop of band member `m`. -/
def tileLoopPos (k : KernelSchedule) (m : Nat) : Nat := k.tileFirst + k.nGrid + m

/-- The position of the point loop of band member `m`. -/
def pointLoopPos (k : KernelSchedule) (m : Nat) : Nat := k.privateLen + m

/-- The band member whose point loop is at `pos`. -/
def bandMember? (k : KernelSchedule) (pos : Nat) : Option Nat :=
  if k.privateLen ≤ pos ∧ pos < k.privateLen + k.tileLen then some (pos - k.privateLen) else none

/-- Is coordinate `pos` constant in every statement that has it? -/
def isConstantDim (k : KernelSchedule) (pos : Nat) : Bool :=
  k.statements.all fun s => s.dims[pos]?.all Affine.isConst

end KernelSchedule

end KernelMap
