import KernelMap.Group.Budget
import KernelMap.Group.Merge
import KernelMap.Group.Unroll
import KernelMap.Kernel
import KernelMap.Program.Extents
import KernelMap.Program.Validity
import KernelMap.Schedule.Build

/-!
# KernelMap.Compile

Turning the regions of a program into kernels.
-/

namespace KernelMap

namespace Kernel

/-- Kernel number `id`, for a region of a program. -/
def ofRegion (p : Program) (o : Options) (id : Nat) (region : Region) :
    Outcome MapError Kernel := do
  let sc := Scope.ofSchedule p o (← KernelSchedule.build p region o)
  let groups ← Group.all sc
  let (groups, unroll) ← .ofEngine (Group.checkUnroll sc groups)
  let groups ← Group.enforceBudget sc groups
  let body ← Body.build sc groups
  let body ← body.interchange unroll
  assemble id sc groups body

/-- The kernels of the regions, numbered from `id` on. -/
def ofRegions (p : Program) (o : Options) : Nat → List Region → Outcome MapError (List Kernel)
  | _, [] => .ok []
  | id, r :: rs => do
    let k ← ofRegion p o id r
    return k :: (← ofRegions p o (id + 1) rs)

end Kernel

/-- The kernels of a program and the host code that starts them. -/
structure Compiled where
  kernels : List Kernel
  host : Tree
deriving Repr

/-- The kernels of all regions of a program, if program and options are valid, and
the host code around them. -/
def Program.compile (p : Program) (o : Options) : Outcome MapError Compiled := do
  o.validate
  p.validate
  let p ← p.recomputeFlags.recomputeExtents
  let kernels ← Kernel.ofRegions p o 0 p.regions
  return ⟨kernels, .ofKernels (kernels.map fun k => (k.id, k.schedule))⟩

end KernelMap
