import KernelMap.Failure

/-!
# KernelMap.Schedule.Level

The roles of the coordinates of a kernel schedule, and how far the construction
of a schedule has come.
-/

namespace KernelMap

/-- The role of one coordinate of a kernel schedule. -/
inductive Level where
  /-- A loop outside of the kernel. -/
  | host
  /-- Fixed for each block. -/
  | blockId
  /-- A loop over the tiles of a block. -/
  | tileLoop
  /-- Fixed for each thread. -/
  | threadId
  /-- A loop over the points of a tile that belong to a thread. -/
  | pointLoop
  /-- A coordinate below the band. -/
  | inner
deriving DecidableEq, Repr

/-- Is the coordinate fixed for each block or thread, rather than a loop? -/
def Level.isMapped : Level → Bool
  | .blockId | .threadId => true
  | _ => false

/-- The steps a kernel schedule goes through, in this order. -/
inductive Stage where
  | untiled
  | tiled
  | parametrized
  | scaled
  | bodyScheduled
  | unrollInterchanged
deriving DecidableEq, Repr

namespace Stage

/-- The position of a stage in their order. -/
def rank : Stage → Nat
  | untiled => 0
  | tiled => 1
  | parametrized => 2
  | scaled => 3
  | bodyScheduled => 4
  | unrollInterchanged => 5

/-- Go on to `next`, which must be a later stage. -/
def advance {ε : Type} (s next : Stage) : Outcome ε Stage :=
  if s.rank < next.rank then .ok next else .fault

end Stage

end KernelMap
