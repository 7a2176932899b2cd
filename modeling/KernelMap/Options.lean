import KernelMap.Failure

/-!
# KernelMap.Options

What can be chosen about a mapping: tile sizes, the shape of the launch, the
memories to use and how work is distributed.
-/

namespace KernelMap

/-- How consecutive coordinates are dealt out to blocks or threads. -/
inductive Distribution where
  /-- Unit `k` takes the contiguous chunk number `k`. -/
  | tile
  /-- Unit `k` takes the coordinates congruent to `k`. -/
  | wrap
deriving DecidableEq, Repr

/-- Choices for a mapping. -/
structure Options where
  /-- Tile sizes of the first coordinates of a band. -/
  tileSizes : List Int
  /-- Tile size of the coordinates without an entry in `tileSizes`. -/
  defaultTileSize : Int
  /-- Blocks for each grid dimension, that of the innermost coordinate first. -/
  gridSizes : List Int
  /-- Threads for each block dimension, that of the innermost coordinate first. -/
  blockSizes : List Int
  /-- Bytes of shared memory for each block. -/
  maxSharedMemory : Int
  useSharedMemory : Bool
  usePrivateMemory : Bool
  /-- Distribution of tiles over blocks. -/
  gridMapping : Distribution
  /-- Distribution of the points of a tile over threads. -/
  threadMapping : Distribution
  /-- Let the counters of tile loops be element offsets. -/
  scaleTileLoops : Bool
deriving DecidableEq, Repr

namespace Options

/-- The options used where nothing else is said. -/
def default : Options where
  tileSizes := []
  defaultTileSize := 32
  gridSizes := [256, 256]
  blockSizes := [32, 16, 4]
  maxSharedMemory := 8192
  useSharedMemory := true
  usePrivateMemory := true
  gridMapping := .wrap
  threadMapping := .wrap
  scaleTileLoops := true

/-- The tile size of coordinate `k` of a band. -/
def tileSize (o : Options) (k : Nat) : Int := o.tileSizes.getD k o.defaultTileSize

/-- The first flaw of the options. -/
def flaw? (o : Options) : Option OptionFlaw :=
  if o.defaultTileSize ≤ 0 ∨ o.tileSizes.any (· ≤ 0) then
    some .tileSizes
  else if o.gridSizes.length = 0 ∨ 3 < o.gridSizes.length then
    some (.gridCount o.gridSizes.length)
  else if o.blockSizes.length = 0 ∨ 3 < o.blockSizes.length then
    some (.blockCount o.blockSizes.length)
  else if o.gridSizes.any (· ≤ 0) ∨ o.blockSizes.any (· ≤ 0) then
    some .launchSizes
  else if o.maxSharedMemory < 0 then
    some .memoryBudget
  else
    none

/-- Succeed if all sizes are positive, there are one to three grid and block
sizes, and the memory budget is not negative. -/
def validate (o : Options) : Outcome MapError Unit :=
  match o.flaw? with
  | some flaw => .raise (.options flaw)
  | none => .ok ()

end Options

end KernelMap
