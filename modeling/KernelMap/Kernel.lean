import KernelMap.Access.Extent
import KernelMap.Body.Interchange
import KernelMap.Tree.Build

/-!
# KernelMap.Kernel

Finished kernels: the launch sizes, the arrays and local copies, the schedule, the
ordered body and its loop tree.
-/

namespace KernelMap

/-- An array used by a kernel. -/
structure LocalizedArray where
  name : String
  elementType : String
  elementSize : Nat
  /-- Bounds on the elements that the kernel touches. -/
  extent : List Extent
  /-- The kernel does not write to the array. -/
  readOnly : Bool
deriving DecidableEq, Repr

/-- The local copy of a group. -/
structure LocalVariable where
  name : String
  array : String
  memory : Memory
  sizes : List Int
  elementCount : Int
  bytes : Int
  tiling : Tiling
deriving DecidableEq, Repr

/-- A kernel. -/
structure Kernel where
  id : Nat
  /-- The program's parameters, then the block ids and the thread ids. -/
  paramNames : List String
  /-- Constraints on the parameters. -/
  context : List Constraint
  /-- The size of the grid, innermost dimension first. -/
  gridSize : List Int
  /-- The size of a block, innermost dimension first. -/
  blockSize : List Int
  blockIds : List String
  threadIds : List String
  arrays : List LocalizedArray
  locals : List LocalVariable
  groups : List Group
  schedule : KernelSchedule
  items : List Item
  /-- For each schedule coordinate: its loop is unrolled. -/
  unrolled : List Bool
  tree : Tree
deriving Repr

namespace Kernel

/-- The sum of the words, if every partial sum is a word. -/
def sumBytes {ε : Type} : Int → List Int → Outcome ε Int
  | total, [] => .ok total
  | total, n :: ns => do sumBytes (← .orFault (Word.add? total n)) ns

/-- The bytes of shared memory used by a block. -/
def sharedMemory {ε : Type} (k : Kernel) : Outcome ε Int :=
  sumBytes 0 ((k.locals.filter (·.memory == .shared)).map (·.bytes))

/-- The local copy with the given name. -/
def localCopy? (k : Kernel) (name : String) : Option LocalVariable :=
  k.locals.find? (·.name == name)

/-! ## Assembly -/

/-- The arrays used by the kernel, out of those given. -/
def localize (sc : Scope) : List ArrayDecl → Outcome EngineError (List LocalizedArray)
  | [] => .ok []
  | a :: as => do
    let refs := sc.referencesTo a.name
    if refs.isEmpty then
      localize sc as
    else
      let extent ← Extent.infer (← sc.access refs 0)
      let readOnly := (refs.filterMap sc.reference?).all (·.reference.isRead)
      return ⟨a.name, a.elementType, a.elementSize, extent, readOnly⟩ :: (← localize sc as)

/-- The local copies of the groups that have one. -/
def localsOf (sc : Scope) (groups : List Group) : List Group → Outcome MapError (List LocalVariable)
  | [] => .ok []
  | g :: gs =>
    match g.tile? with
    | none => localsOf sc groups gs
    | some tile => do
      let name := g.localName groups
      let array ← sc.array g.array
      let v : LocalVariable := {
        name
        array := g.array
        memory := g.memory
        sizes := tile.sizes
        elementCount := tile.elementCount
        bytes := tile.footprint array.elementSize
        tiling := tile.tiling name }
      return v :: (← localsOf sc groups gs)

/-- Kernel number `id` with the given groups and body. -/
def assemble (id : Nat) (sc : Scope) (groups : List Group) (body : Body) :
    Outcome MapError Kernel := do
  let tree ← .ofEngine (Tree.ofBody body)
  let arrays ← .ofEngine (localize sc sc.program.arrays)
  let locals ← localsOf sc groups groups
  let k := body.schedule
  let ids := k.paramNames.drop k.nProgramParam
  return {
    id
    paramNames := k.paramNames
    context := k.context
    gridSize := k.gridSizes.reverse
    blockSize := k.blockSizes.reverse
    blockIds := ids.take k.nGrid
    threadIds := ids.drop k.nGrid
    arrays
    locals
    groups
    schedule := k
    items := body.items
    unrolled := body.unrolled
    tree }

end Kernel

end KernelMap
