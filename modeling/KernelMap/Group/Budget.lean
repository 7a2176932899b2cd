import KernelMap.Group.Basic

/-!
# KernelMap.Group.Budget

Keeping shared tiles within the memory of a block.

Groups are served in order: a shared tile that does not fit into what is left of the
memory is given up.
-/

namespace KernelMap.Group

/-- Give up the shared tiles that do not fit into `left` bytes. -/
def fitInto (sc : Scope) : (left : Int) → List Group → Outcome MapError (List Group)
  | _, [] => .ok []
  | left, g :: gs =>
    match g.privateTile, g.sharedTile with
    | none, some tile => do
      let size := tile.footprint (← sc.array g.array).elementSize
      if left < size then
        return { g with sharedTile := none } :: (← fitInto sc left gs)
      else
        let left ← .orFault (Word.sub? left size)
        return g :: (← fitInto sc left gs)
    | _, _ => do return g :: (← fitInto sc left gs)

/-- Give up the shared tiles that do not fit into the memory of a block. -/
def enforceBudget (sc : Scope) (gs : List Group) : Outcome MapError (List Group) :=
  fitInto sc sc.options.maxSharedMemory gs

end KernelMap.Group
