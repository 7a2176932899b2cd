import KernelMap.Group.Basic

/-!
# KernelMap.Group.Bounds

The tiles of a group.

A group gets a shared tile if elements are reused or the accesses of neighbouring
threads are not coalesced, and a private tile if elements are reused and belong to
one thread each.  Read-only scalars and arrays of compound elements get none, and
neither do groups with writes that may leave out elements, unless their array must
be private.
-/

namespace KernelMap.Group

/-- Do the references call for a shared tile? -/
def wantsShared (sc : Scope) (refs : List Nat) (reuse : Bool) : Outcome EngineError Bool :=
  if !sc.options.useSharedMemory then .ok false
  else if reuse then .ok true
  else do return !(← sc.isCoalesced refs)

/-- The shared tile of the references, if one is wanted and finite. -/
def inferShared (sc : Scope) (refs : List Nat) (reuse : Bool) :
    Outcome EngineError (Option Tile) := do
  if ← wantsShared sc refs reuse then Tile.infer? (← sc.access refs sc.schedule.sharedLen)
  else return none

/-- Should the references get a private tile? -/
def wantsPrivate (sc : Scope) (g : Group) (reuse : Bool) : Outcome EngineError Bool :=
  if g.forcePrivate then .ok true
  else if sc.options.usePrivateMemory && reuse then sc.isBijective g.refs
  else .ok false

/-- The private tile of the references, if one is wanted and finite. -/
def inferPrivate (sc : Scope) (g : Group) (reuse : Bool) : Outcome EngineError (Option Tile) := do
  if ← wantsPrivate sc g reuse then Tile.infer? (← sc.access g.refs sc.schedule.privateLen)
  else return none

/-- The deepest coordinate that a shared tile depends on, not counting those of the
host but for the last. -/
def lastSharedOf (sc : Scope) (tile : Option Tile) : Option Nat :=
  match tile with
  | some t =>
    (t.deepestOuter? sc.schedule.tileFirst fun _ => true).or (lastOf sc.schedule.tileFirst)
  | none => lastOf sc.schedule.sharedLen

/-- The group with its tiles.  A group that must be private and has no private tile
is an error. -/
def computeBounds (sc : Scope) (g : Group) : Outcome MapError Group := do
  let bare := { g with sharedTile := none, privateTile := none,
                       lastShared := lastOf sc.schedule.sharedLen }
  let array ← sc.array g.array
  if array.isReadOnlyScalar || array.compound then
    return bare
  else if !g.forcePrivate && !g.definiteWrite then
    return bare
  else
    let reuse ← .ofEngine (sc.hasReuse g.refs)
    let sharedTile ← .ofEngine (inferShared sc g.refs reuse)
    let privateTile ← .ofEngine (inferPrivate sc g reuse)
    if g.forcePrivate && privateTile.isNone then
      .raise (.placement g.array)
    else
      return { g with sharedTile, privateTile, lastShared := lastSharedOf sc sharedTile }

end KernelMap.Group
