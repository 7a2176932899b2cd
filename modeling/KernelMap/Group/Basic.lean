import KernelMap.Scope.Basic
import KernelMap.Sorted
import KernelMap.Tile.Basic

/-!
# KernelMap.Group.Basic

Groups of references to one array that share a local copy.
-/

namespace KernelMap

/-- References to one array that are copied together. -/
structure Group where
  array : String
  /-- The number of the group among those of its array. -/
  nr : Nat
  /-- The references in the order of the kernel. -/
  refs : List Nat
  /-- Some reference writes. -/
  write : Bool
  /-- Every write is definite. -/
  definiteWrite : Bool
  /-- Every thread must have its own copy. -/
  forcePrivate : Bool
  sharedTile : Option Tile
  privateTile : Option Tile
  /-- The deepest coordinate the shared tile depends on. -/
  lastShared : Option Nat
deriving DecidableEq, Repr

namespace Group

/-- The group of a single reference, before its tiles are known. -/
def ofReference (sc : Scope) (id : Nat) : Outcome MapError Group := do
  let r ← .orRaise (.program (.unknownReference id)) (sc.reference? id)
  let array ← sc.array r.reference.array
  return {
    array := r.reference.array
    nr := 0
    refs := [id]
    write := r.reference.isWrite
    definiteWrite := !r.reference.isWrite || r.reference.definite
    forcePrivate := array.forcePrivate
    sharedTile := none
    privateTile := none
    lastShared := lastOf sc.schedule.sharedLen }

/-- Where the group lives: private memory goes before shared memory. -/
def memory (g : Group) : Memory :=
  if g.privateTile.isSome then .priv else if g.sharedTile.isSome then .shared else .global

/-- The tile in the memory where the group lives. -/
def tile? (g : Group) : Option Tile :=
  match g.memory with
  | .priv => g.privateTile
  | .shared => g.sharedTile
  | .global => none

/-- The number of coordinates around the copies of a shared group. -/
def copyLevel (g : Group) : Nat := g.lastShared.elim 0 (· + 1)

/-- The union of two groups, without tiles. -/
def merge (sc : Scope) (a b : Group) : Group where
  array := a.array
  nr := a.nr
  refs := Sorted.sortBy sc.order (a.refs ++ b.refs)
  write := a.write || b.write
  definiteWrite := a.definiteWrite && b.definiteWrite
  forcePrivate := a.forcePrivate || b.forcePrivate
  sharedTile := none
  privateTile := none
  lastShared := if a.copyLevel < b.copyLevel then b.lastShared else a.lastShared

/-- The number of groups of an array. -/
def countOf (groups : List Group) (array : String) : Nat := groups.countP (·.array == array)

/-- The name of the local copy of a group. -/
def localName (g : Group) (groups : List Group) : String :=
  g.memory.localName g.array g.nr (countOf groups g.array)

end Group

end KernelMap
