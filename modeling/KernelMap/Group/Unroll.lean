import KernelMap.Group.Basic

/-!
# KernelMap.Group.Unroll

Which point loops are unrolled for private tiles.

A private tile is held in registers, so the point loops that move its elements must
be unrolled, and only those of members without dependences may be.  A group that
needs another one loses its private tile; if the group must be private, all private
tiles are given up.
-/

namespace KernelMap.Group

/-- The positions on which the access depends. -/
def dependentPositions (a : Outcome EngineError Access) : List Nat → Outcome EngineError (List Nat)
  | [] => .ok []
  | pos :: rest => do
    if ← (← a).dependsOn pos then
      return pos :: (← dependentPositions a rest)
    else
      dependentPositions a rest

/-- Do all the point loops belong to members of the band without dependences? -/
def allCoincident (k : KernelSchedule) : List Nat → Outcome EngineError Bool
  | [] => .ok true
  | pos :: rest =>
    match k.bandMember? pos with
    | none => .ok false
    | some m => do
      if ← .orFault k.coincident[m]? then allCoincident k rest else return false

/-- The positions of the point loops. -/
def pointLoops (k : KernelSchedule) : List Nat := List.range' k.privateLen k.tileLen

/-- What is known about unrolling after some groups. -/
structure UnrollCheck where
  groups : List Group
  /-- Positions of point loops to unroll. -/
  positions : List Nat
  /-- A group that must be private cannot be. -/
  abandoned : Bool

/-- Check the groups in order. -/
def checkEach (sc : Scope) : List Group → Outcome EngineError UnrollCheck
  | [] => .ok ⟨[], [], false⟩
  | g :: gs => do
    if g.privateTile.isNone then
      let c ← checkEach sc gs
      return { c with groups := g :: c.groups }
    else
      let deps ← dependentPositions (sc.access g.refs sc.schedule.depth) (pointLoops sc.schedule)
      let parallel ← allCoincident sc.schedule deps
      let c ← checkEach sc gs
      if parallel then
        return { c with groups := g :: c.groups, positions := deps ++ c.positions }
      else if g.forcePrivate then
        return { c with groups := g :: c.groups, abandoned := true }
      else
        return { c with groups := { g with privateTile := none } :: c.groups }

/-- The groups with the private tiles that can be kept, and the positions of the
point loops to unroll for them, in ascending order. -/
def checkUnroll (sc : Scope) (gs : List Group) : Outcome EngineError (List Group × List Nat) := do
  let c ← checkEach sc gs
  if c.abandoned then
    return (c.groups.map fun g => { g with privateTile := none }, [])
  else
    return (c.groups, (pointLoops sc.schedule).filter (c.positions.contains ·))

end KernelMap.Group
