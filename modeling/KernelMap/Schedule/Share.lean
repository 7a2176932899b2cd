import KernelMap.Schedule.Statement

/-!
# KernelMap.Schedule.Share

Dealing out coordinates to parallel units.

A coordinate that is dealt out becomes two: the unit that handles it, and the
coordinate left for the unit's own loop.  Together they determine the coordinate.
-/

namespace KernelMap

/-- How one coordinate is dealt out. -/
inductive Share where
  /-- Unit `u` takes the coordinates congruent to `u` modulo `units`. -/
  | wrap (units : Int)
  /-- Unit `u` takes chunk number `u`; chunks have the given size and begin at
  `start`. -/
  | chunk (start size : Int)
  /-- The coordinates from `0` up to `total` in chunks of equal size, one for each
  unit. -/
  | split (total units : Int)
deriving DecidableEq, Repr

/-- Coordinates dealt out to units, and the space that defines them. -/
structure Dealt where
  units : List Affine
  loops : List Affine
  space : Space

namespace Share

/-- Deal out `a` in chunks of `size` from zero on: the unit, the loop coordinate
and the space that defines them. -/
def dealChunks (a : Affine) (size : Int) (s : Space) :
    Outcome EngineError (Affine × Affine × Space) := do
  let (unit, s) ← s.floor a size
  let loop ← a.sub (← unit.scale size)
  return (unit, loop, s)

/-- The unit that handles `a`, the loop coordinate left for it, and the space that
defines them. -/
def deal (share : Share) (a : Affine) (s : Space) : Outcome EngineError (Affine × Affine × Space) :=
  match share with
  | wrap units => do
    let (unit, s) ← s.modulo a units
    let (loop, s) ← s.floor a units
    return (unit, loop, s)
  | chunk start size => do dealChunks (← a.sub (.const start)) size s
  | split total units => do dealChunks a (← .orFault (Word.ceilDiv? total units)) s

/-- Deal out the first coordinates by the shares; the others stay loops. -/
def dealAll : List Share → List Affine → Space → Outcome EngineError Dealt
  | share :: shares, a :: as, s => do
    let (unit, loop, s) ← share.deal a s
    let rest ← dealAll shares as s
    return { rest with units := unit :: rest.units, loops := loop :: rest.loops }
  | _, as, s => .ok ⟨[], as, s⟩

end Share

end KernelMap
