import KernelMap.Tile.Infer

/-!
# KernelMap.Tile.Basic

Tiles: boxes that hold all elements touched at fixed outer coordinates.

A tile has one bound for each array dimension.  Its tiling takes an element to
the local coordinates

```
(index + shift) / step - ⌈form / denom⌉
```

in every dimension.
-/

namespace KernelMap

/-- The memory that holds a group of references. -/
inductive Memory where
  | global
  | shared
  /-- One copy for each thread. -/
  | priv
deriving DecidableEq, Repr

/-- The first part of the names of local copies. -/
def Memory.label : Memory → String
  | .global => "global"
  | .shared => "shared"
  | .priv => "private"

/-- The name of the local copy of group `nr` out of `nGroups` of an array. -/
def Memory.localName (m : Memory) (array : String) (nr nGroups : Nat) : String :=
  if 1 < nGroups then s!"{m.label}_{array}_{nr}" else s!"{m.label}_{array}"

/-- A box of array elements, given by a bound for each dimension. -/
structure Tile where
  bounds : List Bound
  nParam : Nat
  /-- The number of outer coordinates the bounds may depend on. -/
  nOuter : Nat
deriving DecidableEq, Repr

/-- One dimension of a tiling. -/
structure Tiling.Dim where
  stride : Option Stride
  lower : LowerBound
deriving DecidableEq, Repr

/-- The map from elements to coordinates of a local copy. -/
structure Tiling where
  /-- The name of the local copy. -/
  name : String
  dims : List Tiling.Dim
deriving DecidableEq, Repr

namespace Tile

def sizes (t : Tile) : List Int := t.bounds.map (·.size)

/-- The number of elements, clamped to the words. -/
def elementCount (t : Tile) : Int := t.bounds.foldl (fun n b => Word.satMul n b.size) 1

/-- The number of bytes, clamped to the words. -/
def footprint (t : Tile) (elementSize : Nat) : Int :=
  Word.satMul t.elementCount (Word.clamp elementSize)

/-- Does some bound depend on variable `v`? -/
def involves (t : Tile) (v : Nat) : Bool :=
  t.bounds.any fun b => b.lower.form.involves v || b.stride.any (·.shift.involves v)

/-- The deepest outer coordinate from `start` on that some bound depends on, among
those that `counts` accepts. -/
def deepestOuter? (t : Tile) (start : Nat) (counts : Nat → Bool) : Option Nat :=
  (List.range' start (t.nOuter - start)).reverse.find? fun j =>
    counts j && t.involves (t.nParam + j)

/-- The map from elements to coordinates of the local copy `name`. -/
def tiling (t : Tile) (name : String) : Tiling :=
  ⟨name, t.bounds.map fun b => ⟨b.stride, b.lower⟩⟩

/-- The bounds of the given outputs of an access, if all of them are finite. -/
def inferBounds (a : Access) : List Nat → Outcome EngineError (Option (List Bound))
  | [] => .ok (some [])
  | d :: ds => do
    match ← Bound.infer (← a.selectOut d) with
    | none => return none
    | some b => return (← inferBounds a ds).map (b :: ·)

/-- The tile of an access, if every dimension has a finite bound. -/
def infer? (a : Access) : Outcome EngineError (Option Tile) := do
  return (← inferBounds a (List.range a.nOut)).map (⟨·, a.nParam, a.nIn⟩)

end Tile

namespace Tiling

/-- The local coordinate of an index, or `none` if the stride leaves it out. -/
def Dim.apply (d : Dim) (outer : List Int) (index : Int) : Outcome EngineError (Option Int) := do
  let scaled ← match d.stride with
    | none => .ok (some index)
    | some s => s.quotient? outer index
  match scaled with
  | none => return none
  | some q => return some (← .orOverflow (Word.sub? q (← d.lower.eval outer)))

/-- The local coordinates of the indices in the dimensions. -/
def applyDims (outer : List Int) : List Dim → List Int → Outcome EngineError (Option (List Int))
  | d :: ds, i :: is => do
    match ← d.apply outer i with
    | none => return none
    | some x => return (← applyDims outer ds is).map (x :: ·)
  | _, _ => .ok (some [])

/-- The local coordinates of an element at the outer values
`[parameters | outer coordinates]`, or `none` if a stride leaves it out. -/
def apply (t : Tiling) (outer element : List Int) : Outcome EngineError (Option (List Int)) :=
  applyDims outer t.dims element

end Tiling

end KernelMap
