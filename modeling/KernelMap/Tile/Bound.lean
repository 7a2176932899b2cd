import KernelMap.Affine.Basic

/-!
# KernelMap.Tile.Bound

The bound of one dimension of a tile.

At the outer values `v` the indices of the dimension satisfy
`index + shift(v) ≡ 0` modulo the stride, and the quotient (or the index itself
without a stride) lies in `[⌈form(v) / denom⌉, ⌈form(v) / denom⌉ + size)`.
-/

namespace KernelMap

/-- The quantity `⌈form / denom⌉` over `[parameters | outer coordinates]`. -/
structure LowerBound where
  form : Affine
  denom : Int
deriving DecidableEq, Repr

/-- The indices with `index + shift ≡ 0` modulo `step`. -/
structure Stride where
  step : Int
  /-- Over `[parameters | outer coordinates]`. -/
  shift : Affine
deriving DecidableEq, Repr

/-- The indices of one dimension of a tile. -/
structure Bound where
  size : Int
  /-- The least index after correction for the stride. -/
  lower : LowerBound
  stride : Option Stride
deriving DecidableEq, Repr

/-- The value of the lower bound at `outer`. -/
def LowerBound.eval (l : LowerBound) (outer : List Int) : Outcome EngineError Int := do
  .orFault (Word.ceilDiv? (← l.form.eval outer) l.denom)

/-- The quotient `(index + shift) / step`, or `none` if the index is not one of the
stride's. -/
def Stride.quotient? (s : Stride) (outer : List Int) (index : Int) :
    Outcome EngineError (Option Int) := do
  let shifted ← .orOverflow (Word.add? index (← s.shift.eval outer))
  let r ← .orFault (Word.rem? shifted s.step)
  if r = 0 then
    return some (← .orFault (Word.div? shifted s.step))
  else
    return none

/-- The index corrected for the stride, or `none` if the stride leaves it out. -/
def Bound.scaledIndex (b : Bound) (outer : List Int) (index : Int) :
    Outcome EngineError (Option Int) :=
  match b.stride with
  | none => .ok (some index)
  | some s => s.quotient? outer index

end KernelMap
