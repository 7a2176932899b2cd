import KernelMap.Schedule.Statement

/-!
# KernelMap.Access.Basic

Access relations: which array elements are touched at which schedule points.

The relation of one reference is a polyhedron over

```
[parameters | inputs | outputs | existentials]
```

where the inputs are the first schedule coordinates and the outputs are the
indices of the element.  The existentials are what is left of the statement's
space: further parameters, iterators and divisions.  An access is the union of
the relations of several references.
-/

namespace KernelMap

/-- The relation of one reference. -/
structure Access.Piece where
  /-- The number of the reference. -/
  reference : Nat
  relation : Polyhedron
deriving DecidableEq, Repr

/-- A union of relations from schedule points to array elements. -/
structure Access where
  nParam : Nat
  nIn : Nat
  nOut : Nat
  pieces : List Access.Piece
deriving DecidableEq, Repr

namespace Access

/-! ## Construction -/

/-- Where the variables of a statement's space live in a relation whose inputs and
outputs end at `head`: the first `nParam` stay, the others become existentials. -/
def placement (nParam head dim : Nat) : List Nat :=
  (List.range dim).map fun k => if k < nParam then k else head + (k - nParam)

/-- Equate the forms with the variables from `v` on. -/
def equateFrom (map : List Nat) : Nat → List Affine → Polyhedron → Outcome EngineError Polyhedron
  | _, [], s => .ok s
  | v, a :: as, s => do
    let e ← (← a.remapped map).sub (.var v)
    equateFrom map (v + 1) as (← s.add (.eq e))

/-- Constrain output variable `v` by a subscript. -/
def constrainOutput (sched : StmtSchedule) (map : List Nat) (v : Nat) (s : Polyhedron) :
    Subscript → Outcome EngineError Polyhedron
  | .single a => do
    let e ← (← (← sched.lift a).remapped map).sub (.var v)
    s.add (.eq e)
  | .range lower upper => do
    let lo ← (← sched.lift lower).remapped map
    let hi ← (← sched.lift upper).remapped map
    let s ← s.add (.ge (← (Affine.var v).sub lo))
    s.add (.ge (← hi.sub (.var v)))

/-- Constrain the output variables from `v` on by the subscripts. -/
def constrainOutputs (sched : StmtSchedule) (map : List Nat) : Nat → List Subscript → Polyhedron →
    Outcome EngineError Polyhedron
  | _, [], s => .ok s
  | v, i :: is, s => do
    constrainOutputs sched map (v + 1) is (← constrainOutput sched map v s i)

/-- The relation of one reference at schedule depth `depth`. -/
def relationOf (nParam : Nat) (context : List Constraint) (sched : StmtSchedule) (r : Reference)
    (depth : Nat) : Outcome EngineError Polyhedron := do
  let head := nParam + depth + r.subscripts.length
  let map := placement nParam head sched.space.dim
  let cs ← sched.allConstraints context
  let s ← (Polyhedron.empty (head + (sched.space.dim - nParam))).addAllLowered map cs
  let s ← equateFrom map nParam (sched.dims.take depth) s
  constrainOutputs sched map (nParam + depth) r.subscripts s

/-- The relation of a reference with `nOut` subscripts, if it has this shape. -/
def pieceOf (nParam : Nat) (context : List Constraint) (depth nOut : Nat)
    (item : StmtSchedule × Reference) : Outcome EngineError Piece :=
  let (sched, r) := item
  if r.subscripts.length ≠ nOut then
    .raise (.spaceMismatch (.subscriptCount r.id r.subscripts.length nOut))
  else if sched.space.nParam < nParam ∨ sched.dims.length < depth then
    .raise (.spaceMismatch (.statementShape sched.stmt nParam depth))
  else do
    return ⟨r.id, ← relationOf nParam context sched r depth⟩

/-- The access of references at schedule depth `depth`, each given with the
schedule of its statement.  The first `nParam` parameters are shared by all
references; they may differ in the others. -/
def build (nParam : Nat) (context : List Constraint) (items : List (StmtSchedule × Reference))
    (depth : Nat) : Outcome EngineError Access := do
  let nOut := items.head?.elim 0 (·.2.subscripts.length)
  let pieces ← items.mapM (pieceOf nParam context depth nOut)
  return ⟨nParam, depth, nOut, pieces⟩

/-! ## Combination -/

/-- The union of two accesses of the same shape. -/
def union (a b : Access) : Outcome EngineError Access :=
  if a.nParam = b.nParam ∧ a.nIn = b.nIn ∧ a.nOut = b.nOut then
    .ok { a with pieces := a.pieces ++ b.pieces }
  else
    .raise (.spaceMismatch .unionShape)

/-- Where variable `k` of `nVars` goes when only output `d` of `nOut` outputs from
`base` on is kept: it comes first, the existentials follow, then the other
outputs. -/
def selectVar (base nOut d nVars k : Nat) : Nat :=
  if k < base then k
  else if k < base + nOut then
    let o := k - base
    if o = d then base else nVars - (nOut - 1) + (if o < d then o else o - 1)
  else base + 1 + (k - base - nOut)

/-- The relation with output `d` as its only output. -/
def Piece.selectOut (base nOut d : Nat) (p : Piece) : Outcome EngineError Piece := do
  let n := p.relation.nVars
  return { p with relation := ← p.relation.embed n ((List.range n).map (selectVar base nOut d n)) }

/-- The access with output `d` as its only output. -/
def selectOut (a : Access) (d : Nat) : Outcome EngineError Access := do
  let pieces ← a.pieces.mapM (Piece.selectOut (a.nParam + a.nIn) a.nOut d)
  return { a with nOut := 1, pieces }

/-- Is there provably no pair of a schedule point and an element? -/
def isEmpty (a : Access) : Outcome EngineError Bool := a.pieces.allM (·.relation.isEmpty)

end Access

end KernelMap
