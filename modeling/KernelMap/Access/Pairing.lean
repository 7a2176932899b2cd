import KernelMap.Access.Basic

/-!
# KernelMap.Access.Pairing

Two relations side by side, and the questions that are settled by comparing
them.

A pairing is a polyhedron over

```
[parameters | inputs₁ | outputs₁ | inputs₂ | outputs₂ | existentials₁ | existentials₂]
```

A question is answered by proving a pairing empty.  Where that fails the answer
is the cautious one: overlap, reuse and dependence may be reported without
cause, while exclusiveness, single values and coalescing are reported only when
they are proved.
-/

namespace KernelMap

/-- Two relations with common parameters. -/
structure Pairing where
  nParam : Nat
  nIn : Nat
  nOut : Nat
  pairs : Polyhedron
deriving DecidableEq, Repr

namespace Pairing

/-! ## Variables -/

/-- Input `j` of the first relation. -/
def in₁ (p : Pairing) (j : Nat) : Nat := p.nParam + j

/-- Output `d` of the first relation. -/
def out₁ (p : Pairing) (d : Nat) : Nat := p.nParam + p.nIn + d

/-- Input `j` of the second relation. -/
def in₂ (p : Pairing) (j : Nat) : Nat := p.nParam + p.nIn + p.nOut + j

/-- Output `d` of the second relation. -/
def out₂ (p : Pairing) (d : Nat) : Nat := p.nParam + 2 * p.nIn + p.nOut + d

/-- Pair two relations of the given shape. -/
def ofPieces (nParam nIn nOut : Nat) (a b : Access.Piece) : Outcome EngineError Pairing := do
  let head := nParam + nIn + nOut
  let ex₁ ← .orFault (Index.sub? a.relation.nVars head)
  let ex₂ ← .orFault (Index.sub? b.relation.nVars head)
  let tail := nParam + 2 * (nIn + nOut)
  let total := tail + ex₁ + ex₂
  let map₁ := (List.range a.relation.nVars).map fun k => if k < head then k else tail + (k - head)
  let map₂ := (List.range b.relation.nVars).map fun k =>
    if k < nParam then k else if k < head then k + nIn + nOut else tail + ex₁ + (k - head)
  let s ← a.relation.embed total map₁
  let t ← b.relation.embed total map₂
  return ⟨nParam, nIn, nOut, ← s.intersect t⟩

/-! ## Constraints -/

/-- Require `x = y` for two variables. -/
def equate (x y : Nat) (s : Polyhedron) : Outcome EngineError Polyhedron :=
  s.addTerms .equality [(x, 1), (y, -1)] 0

/-- Require `x - y ≥ k` for two variables. -/
def exceed (x y : Nat) (k : Int) (s : Polyhedron) : Outcome EngineError Polyhedron :=
  s.addTerms .inequality [(x, 1), (y, -1)] (-k)

/-- Require equal inputs at the given positions. -/
def equateInputs (p : Pairing) : List Nat → Polyhedron → Outcome EngineError Polyhedron
  | [], s => .ok s
  | j :: js, s => do equateInputs p js (← equate (p.in₂ j) (p.in₁ j) s)

/-- Require equal outputs at the given positions. -/
def equateOutputs (p : Pairing) : List Nat → Polyhedron → Outcome EngineError Polyhedron
  | [], s => .ok s
  | d :: ds, s => do equateOutputs p ds (← equate (p.out₂ d) (p.out₁ d) s)

/-- The pairing with equal inputs at the given positions. -/
def withInputs (p : Pairing) (js : List Nat) : Outcome EngineError Pairing := do
  return { p with pairs := ← p.equateInputs js p.pairs }

/-- The pairing with equal elements. -/
def withOutputs (p : Pairing) : Outcome EngineError Pairing := do
  return { p with pairs := ← p.equateOutputs (List.range p.nOut) p.pairs }

/-! ## Questions -/

/-- Can the pairing have a pair whose second inputs at the positions `js` come
lexicographically after the first ones?  `equal` are the positions before, which
agree. -/
def laterPossible (p : Pairing) : (equal : Polyhedron) → List Nat → Outcome EngineError Bool
  | _, [] => .ok false
  | equal, j :: js => do
    if !(← (← exceed (p.in₂ j) (p.in₁ j) 1 equal).isEmpty) then
      return true
    else
      laterPossible p (← equate (p.in₂ j) (p.in₁ j) equal) js

/-- Can one variable exceed the other in the pairing? -/
def exceedPossible (p : Pairing) (x y : Nat) : Outcome EngineError Bool := do
  return !(← (← exceed x y 1 p.pairs).isEmpty)

/-- Can the outputs at one of the positions differ? -/
def outputsDiffer (p : Pairing) : List Nat → Outcome EngineError Bool
  | [] => .ok false
  | d :: ds => do
    if ← p.exceedPossible (p.out₂ d) (p.out₁ d) then return true
    else if ← p.exceedPossible (p.out₁ d) (p.out₂ d) then return true
    else outputsDiffer p ds

end Pairing

namespace Access

/-! ## Comparing the pieces of accesses -/

/-- Two pieces side by side, in the shape of `a`. -/
def pair (a : Access) (x y : Piece) : Outcome EngineError Pairing :=
  Pairing.ofPieces a.nParam a.nIn a.nOut x y

/-- Does the test succeed on some pair of the two lists? -/
def anyPair {α β : Type} (test : α → β → Outcome EngineError Bool) (xs : List α) (ys : List β) :
    Outcome EngineError Bool :=
  xs.anyM fun x => ys.anyM (test x)

/-- The positions from `0` to `n` without `j`. -/
def others (n j : Nat) : List Nat := List.range j ++ List.range' (j + 1) (n - (j + 1))

/-- The positions from `start` up to but not including `stop`. -/
def positions (start stop : Nat) : List Nat := List.range' start (stop - start)

/-- Do two pieces share a point and an element? -/
def meet (a : Access) (x y : Piece) : Outcome EngineError Bool := do
  let p ← a.pair x y
  let p ← p.withInputs (List.range a.nIn)
  let p ← p.withOutputs
  return !(← p.pairs.isEmpty)

/-- Do two accesses share a point and an element? -/
def overlaps (a b : Access) : Outcome EngineError Bool :=
  if a.nIn = b.nIn ∧ a.nOut = b.nOut then anyPair a.meet a.pieces b.pieces
  else .raise (.spaceMismatch .overlapShape)

/-- Is an element touched through `x` and, at a later point with the same first
`start` inputs, through `y`?  Different pieces may also share a point. -/
def reuse (a : Access) (start : Nat) (x y : Nat × Piece) : Outcome EngineError Bool := do
  let p ← a.pair x.2 y.2
  let p ← p.withInputs (List.range start)
  let p ← p.withOutputs
  if ← p.laterPossible p.pairs (positions start a.nIn) then
    return true
  else if x.1 = y.1 then
    return false
  else
    return !(← (← p.equateInputs (positions start a.nIn) p.pairs).isEmpty)

/-- The pieces with their positions. -/
def numbered (a : Access) : List (Nat × Piece) := (List.range a.pieces.length).zip a.pieces

/-- Is an element touched more than once by points that agree on the first `start`
inputs? -/
def hasReuse (a : Access) (start : Nat) : Outcome EngineError Bool :=
  anyPair (a.reuse start) a.numbered a.numbered

/-- Does the last output of a piece always move by one when input `pos` does, and
no other input? -/
def movesByOne (a : Access) (pos last : Nat) (x : Piece) : Outcome EngineError Bool := do
  let p ← a.pair x x
  let p ← p.withInputs (others a.nIn pos)
  let step ← p.pairs.addTerms .equality [(p.in₂ pos, 1), (p.in₁ pos, -1)] (-1)
  let small ← Pairing.exceed (p.out₁ last) (p.out₂ last) 0 step
  let large ← Pairing.exceed (p.out₂ last) (p.out₁ last) 2 step
  if !(← small.isEmpty) then return false else large.isEmpty

/-- Do neighbours along input `pos` touch neighbours along the last output?
Without such an input, and for scalars, there is nothing to require. -/
def isCoalesced (a : Access) (pos : Option Nat) : Outcome EngineError Bool :=
  match pos with
  | some pos =>
    if a.nOut = 0 ∨ a.nIn ≤ pos then .ok true else a.pieces.allM (a.movesByOne pos (a.nOut - 1))
  | none => .ok true

/-- Can one element be touched by points that agree on the first `start` inputs
and differ in those of `threads`? -/
def contested (a : Access) (start : Nat) (threads : List Nat) (x y : Piece) :
    Outcome EngineError Bool := do
  let p ← a.pair x y
  let p ← p.withInputs (List.range start)
  let p ← p.withOutputs
  p.laterPossible p.pairs threads

/-- Do points that agree on the first `start` inputs and differ in those from `lo`
up to but not including `hi` always touch different elements? -/
def isExclusive (a : Access) (start lo hi : Nat) : Outcome EngineError Bool := do
  return !(← anyPair (a.contested start (positions lo hi)) a.pieces a.pieces)

/-- Can two pieces touch different elements at one point? -/
def divergent (a : Access) (x y : Piece) : Outcome EngineError Bool := do
  let p ← a.pair x y
  let p ← p.withInputs (List.range a.nIn)
  p.outputsDiffer (List.range a.nOut)

/-- Is at most one element touched at each point? -/
def isSingleValued (a : Access) : Outcome EngineError Bool := do
  return !(← anyPair a.divergent a.pieces a.pieces)

/-- Can the element of a piece change when only input `q` does? -/
def moves (a : Access) (q : Nat) (x : Piece) : Outcome EngineError Bool := do
  let p ← a.pair x x
  let p ← p.withInputs (others a.nIn q)
  let pairs ← Pairing.exceed (p.in₂ q) (p.in₁ q) 1 p.pairs
  { p with pairs }.outputsDiffer (List.range a.nOut)

/-- Can the element touched by a reference change when only input `q` does? -/
def dependsOn (a : Access) (q : Nat) : Outcome EngineError Bool :=
  if a.nIn ≤ q then .ok false else a.pieces.anyM (a.moves q)

end Access

end KernelMap
