import KernelMap.Access.Basic
import KernelMap.Tile.Bound

/-!
# KernelMap.Tile.Infer

Inference of the bound of a single output `x` of an access.

Each relation is prepared: tight inequalities become equalities, existentials of
one value are fixed, and existentials defined without `x` are substituted.  An
equality `±x + s + Σ gₖ·eₖ = 0` shows a stride, the greatest common divisor of the
`gₖ`; with a stride that all relations share, `x` is replaced by the quotient
`(x + s) / g`.  After the existentials are projected out, every lower bound
`m·x + rest ≥ 0` is a candidate.  One that holds in all relations is valid, and
the valid one with the smallest size wins.
-/

namespace KernelMap

namespace Polyhedron

/-! ## Preparation -/

/-- Does equality `c` define existential `e` without output `x`: either `e` has a
unit coefficient, or no other existential occurs? -/
def defines (x n e : Nat) (c : Constraint) : Bool :=
  c.coeff x == 0 &&
    ((c.coeff e).natAbs == 1 || (List.range' (x + 1) (n - (x + 1))).all fun k => k == e ||
      c.coeff k == 0)

/-- The first of the existentials that some equality defines, and the position of
that equality. -/
def findDefined (s : Polyhedron) (x : Nat) : List Nat → Option (Nat × Nat)
  | [] => none
  | e :: es =>
    match s.findEquality? e (defines x s.nVars e) with
    | some pos => some (e, pos)
    | none => findDefined s x es

/-- Substitute defined existentials.  Every round removes one, so the number of
existentials bounds the rounds. -/
def substituteRounds (x : Nat) : (n : Nat) → Polyhedron → Outcome EngineError Polyhedron
  | 0, s => .ok s
  | n + 1, s =>
    match s.findDefined x (List.range' (x + 1) (s.nVars - (x + 1))) with
    | none => .ok s
    | some (e, pos) => do substituteRounds x n (← s.eliminateWith e pos)

/-- The existentials of a relation with output `x`. -/
def existentials (s : Polyhedron) (x : Nat) : List Nat := List.range' (x + 1) (s.nVars - (x + 1))

/-- The relation prepared for the inference of a bound on output `x`. -/
def prepare (s : Polyhedron) (x : Nat) : Outcome EngineError Polyhedron := do
  let s ← s.detectEqualities
  let s ← s.fixDetermined (x + 1) s.nVars
  substituteRounds x (s.nVars - (x + 1)) s

/-- The relations that are not provably empty, prepared. -/
def prepareAll (x : Nat) : List Polyhedron → Outcome EngineError (List Polyhedron)
  | [] => .ok []
  | s :: ss => do
    if ← s.isEmpty then prepareAll x ss
    else
      let s ← s.prepare x
      return s :: (← prepareAll x ss)

/-! ## Strides -/

/-- The greatest common divisor of the coefficients from variable `x + 1` on. -/
def strideOf {ε : Type} (x : Nat) (c : Constraint) : Outcome ε Int :=
  .orFault (Coeffs.content? 0 (c.coeffs.drop (x + 1)))

/-- The entries reduced modulo `g`. -/
def reduceShift (g : Int) (a : Affine) : Affine := ⟨a.coeffs.map (· % g), a.constant % g⟩

/-- The largest stride shown by the constraints, or `best` if none is larger. -/
def largestStride (x : Nat) : List Constraint → Option Stride → Outcome EngineError (Option Stride)
  | [], best => .ok best
  | c :: cs, best =>
    if c.kind == .equality && (c.coeff x).natAbs == 1 then do
      let g ← strideOf x c
      if g ≤ 1 then
        largestStride x cs best
      else
        let shift ← c.expr.scale (c.coeff x)
        let found : Stride := ⟨g, reduceShift g (shift.truncated x)⟩
        largestStride x cs (if best.all (·.step < g) then some found else best)
    else largestStride x cs best

/-- The stride of all relations, if each shows one and they agree with `common`. -/
def commonStride (x : Nat) : List Polyhedron → Option Stride → Outcome EngineError (Option Stride)
  | [], common => .ok common
  | s :: ss, common => do
    match ← largestStride x s.constraints none with
    | none => return none
    | some found =>
      match common with
      | none => commonStride x ss (some found)
      | some c =>
        if c.step == found.step && c.shift.same found.shift then commonStride x ss (some c)
        else return none

/-- Variables `x` and `y` exchanged. -/
def exchange (x y k : Nat) : Nat := if k = x then y else if k = y then x else k

/-- The relation with output `x` replaced by `(x + shift) / step`. -/
def applyStride (s : Polyhedron) (x : Nat) (stride : Stride) : Outcome EngineError Polyhedron := do
  let y := s.nVars
  let s ← s.addVars 1
  let e ← (← (Affine.var x).add stride.shift).sub (.term y stride.step)
  let s ← s.add (.eq e)
  let s ← s.project [x]
  s.embed s.nVars ((List.range s.nVars).map (exchange x y))

/-- The relation after correction for a stride, over the variables up to `x`. -/
def projectOutput (x : Nat) (stride : Option Stride) (s : Polyhedron) :
    Outcome EngineError Polyhedron := do
  let s ← match stride with
    | some stride => s.applyStride x stride
    | none => .ok s
  s.project (s.existentials x)

end Polyhedron

/-! ## Candidates -/

/-- The lower bound `factor·x + rest ≥ 0`. -/
structure Candidate where
  factor : Int
  rest : Affine
deriving DecidableEq, Repr

namespace Candidate

/-- Equality up to trailing zero coefficients. -/
def same (c d : Candidate) : Bool := c.factor == d.factor && c.rest.same d.rest

/-- The lower bound on `x` that a constraint states, if any. -/
def ofConstraint (x : Nat) (c : Constraint) : Outcome EngineError (Option Candidate) :=
  let m := c.coeff x
  if m = 0 || (c.kind == .inequality && decide (m < 0)) then .ok none
  else do
    let rest ← c.expr.scale (if 0 < m then 1 else -1)
    return some ⟨m.natAbs, rest.setCoeff x 0⟩

/-- The distinct lower bounds stated by the constraints, after those already
found. -/
def collect (x : Nat) : List Constraint → List Candidate → Outcome EngineError (List Candidate)
  | [], found => .ok found
  | c :: cs, found => do
    match ← ofConstraint x c with
    | none => collect x cs found
    | some cand => collect x cs (if found.any (·.same cand) then found else found ++ [cand])

/-- Does the bound hold in every relation? -/
def isValid (x : Nat) (relations : List Polyhedron) (c : Candidate) : Outcome EngineError Bool := do
  let e ← (Affine.term x (-c.factor)).sub c.rest
  let violated ← e.addConst (-1)
  relations.allM fun s => do (← s.add (.ge violated)).isEmpty

/-- The relation, with a variable for `⌈-rest / factor⌉` where that is not affine,
and the number of indices from the bound up to `x`. -/
def objective (x : Nat) (c : Candidate) (s : Polyhedron) :
    Outcome EngineError (Polyhedron × Affine) :=
  if c.factor = 1 then do
    let e ← (Affine.var x).add c.rest
    return (s, ← e.addConst 1)
  else do
    let q := s.nVars
    let s ← s.addVars 1
    let lower ← (Affine.term q c.factor).add c.rest
    let s ← s.add (.ge lower)
    let upper ← (← lower.scale (-1)).addConst (c.factor - 1)
    let s ← s.add (.ge upper)
    let e ← (Affine.var x).sub (.var q)
    return (s, ← e.addConst 1)

/-- The largest number of indices from the bound on, over all relations, or `none`
if there is no limit. -/
def size (x : Nat) (c : Candidate) : List Polyhedron → Option Int → Outcome EngineError (Option Int)
  | [], best => .ok best
  | s :: ss, best => do
    let (s, e) ← c.objective x s
    match ← s.maximize e with
    | .value v => size x c ss (some (best.elim v (max · v)))
    | .unbounded => return none
    | .empty => size x c ss best

/-- The first of the valid candidates with the smallest size, with that size. -/
def choose (x : Nat) (relations : List Polyhedron) : List Candidate → Option (Int × Candidate) →
    Outcome EngineError (Option (Int × Candidate))
  | [], best => .ok best
  | c :: cs, best => do
    if ← c.isValid x relations then
      match ← c.size x relations none with
      | some n => choose x relations cs (if best.all (n < ·.1) then some (n, c) else best)
      | none => choose x relations cs best
    else
      choose x relations cs best

end Candidate

/-! ## Bounds -/

/-- The bound of the only output of an access, or `none` if no finite one is
found. -/
def Bound.infer (a : Access) : Outcome EngineError (Option Bound) :=
  if a.nOut ≠ 1 then .raise (.spaceMismatch (.boundOutputs a.nOut))
  else do
    let x := a.nParam + a.nIn
    let relations ← Polyhedron.prepareAll x (a.pieces.map (·.relation))
    if relations.isEmpty then
      return none
    else
      let stride ← Polyhedron.commonStride x relations none
      let projected ← relations.mapM (Polyhedron.projectOutput x stride)
      let candidates ← Candidate.collect x (projected.flatMap (·.constraints)) []
      match ← Candidate.choose x projected candidates none with
      | none => return none
      | some (size, c) =>
        let form ← c.rest.scale (-1)
        return some ⟨size, ⟨form.truncated x, c.factor⟩, stride⟩

end KernelMap
