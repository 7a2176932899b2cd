import KernelMap.Scope.Basic

/-!
# KernelMap.Scope.Coverage

When a read takes its value from a write of the same kernel.

A definite write covers a read if it produces the element that is read, earlier
in the same iteration of all loops above a given level.  Both statements must have
equally many iterators, the domain of the read must be part of that of the write,
the subscripts must agree on it, and the first schedule coordinate in which the
statements differ must come after the band and put the write first.
-/

namespace KernelMap

namespace Polyhedron

/-- Is the form provably zero on the whole set? -/
def vanishes (s : Polyhedron) (a : Affine) : Outcome EngineError Bool :=
  [1, -1].allM fun sign => do
    let e ← a.scale sign
    (← s.add (.ge (← e.addConst (-1)))).isEmpty

/-- The constraints over the first `n` variables as a polyhedron. -/
def ofConstraints (n : Nat) (cs : List Constraint) : Outcome EngineError Polyhedron :=
  (empty n).addAllLowered (List.range n) cs

end Polyhedron

namespace Scope

/-- Do the subscripts agree on the domain? -/
def sameSubscripts (domain : Polyhedron) :
    List Subscript → List Subscript → Outcome EngineError Bool
  | .single a :: as, .single b :: bs => do
    if ← domain.vanishes (← a.sub b) then sameSubscripts domain as bs else return false
  | _ :: _, _ :: _ => .ok false
  | _, _ => .ok true

/-- Does the write come first in the schedule coordinates from `c` on?  The first
one that differs must not be before `bandEnd`, nor above `level` after the shift
by `shift` coordinates of the kernel. -/
def writeFirst (domain : Polyhedron) (bandEnd shift level : Nat) :
    (c : Nat) → (read write : List Affine) → Outcome EngineError Bool
  | _, [], _ => .ok false
  | _, _ :: _, [] => .fault
  | c, r :: rs, w :: ws => do
    let diff ← w.sub r
    if ← domain.vanishes diff then
      writeFirst domain bandEnd shift level (c + 1) rs ws
    else if c < bandEnd || c + shift < level then
      return false
    else
      (← domain.add (.ge diff)).isEmpty

/-- The statement of a located reference. -/
def statementOf (sc : Scope) (r : Located) : Outcome EngineError Statement := do
  let st ← .orFault sc.schedule.statements[r.position]?
  .orFault sc.program.statements[st.stmt]?

/-- Does the write produce the element of the read, earlier in the same iteration of
the loops above `level`? -/
def covers (sc : Scope) (read write : Located) (level : Nat) : Outcome EngineError Bool :=
  if !write.reference.isWrite || !write.reference.definite then .ok false
  else do
    let rs ← sc.statementOf read
    let ws ← sc.statementOf write
    if rs.iterators.length ≠ ws.iterators.length then
      return false
    else
      let n := sc.program.nParam + rs.iterators.length
      let domain ← Polyhedron.ofConstraints n (rs.domain ++ sc.program.context)
      let target ← Polyhedron.ofConstraints n ws.domain
      if !(← domain.subset target) then
        return false
      else if !(← sameSubscripts domain read.reference.subscripts write.reference.subscripts) then
        return false
      else
        let k := sc.schedule
        writeFirst domain (k.tileFirst + k.tileLen) (k.nGrid + k.tileLen + k.nBlock) level 0
          rs.schedule ws.schedule

/-- Is the read with number `read` covered by the write with number `write`? -/
def isCovered (sc : Scope) (read write level : Nat) : Outcome EngineError Bool :=
  match sc.reference? read, sc.reference? write with
  | some r, some w => sc.covers r w level
  | _, _ => .ok false

end Scope

end KernelMap
