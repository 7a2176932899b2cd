import KernelMap.Program.Basic

/-!
# KernelMap.Program.Validity

Which programs are well formed.

The checks run in a fixed order and report the first flaw: the context, then each
statement with its references, then each region.
-/

namespace KernelMap

/-- Succeed if the condition holds, and report `cause` otherwise. -/
def Outcome.ensure {ε : Type} (condition : Bool) (cause : ε) : Outcome ε Unit :=
  if condition then .ok () else raise cause

namespace Subscript

/-- Are only the first `n` variables used? -/
def within (n : Nat) : Subscript → Bool
  | single a => decide (a.width ≤ n)
  | range lo hi => decide (lo.width ≤ n) && decide (hi.width ≤ n)

end Subscript

namespace Program

/-! ## Statements -/

/-- Check a reference of a statement with `dim` variables; `ids` are the numbers
of the references before it. -/
def checkReference (p : Program) (dim : Nat) (ids : List Nat) (r : Reference) :
    Outcome ProgramFlaw (List Nat) := do
  .ensure (!ids.contains r.id) (.duplicateReference r.id)
  let array ← .orRaise (.unknownArray r.array) (p.array? r.array)
  .ensure (r.subscripts.length == array.nIndex)
    (.subscriptCount r.id array.name r.subscripts.length array.nIndex)
  .ensure (r.subscripts.all (·.within dim)) (.referenceVariables r.id)
  return r.id :: ids

/-- Check the references of a statement in order. -/
def checkReferences (p : Program) (dim : Nat) :
    List Nat → List Reference → Outcome ProgramFlaw (List Nat)
  | ids, [] => .ok ids
  | ids, r :: rs => do checkReferences p dim (← p.checkReference dim ids r) rs

/-- Check the statements in order; `names` and `ids` are the statement names and
reference numbers met before. -/
def checkStatements (p : Program) :
    List String → List Nat → List Statement → Outcome ProgramFlaw Unit
  | _, _, [] => .ok ()
  | names, ids, s :: rest => do
    .ensure (!names.contains s.name) (.duplicateStatement s.name)
    let dim := p.nParam + s.iterators.length
    .ensure
      (s.domain.all (decide <| ·.expr.width ≤ dim) && s.schedule.all (decide <| ·.width ≤ dim))
      (.statementVariables s.name)
    let ids ← p.checkReferences dim ids s.references
    checkStatements p (s.name :: names) ids rest

/-! ## Regions -/

/-- The common schedule length of the statements of region `r`, given that of the
statements before. -/
def commonLength (p : Program) (r : Nat) : Option Nat → List Nat → Outcome ProgramFlaw (Option Nat)
  | len, [] => .ok len
  | len, s :: rest => do
    let stmt ← .orRaise (.regionStatement r s) p.statements[s]?
    .ensure (len.all (· == stmt.schedule.length)) (.scheduleLengths r)
    commonLength p r (some stmt.schedule.length) rest

/-- Check a region, which is number `r`. -/
def checkRegion (p : Program) (r : Nat) (region : Region) : Outcome ProgramFlaw Unit := do
  .ensure (!region.statements.isEmpty) (.emptyRegion r)
  .ensure (region.coincident.length == region.tileLen)
    (.coincidenceCount r region.coincident.length region.tileLen)
  let len ← p.commonLength r none region.statements
  let stop ← .orFault (Index.add? region.tileFirst region.tileLen)
  .ensure (decide (stop ≤ len.getD 0)) (.bandLength r)

/-- Check the regions in order, the first of which is number `r`. -/
def checkRegions (p : Program) : Nat → List Region → Outcome ProgramFlaw Unit
  | _, [] => .ok ()
  | r, region :: rest => do
    p.checkRegion r region
    checkRegions p (r + 1) rest

/-! ## Programs -/

/-- Succeed if the program is well formed, and report its first flaw
otherwise. -/
def validate (p : Program) : Outcome MapError Unit :=
  .widen .program do
    .ensure (p.context.all (decide <| ·.expr.width ≤ p.nParam)) .contextVariables
    p.checkStatements [] [] p.statements
    p.checkRegions 0 p.regions

end Program

end KernelMap
