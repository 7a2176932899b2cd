import KernelMap.Program.Basic
import KernelMap.Access.Extent

/-!
# KernelMap.Program.Extents

What the references of a program say about its arrays: which are only read, and
which elements occur.
-/

namespace KernelMap.Program

/-- All references of the program, each with the position of its statement and the
statement. -/
def allReferences (p : Program) : List (Nat × Statement × Reference) :=
  (List.range p.statements.length).zip p.statements |>.flatMap fun (i, s) =>
    s.references.map (i, s, ·)

/-- The program with the `readOnly` and `scalar` flags of its arrays taken from the
references. -/
def recomputeFlags (p : Program) : Program :=
  let written := (p.allReferences.filter (·.2.2.isWrite)).map (·.2.2.array)
  { p with arrays := p.arrays.map fun a =>
      { a with readOnly := !written.contains a.name, scalar := a.nIndex == 0 } }

/-- The references to an array, each with the schedule of its statement before
tiling. -/
def untiledReferences (p : Program) (array : String) : List (StmtSchedule × Reference) :=
  (p.allReferences.filter (·.2.2.array == array)).map fun (i, s, r) => (.untiled p i s, r)

/-- The extent of the given references, if there are any. -/
def extentOf (p : Program) (items : List (StmtSchedule × Reference)) :
    Outcome EngineError (Option (List Extent)) :=
  if items.isEmpty then .ok none
  else do return some (← Extent.infer (← Access.build p.nParam p.context items 0))

/-- The arrays with their extents taken from the references. -/
def arraysWithExtents (p : Program) : List ArrayDecl → Outcome EngineError (List ArrayDecl)
  | [] => .ok []
  | a :: as => do
    let extent ← p.extentOf (p.untiledReferences a.name)
    return { a with extent } :: (← arraysWithExtents p as)

/-- The program with the extents of its arrays taken from the references. -/
def recomputeExtents (p : Program) : Outcome MapError Program := do
  return { p with arrays := ← .ofEngine (p.arraysWithExtents p.arrays) }

end KernelMap.Program
