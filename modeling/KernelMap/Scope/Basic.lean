import KernelMap.Access.Pairing
import KernelMap.Schedule.Kernel

/-!
# KernelMap.Scope.Basic

A kernel under analysis: the program, the options, the kernel's schedule and its
references, with the questions that later steps ask about sets of references.
-/

namespace KernelMap

/-- A reference of a kernel, with the position of its statement in the kernel's
schedule. -/
structure Located where
  position : Nat
  reference : Reference
deriving DecidableEq, Repr

/-- A kernel under analysis. -/
structure Scope where
  program : Program
  options : Options
  schedule : KernelSchedule
  /-- The references of the kernel, by array, then statement. -/
  refs : List Located
deriving DecidableEq, Repr

/-- The last of the first `n` coordinates. -/
def lastOf (n : Nat) : Option Nat := if n = 0 then none else some (n - 1)

namespace Scope

/-! ## References -/

/-- The references of the statements to an array. -/
def locate (p : Program) (k : KernelSchedule) (array : String) : List Located :=
  (List.range k.statements.length).zip k.statements |>.flatMap fun (i, st) =>
    match p.statements[st.stmt]? with
    | none => []
    | some s => (s.references.filter (·.array == array)).map (⟨i, ·⟩)

/-- The analysis of a kernel with the given schedule. -/
def ofSchedule (p : Program) (o : Options) (k : KernelSchedule) : Scope :=
  ⟨p, o, k, p.arrays.flatMap fun a => locate p k a.name⟩

/-- The first reference with the given number. -/
def reference? (sc : Scope) (id : Nat) : Option Located := sc.refs.find? (·.reference.id == id)

/-- The position of the first reference with the given number. -/
def orderOf? (sc : Scope) (id : Nat) : Option Nat := sc.refs.findIdx? (·.reference.id == id)

/-- The place of a reference number in the order of the references; numbers of
other kernels come last. -/
def order (sc : Scope) (id : Nat) : Nat := (sc.orderOf? id).getD sc.refs.length

/-- The numbers of the references to an array. -/
def referencesTo (sc : Scope) (array : String) : List Nat :=
  (sc.refs.filter (·.reference.array == array)).map (·.reference.id)

/-- The declaration of an array. -/
def array (sc : Scope) (name : String) : Outcome MapError ArrayDecl :=
  .orRaise (.program (.unknownArray name)) (sc.program.array? name)

/-- The reference with the given number and the schedule of its statement. -/
def item (sc : Scope) (id : Nat) : Outcome EngineError (StmtSchedule × Reference) := do
  let r ← .orRaise (.spaceMismatch (.foreignReference id)) (sc.reference? id)
  let st ← .orFault sc.schedule.statements[r.position]?
  return (st, r.reference)

/-- The access of references at schedule depth `depth`. -/
def access (sc : Scope) (refs : List Nat) (depth : Nat) : Outcome EngineError Access := do
  Access.build sc.schedule.nProgramParam sc.schedule.context (← refs.mapM sc.item) depth

/-! ## Coordinates -/

/-- The first `d` coordinates without those at the end that are constant in every
statement. -/
def effectiveDepth (sc : Scope) : Nat → Nat
  | 0 => 0
  | d + 1 => if sc.schedule.isConstantDim d then effectiveDepth sc d else d + 1

/-- The position of the innermost thread id. -/
def lastThreadPos (sc : Scope) : Option Nat :=
  if sc.schedule.nBlock = 0 then none else lastOf sc.schedule.privateLen

/-! ## Questions -/

/-- Is an element touched more than once for fixed tile loops? -/
def hasReuse (sc : Scope) (refs : List Nat) : Outcome EngineError Bool := do
  (← sc.access refs sc.schedule.depth).hasReuse sc.schedule.sharedLen

/-- Do neighbouring threads touch neighbouring elements? -/
def isCoalesced (sc : Scope) (refs : List Nat) : Outcome EngineError Bool := do
  (← sc.access refs (sc.schedule.privateLen + sc.schedule.tileLen)).isCoalesced sc.lastThreadPos

/-- For fixed tile loops, does every element belong to one thread, and every point
of a thread touch one element? -/
def isBijective (sc : Scope) (refs : List Nat) : Outcome EngineError Bool := do
  let k := sc.schedule
  let threads ← sc.access refs k.privateLen
  if ← threads.isExclusive k.sharedLen k.sharedLen k.privateLen then
    (← sc.access refs (k.privateLen + k.tileLen)).isSingleValued
  else
    return false

/-- Can moving along coordinate `pos` alone change the element touched? -/
def dependsOn (sc : Scope) (refs : List Nat) (pos : Nat) : Outcome EngineError Bool := do
  (← sc.access refs sc.schedule.depth).dependsOn pos

end Scope

end KernelMap
