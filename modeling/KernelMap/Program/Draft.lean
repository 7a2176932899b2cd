import KernelMap.Affine.Parser
import KernelMap.Constraint.Parser
import KernelMap.Program.Extents
import KernelMap.Program.Validity

/-!
# KernelMap.Program.Draft

Writing a program step by step, with affine forms given as text.

A form is read against the parameters declared so far, followed by the iterators
of its statement.  A step works on the draft in place: should it fail, then what it
has changed before stays changed.
-/

namespace KernelMap

/-- A program under construction. -/
structure Draft where
  program : Program
  /-- The number of the next reference. -/
  nextRef : Nat
deriving DecidableEq, Repr

namespace Draft

/-- The draft without any declaration. -/
def empty : Draft := ⟨.empty, 0⟩

/-- The names a form of a statement may use. -/
def names (d : Draft) (iterators : List String) : List String := d.program.params ++ iterators

/-- A step that changes a draft and has an answer, unless it fails. -/
abbrev Step := ExceptT (Failure MapError) (StateM Draft)

/-- The answer of a step, or why it has none, and the draft it leaves behind. -/
def Step.on {α : Type} (step : Step α) (d : Draft) : Outcome MapError α × Draft := step.run.run d

/-- The answer of a computation that does not touch the draft. -/
def attempt {α : Type} (x : Outcome MapError α) : Step α := liftM x

/-- Change the program. -/
def edit (f : Program → Program) : Step Unit := modify fun d => { d with program := f d.program }

/-! ## Declarations -/

/-- Declare a parameter. -/
def param (name : String) : Step Unit :=
  edit fun p => { p with params := p.params ++ [name] }

/-- Constrain the parameters. -/
def context (text : String) : Step Unit := do
  let cs ← attempt (.ofText (Constraint.parse text (← get).program.params))
  edit fun p => { p with context := p.context ++ cs }

/-- Declare an array. -/
def array (a : ArrayDecl) : Step Unit :=
  edit fun p => { p with arrays := p.arrays ++ [a] }

/-- Add a statement; the answer is its position. -/
def statement (name : String) (iterators : List String) (domain : String) (schedule : List String) :
    Step Nat := do
  let names := (← get).names iterators
  let domain ← attempt (.ofText (Constraint.parse domain names))
  let schedule ← attempt (.ofText (schedule.mapM fun text => Affine.parse text names))
  edit fun p => { p with statements := p.statements ++ [⟨name, iterators, domain, schedule, []⟩] }
  return (← get).program.statements.length - 1

/-! ## References -/

/-- Split a text around the first two dots in a row, after the characters
`before` in reverse order. -/
def splitDots (before : List Char) : List Char → Option (String × String)
  | '.' :: '.' :: rest => some (String.ofList before.reverse, String.ofList rest)
  | c :: rest => splitDots (c :: before) rest
  | [] => none

/-- Read a subscript: a form, or two forms with two dots in between for a range. -/
def subscript (names : List String) (text : String) : Outcome SyntaxError Subscript :=
  match splitDots [] text.toList with
  | some (lo, hi) => do return .range (← Affine.parse lo names) (← Affine.parse hi names)
  | none => do return .single (← Affine.parse text names)

/-- Add a reference to a statement; the answer is its number. -/
def reference (stmt : Nat) (array : String) (use : Use) (definite : Bool) (index : List String) :
    Step Nat := do
  let s ← attempt (.orRaise (.program (.noStatement stmt)) (← get).program.statements[stmt]?)
  let names := (← get).names s.iterators
  let subscripts ← attempt (.ofText (index.mapM (subscript names)))
  let id := (← get).nextRef
  modify fun d => { d with nextRef := d.nextRef + 1 }
  let r : Reference := ⟨id, array, use, definite, subscripts⟩
  edit fun p => { p with statements := p.statements.modify stmt fun s =>
                           { s with references := s.references ++ [r] } }
  return id

/-- Add a read of an array. -/
def read (stmt : Nat) (array : String) (index : List String) : Step Nat :=
  reference stmt array .read true index

/-- Add a write that touches every element of its relation. -/
def write (stmt : Nat) (array : String) (index : List String) : Step Nat :=
  reference stmt array .write true index

/-- Add a write that may leave out elements of its relation. -/
def mayWrite (stmt : Nat) (array : String) (index : List String) : Step Nat :=
  reference stmt array .write false index

/-! ## Regions -/

/-- The largest number of flags that can be stored. -/
def maxFlags : Nat := 9223372036854775807

/-- Add a region in whose band no member carries a dependence. -/
def region (statements : List Nat) (tileFirst tileLen : Nat) : Step Unit :=
  if maxFlags < tileLen then attempt .fault
  else
    let r : Region := ⟨statements, tileFirst, tileLen, List.replicate tileLen true⟩
    edit fun p => { p with regions := p.regions ++ [r] }

/-- Replace the coincidence flags of region `r`. -/
def coincident (r : Nat) (flags : List Bool) : Step Unit := do
  let region ← attempt (.orFault (← get).program.regions[r]?)
  edit fun p => { p with regions := p.regions.set r { region with coincident := flags } }

/-! ## Requests -/

/-- What can be asked of a draft. -/
inductive Request where
  | param (name : String)
  | context (text : String)
  | array (decl : ArrayDecl)
  | statement (name : String) (iterators : List String) (domain : String) (schedule : List String)
  | read (stmt : Nat) (array : String) (index : List String)
  | write (stmt : Nat) (array : String) (index : List String)
  | mayWrite (stmt : Nat) (array : String) (index : List String)
  | reference (stmt : Nat) (array : String) (use : Use) (definite : Bool) (index : List String)
  | region (statements : List Nat) (tileFirst tileLen : Nat)
  | coincident (region : Nat) (flags : List Bool)
deriving DecidableEq, Repr

/-- The step that a request asks for.  A new statement or reference is answered by
its position or number. -/
def Request.step : Request → Step (Option Nat)
  | .param name => do Draft.param name; return none
  | .context text => do Draft.context text; return none
  | .array decl => do Draft.array decl; return none
  | .statement name iterators domain
      schedule => do return some (← Draft.statement name iterators domain schedule)
  | .read stmt name index => do return some (← Draft.read stmt name index)
  | .write stmt name index => do return some (← Draft.write stmt name index)
  | .mayWrite stmt name index => do return some (← Draft.mayWrite stmt name index)
  | .reference stmt name use definite
      index => do return some (← Draft.reference stmt name use definite index)
  | .region statements tileFirst
      tileLen => do Draft.region statements tileFirst tileLen; return none
  | .coincident r flags => do Draft.coincident r flags; return none

/-- The answers to requests that are made one after the other, whether they fail or
not, and the draft they leave behind. -/
def serve (d : Draft) : List Request → List (Outcome MapError (Option Nat)) × Draft
  | [] => ([], d)
  | r :: rs =>
    let (answer, d) := r.step.on d
    let (answers, d) := serve d rs
    (answer :: answers, d)

/-! ## Completion -/

/-- The program, if it is valid, with the flags and extents of its arrays. -/
def finish (d : Draft) : Outcome MapError Program := do
  d.program.validate
  d.program.recomputeFlags.recomputeExtents

end Draft

end KernelMap
