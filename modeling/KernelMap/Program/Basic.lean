import KernelMap.Constraint.Basic

/-!
# KernelMap.Program.Basic

Programs of affine loop nests.

A program has parameters, a context that constrains them, arrays, statements and
regions.  A statement has a domain of iterations, a schedule that orders them and
references to array elements; all its affine forms are over the program's
parameters followed by the statement's iterators.  A region selects statements
and a band of schedule coordinates to be run as one kernel.
-/

namespace KernelMap

/-! ## References -/

/-- What a reference does with the elements it touches. -/
inductive Use where
  | read
  | write
deriving DecidableEq, Repr

/-- The index of a reference in one dimension. -/
inductive Subscript where
  /-- One index for each iteration. -/
  | single (index : Affine)
  /-- Every index from `lower` up to and including `upper`. -/
  | range (lower upper : Affine)
deriving DecidableEq, Repr

/-- The elements of an array that each iteration of a statement touches. -/
structure Reference where
  /-- A number that no other reference of the program has. -/
  id : Nat
  array : String
  use : Use
  /-- For a write: every element of the relation is really written. -/
  definite : Bool
  subscripts : List Subscript
deriving DecidableEq, Repr

namespace Reference

def isWrite (r : Reference) : Bool := r.use == .write

def isRead (r : Reference) : Bool := r.use == .read

end Reference

/-! ## Statements -/

/-- A statement with its iterations, their order and its references. -/
structure Statement where
  name : String
  iterators : List String
  domain : List Constraint
  schedule : List Affine
  references : List Reference
deriving DecidableEq, Repr

/-! ## Arrays -/

/-- Bounds on the indices that occur in one dimension of an array, over the
parameters. -/
structure Extent where
  lower : Option Affine
  upper : Option Affine
deriving DecidableEq, Repr

/-- The number of indices from `lower` to `upper`, if both are known. -/
def Extent.size (e : Extent) : Outcome EngineError (Option Affine) :=
  match e.lower, e.upper with
  | some lo, some hi => do return some (← (← hi.sub lo).addConst 1)
  | _, _ => .ok none

/-- The declaration of an array. -/
structure ArrayDecl where
  name : String
  elementType : String
  /-- In bytes. -/
  elementSize : Nat
  /-- The number of dimensions. -/
  nIndex : Nat
  /-- Bounds on the elements that are referenced, one for each dimension. -/
  extent : Option (List Extent)
  scalar : Bool
  /-- The elements have parts of their own. -/
  compound : Bool
  /-- The array is used inside the program only. -/
  internal : Bool
  readOnly : Bool
  /-- Every thread must have its own copy. -/
  forcePrivate : Bool
deriving DecidableEq, Repr

namespace ArrayDecl

/-- An array of the given shape; one without dimensions is a scalar. -/
def ofShape (name elementType : String) (elementSize nIndex : Nat) : ArrayDecl where
  name
  elementType
  elementSize
  nIndex
  extent := none
  scalar := nIndex == 0
  compound := false
  internal := false
  readOnly := false
  forcePrivate := false

def isReadOnlyScalar (a : ArrayDecl) : Bool := a.readOnly && a.scalar

end ArrayDecl

/-! ## Regions and programs -/

/-- Statements that run as one kernel, and the band of schedule coordinates that
is tiled for it. -/
structure Region where
  /-- Positions in the program's list of statements. -/
  statements : List Nat
  /-- The first schedule coordinate of the band. -/
  tileFirst : Nat
  /-- The number of coordinates in the band. -/
  tileLen : Nat
  /-- For each coordinate of the band: no dependence is carried by it. -/
  coincident : List Bool
deriving DecidableEq, Repr

/-- A program. -/
structure Program where
  params : List String
  /-- Constraints on the parameters. -/
  context : List Constraint
  arrays : List ArrayDecl
  statements : List Statement
  regions : List Region
deriving DecidableEq, Repr

namespace Program

/-- The program without any declaration. -/
def empty : Program := ⟨[], [], [], [], []⟩

def nParam (p : Program) : Nat := p.params.length

/-- The first array with the given name. -/
def array? (p : Program) (name : String) : Option ArrayDecl :=
  p.arrays.find? (·.name == name)

/-- The position of the first array with the given name. -/
def arrayIndex? (p : Program) (name : String) : Option Nat :=
  p.arrays.findIdx? (·.name == name)

end Program

end KernelMap
