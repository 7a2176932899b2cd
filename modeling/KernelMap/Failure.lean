/-!
# KernelMap.Failure

How a computation can end without an answer.

A computation either reports a cause (an `EngineError`, a `SyntaxError` or a
`MapError`, each with one `message`) or faults.  A fault is not reported by the
rules of the program: it is an operation without a result, such as a word
operation that leaves the word range, a division by zero or a position past the
end of a list.
-/

namespace KernelMap

variable {ε δ α : Type}

/-! ## Failures and outcomes -/

/-- Why there is no answer. -/
inductive Failure (ε : Type) where
  /-- An operation had no result. -/
  | fault
  /-- The rules of the program refuse the input, for this cause. -/
  | error (cause : ε)
deriving DecidableEq, Repr

/-- A value, or the reason why there is none. -/
abbrev Outcome (ε : Type) := Except (Failure ε)

/-- The cause seen from a wider class of causes. -/
def Failure.map (f : ε → δ) : Failure ε → Failure δ
  | .fault => .fault
  | .error e => .error (f e)

namespace Outcome

/-- No answer, for the given cause. -/
def raise (cause : ε) : Outcome ε α := .error (.error cause)

/-- No answer, because an operation had no result. -/
def fault : Outcome ε α := .error .fault

/-- A missing value is a fault. -/
def orFault : Option α → Outcome ε α
  | some a => .ok a
  | none => fault

/-- A missing value has the given cause. -/
def orRaise (cause : ε) : Option α → Outcome ε α
  | some a => .ok a
  | none => raise cause

/-- The same outcome with its cause seen from a wider class of causes. -/
def widen (f : ε → δ) : Outcome ε α → Outcome δ α
  | .ok a => .ok a
  | .error e => .error (e.map f)

end Outcome

/-! ## Constraint engine -/

/-- Two objects that do not fit together. -/
inductive Mismatch where
  | subscriptCount (reference count expected : Nat)
  | statementShape (statement params depth : Nat)
  | unionShape
  | overlapShape
  | boundOutputs (count : Nat)
  | foreignReference (reference : Nat)
  | missingSlot (position : Nat) (found : String)
deriving DecidableEq, Repr

def Mismatch.message : Mismatch → String
  | .subscriptCount r n m => s!"reference {r} has {n} indices, expected {m}"
  | .statementShape s p d => s!"statement {s} does not match a {p}-parameter schedule of depth {d}"
  | .unionShape => "union of access maps of different shapes"
  | .overlapShape => "overlap test of access maps of different shapes"
  | .boundOutputs n => s!"bound inference on {n} output dimensions"
  | .foreignReference r => s!"reference {r} not in kernel"
  | .missingSlot p found => s!"expected a slot at position {p}, found {found}"

/-- Causes reported by the constraint engine. -/
inductive EngineError where
  /-- A coefficient or constant left the word range. -/
  | overflow
  /-- An elimination produced too many constraints. -/
  | tooComplex (constraints : Nat)
  /-- Objects of different spaces were combined. -/
  | spaceMismatch (what : Mismatch)
deriving DecidableEq, Repr

def EngineError.message : EngineError → String
  | .overflow => "integer overflow while combining constraints"
  | .tooComplex n => s!"constraint system too complex ({n} constraints after elimination)"
  | .spaceMismatch what => "space mismatch: " ++ what.message

/-! ## Text -/

/-- Causes reported when affine text is read. -/
inductive SyntaxError where
  | empty
  /-- What is left does not start with a term. -/
  | malformed (rest : String)
  | unknownName (name : String)
  /-- A sum of the text is not a word. -/
  | outOfRange (text : String)
  | noComparison (clause : String)
deriving DecidableEq, Repr

def SyntaxError.message : SyntaxError → String
  | .empty => "empty affine expression"
  | .malformed rest => s!"malformed affine expression near '{rest}'"
  | .unknownName name => s!"unknown identifier '{name}'"
  | .outOfRange text => s!"value out of range in '{text}'"
  | .noComparison clause => s!"constraint '{clause}' has no comparison operator"

/-! ## Programs and options -/

/-- What is wrong with a program. -/
inductive ProgramFlaw where
  | contextVariables
  | duplicateStatement (name : String)
  | statementVariables (name : String)
  | duplicateReference (id : Nat)
  | unknownArray (name : String)
  | subscriptCount (id : Nat) (array : String) (count expected : Nat)
  | referenceVariables (id : Nat)
  | emptyRegion (region : Nat)
  | coincidenceCount (region count expected : Nat)
  | regionStatement (region statement : Nat)
  | scheduleLengths (region : Nat)
  | bandLength (region : Nat)
  | noStatement (statement : Nat)
  | emptyKernel
  | unknownReference (id : Nat)
deriving DecidableEq, Repr

def ProgramFlaw.message : ProgramFlaw → String
  | .contextVariables => "context refers to non-parameter variables"
  | .duplicateStatement name => s!"duplicate statement '{name}'"
  | .statementVariables name => s!"statement '{name}' refers to unknown variables"
  | .duplicateReference id => s!"duplicate reference id {id}"
  | .unknownArray name => s!"unknown array '{name}'"
  | .subscriptCount id array n m => s!"reference {id} to '{array}' has {n} indices, expected {m}"
  | .referenceVariables id => s!"reference {id} refers to unknown variables"
  | .emptyRegion r => s!"region {r} is empty"
  | .coincidenceCount r n m => s!"region {r}: {n} coincidence flags for a band of {m}"
  | .regionStatement r s => s!"region {r}: no statement {s}"
  | .scheduleLengths r => s!"region {r}: schedules of different lengths"
  | .bandLength r => s!"region {r}: band exceeds schedule"
  | .noStatement s => s!"no statement {s}"
  | .emptyKernel => "empty kernel region"
  | .unknownReference id => s!"unknown reference {id}"

/-- What is wrong with the options. -/
inductive OptionFlaw where
  | tileSizes
  | gridCount (count : Nat)
  | blockCount (count : Nat)
  | launchSizes
  | memoryBudget
deriving DecidableEq, Repr

def OptionFlaw.message : OptionFlaw → String
  | .tileSizes => "tile sizes must be positive"
  | .gridCount n => s!"expected 1 to 3 grid sizes, got {n}"
  | .blockCount n => s!"expected 1 to 3 block sizes, got {n}"
  | .launchSizes => "grid and block sizes must be positive"
  | .memoryBudget => "shared memory budget cannot be negative"

/-- Causes reported when a program is read, checked or mapped. -/
inductive MapError where
  | engine (cause : EngineError)
  | text (cause : SyntaxError)
  /-- An array that must live in private memory has no private tile. -/
  | placement (array : String)
  | program (flaw : ProgramFlaw)
  | options (flaw : OptionFlaw)
  /-- A text is not the JSON form of the value asked for. -/
  | json
deriving DecidableEq, Repr

def MapError.message : MapError → String
  | .engine cause => "algebra engine failure: " ++ cause.message
  | .text cause => "parse error: " ++ cause.message
  | .placement array => s!"unable to map array '{array}' to private memory"
  | .program flaw => "invalid program: " ++ flaw.message
  | .options flaw => "invalid options: " ++ flaw.message
  | .json => "malformed JSON"

namespace Outcome

/-- An outcome of the constraint engine as one of the mapping. -/
def ofEngine (x : Outcome EngineError α) : Outcome MapError α := x.widen .engine

/-- An outcome of reading text as one of the mapping. -/
def ofText (x : Outcome SyntaxError α) : Outcome MapError α := x.widen .text

/-- A missing word is an overflow. -/
def orOverflow (x : Option α) : Outcome EngineError α := orRaise .overflow x

end Outcome

end KernelMap
