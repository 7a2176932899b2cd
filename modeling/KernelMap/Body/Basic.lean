import KernelMap.Group.Basic
import KernelMap.Scope.Coverage

/-!
# KernelMap.Body.Basic

The body of a kernel: statements, copies and barriers, each with its time.

A time alternates between slots and schedule coordinates, and ends after a slot or
a coordinate:

```
[slot, c₀, slot, c₁, …]
```

At every depth the slots put copies into local memory first, then a barrier, the
rest of the body, a barrier, copies back to global memory and a last barrier.
-/

namespace KernelMap

/-! ## Items -/

/-- One entry of a time. -/
inductive Moment where
  /-- A place in the order at some depth. -/
  | slot (n : Int)
  /-- The value of schedule coordinate `j`. -/
  | dim (j : Nat)
  /-- A fixed value of a schedule coordinate. -/
  | const (value : Int)
deriving DecidableEq, Repr

/-- The text of a moment in messages. -/
def Moment.describe : Moment → String
  | .slot n => s!"Slot({n})"
  | .dim j => s!"Dim({j})"
  | .const v => s!"Const({v})"

/-- The direction of a copy between global and local memory. -/
inductive Direction where
  | copyIn
  | copyOut
deriving DecidableEq, Repr

/-- What is done at some time. -/
inductive Work where
  /-- Run the statement at a position of the kernel's schedule. -/
  | statement (index : Nat) (name : String)
  /-- Copy the elements of the references of a group. -/
  | copy (group : Nat) (var : String) (direction : Direction) (memory : Memory) (refs : List Nat)
  /-- Wait for all threads of the block. -/
  | sync
deriving DecidableEq, Repr

/-- Work and its time. -/
structure Item where
  work : Work
  time : List Moment
deriving DecidableEq, Repr

/-- The number of schedule coordinates around an item. -/
def Item.level (i : Item) : Nat := (i.time.length - 1) / 2

/-- The ordered body of a kernel. -/
structure Body where
  schedule : KernelSchedule
  items : List Item
  /-- For each schedule coordinate: its loop is unrolled. -/
  unrolled : List Bool
deriving DecidableEq, Repr

/-! ## Slots -/

namespace Slot

/-- Copies into local memory. -/
def copyIn : Int := 0

/-- The barrier before the body. -/
def syncBefore : Int := 1

/-- Everything else. -/
def body : Int := 2

/-- The barrier after the body. -/
def syncAfter : Int := 3

/-- Copies back to global memory. -/
def copyOut : Int := 4

/-- The barrier before the next iteration. -/
def syncTrailing : Int := 5

end Slot

namespace Body

/-! ## Statements -/

/-- Coordinate `j` of a statement: a constant if it is one in every statement. -/
def statementMoment {ε : Type} (k : KernelSchedule) (st : StmtSchedule) (j : Nat) :
    Outcome ε Moment :=
  if k.isConstantDim j then do return .const (← .orFault st.dims[j]?).constant
  else .ok (.dim j)

/-- The item of the statement at a position of the schedule. -/
def statementItem {ε : Type} (sc : Scope) (index : Nat) (st : StmtSchedule) : Outcome ε Item := do
  let k := sc.schedule
  let s ← .orFault sc.program.statements[st.stmt]?
  let coords ← (List.range k.depth).mapM (statementMoment k st)
  return ⟨.statement index s.name, coords.flatMap (fun c => [.slot Slot.body, c]) ++
    [.slot Slot.body]⟩

/-- The items of all statements. -/
def statementItems {ε : Type} (sc : Scope) : Outcome ε (List Item) :=
  ((List.range sc.schedule.statements.length).zip sc.schedule.statements).mapM fun (i, st) =>
    statementItem sc i st

/-! ## Times of copies and barriers -/

/-- Which of several statements gives the constant coordinates of a time. -/
inductive Pick where
  | first
  | last

/-- The least or greatest of the values, `0` if there is none. -/
def Pick.choose (pick : Pick) : List Int → Int
  | [] => 0
  | v :: vs =>
    match pick with
    | .first => vs.foldl min v
    | .last => vs.foldl max v

/-- Coordinate `j` of an item that serves the statements. -/
def leadMoment (k : KernelSchedule) (statements : List Nat) (pick : Pick) (j : Nat) : Moment :=
  if k.isConstantDim j then
    .const (pick.choose (statements.map fun s =>
      (k.statements[s]?.bind (·.dims[j]?)).elim 0 (·.constant)))
  else .dim j

/-- The time of an item at a level that serves the statements, up to its own
slot. -/
def leadTime (k : KernelSchedule) (level : Nat) (statements : List Nat) (pick : Pick) :
    List Moment :=
  (List.range level).flatMap fun j => [.slot Slot.body, leadMoment k statements pick j]

/-- Is there a loop inside of the kernel around the level? -/
def hasEnclosingLoop (k : KernelSchedule) (level : Nat) : Bool :=
  (Access.positions k.tileFirst (min level k.depth)).any fun j =>
    k.levels[j]?.any (!·.isMapped) && !k.isConstantDim j

/-- The level of copies of a private tile: just below the deepest loop it depends
on.  Ids are fixed for the whole kernel, so they do not count. -/
def privateLevel (k : KernelSchedule) (g : Group) : Nat :=
  let deepest := g.privateTile.bind fun t => t.deepestOuter? k.tileFirst fun j =>
    k.levels[j]?.all (!·.isMapped)
  deepest.elim (k.tileFirst + k.nGrid) (· + 1)

/-- The level of the copies of a group, if it has a local copy. -/
def copyLevel? (k : KernelSchedule) (g : Group) : Option Nat :=
  match g.memory with
  | .global => none
  | .shared => some g.copyLevel
  | .priv => some (privateLevel k g)

/-- The positions of the statements with references of a group. -/
def statementsOf (sc : Scope) (g : Group) : List Nat :=
  Sorted.distinct (g.refs.filterMap fun id => (sc.reference? id).map (·.position))

/-! ## Copies -/

/-- The references of a group to copy in and to copy out. -/
structure CopyNeeds where
  into : List Nat
  out : List Nat
deriving DecidableEq, Repr

/-- The reads that no write covers. -/
def uncovered (sc : Scope) (writes : List Nat) (level : Nat) :
    List Nat → Outcome EngineError (List Nat)
  | [] => .ok []
  | r :: rs => do
    if ← writes.anyM fun w => sc.isCovered r w level then
      uncovered sc writes level rs
    else
      return r :: (← uncovered sc writes level rs)

/-- The references of a group that satisfy a condition. -/
def refsWhere (sc : Scope) (g : Group) (p : Reference → Bool) : List Nat :=
  g.refs.filter fun id => (sc.reference? id).any (p ·.reference)

/-- The references to copy at a level.  Covered reads need no copy in.  Writes that
may leave out elements are copied in as well, so that those elements keep their
values.  Writes are copied out, unless the array is internal to the program and
all reads of it are covered here. -/
def copyNeeds (sc : Scope) (g : Group) (level : Nat) : Outcome MapError CopyNeeds := do
  let reads := refsWhere sc g (!·.isWrite)
  let writes := refsWhere sc g (·.isWrite)
  let needed ← .ofEngine (uncovered sc writes level reads)
  let into := if g.definiteWrite then needed else Sorted.sortBy sc.order (needed ++ writes)
  if g.write then
    let array ← sc.array g.array
    let total := (sc.program.statements.flatMap (·.references)).countP fun r =>
      r.array == g.array && r.isRead
    if array.internal && needed.isEmpty && decide (total ≤ reads.length) then
      return ⟨into, []⟩
    else
      return ⟨into, writes⟩
  else
    return ⟨into, []⟩

/-- The copy of some references of group number `gi`, unless there are none. -/
def copyItem (k : KernelSchedule) (gi : Nat) (var : String) (memory : Memory) (level : Nat)
    (statements : List Nat) (direction : Direction) (refs : List Nat) : List Item :=
  if refs.isEmpty then []
  else
    let (slot, pick) := match direction with
      | .copyIn => (Slot.copyIn, Pick.first)
      | .copyOut => (Slot.copyOut, Pick.last)
    [⟨.copy gi var direction memory refs, leadTime k level statements pick ++
      [.slot slot, .const gi]⟩]

/-! ## Barriers -/

/-- The barriers needed at a level. -/
structure Barrier where
  level : Nat
  before : Bool
  after : Bool
  statements : List Nat
deriving DecidableEq, Repr

/-- Add the needs at a level to those of all levels, which are in ascending
order. -/
def addBarrier (b : Barrier) : List Barrier → List Barrier
  | [] => [b]
  | c :: cs =>
    if b.level < c.level then b :: c :: cs
    else if c.level < b.level then c :: addBarrier b cs
    else ⟨c.level, c.before || b.before, c.after || b.after, c.statements ++ b.statements⟩ :: cs

/-- The barriers of a level. -/
def barrierItems (k : KernelSchedule) (b : Barrier) : List Item :=
  let item (slot : Int) (pick : Pick) : Item :=
    ⟨.sync, leadTime k b.level b.statements pick ++ [.slot slot]⟩
  (if b.before then [item Slot.syncBefore .first] else []) ++
    (if b.after then [item Slot.syncAfter .last] else []) ++
      (if hasEnclosingLoop k b.level then [item Slot.syncTrailing .last] else [])

/-! ## The body -/

/-- The copies of the groups from number `gi` on, and the barriers for them added to
`barriers`. -/
def copyItems (sc : Scope) (groups : List Group) : Nat → List Group → List Barrier →
    Outcome MapError (List Item × List Barrier)
  | _, [], barriers => .ok ([], barriers)
  | gi, g :: gs, barriers =>
    match copyLevel? sc.schedule g with
    | none => copyItems sc groups (gi + 1) gs barriers
    | some level => do
      let needs ← copyNeeds sc g level
      let statements := statementsOf sc g
      let item := copyItem sc.schedule gi (g.localName groups) g.memory level statements
      let items := item .copyIn needs.into ++ item .copyOut needs.out
      let barriers :=
        if g.memory == .shared && !items.isEmpty then
          addBarrier ⟨level, !needs.into.isEmpty, !needs.out.isEmpty, statements⟩ barriers
        else barriers
      let (rest, barriers) ← copyItems sc groups (gi + 1) gs barriers
      return (items ++ rest, barriers)

/-- The body of a kernel with the given groups. -/
def build (sc : Scope) (groups : List Group) : Outcome MapError Body := do
  let statements ← statementItems sc
  let (copies, barriers) ← copyItems sc groups 0 groups []
  let stage ← sc.schedule.stage.advance .bodyScheduled
  return {
    schedule := { sc.schedule with stage }
    items := statements ++ copies ++ barriers.flatMap (barrierItems sc.schedule)
    unrolled := List.replicate sc.schedule.depth false }

end Body

end KernelMap
