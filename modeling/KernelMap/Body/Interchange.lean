import KernelMap.Body.Basic

/-!
# KernelMap.Body.Interchange

Moving the loops to be unrolled innermost.

Only the coordinates after the thread ids are moved: the loops that are not to be
unrolled come first, in their order, then those to be unrolled, in the order
given.
-/

namespace KernelMap.Body

/-- The old positions of the coordinates from `start` up to `depth`, in their new
order. -/
def newOrder (start depth : Nat) (unroll : List Nat) : List Nat :=
  (Access.positions start depth).filter (!unroll.contains ·) ++
    unroll.filter fun p => decide (start ≤ p) && decide (p < depth)

/-- The new position of coordinate `p`. -/
def newPosition (start : Nat) (order : List Nat) (p : Nat) : Nat :=
  match order.findIdx? (· == p) with
  | some k => start + k
  | none => p

/-- The list with its entries from `start` on taken from the old positions in
`order`, and those after them kept. -/
def reorder {α : Type} (start : Nat) (order : List Nat) (xs : List α) : List α :=
  xs.take start ++ order.filterMap (xs[·]?) ++ xs.drop (start + order.length)

/-- A statement with its coordinates in the new order. -/
def reorderStatement {ε : Type} (start : Nat) (order : List Nat) (st : StmtSchedule) :
    Outcome ε StmtSchedule :=
  if !order.isEmpty && decide (st.dims.length < start + order.length) then .fault
  else .ok { st with dims := reorder start order st.dims }

/-- A moment with its coordinate at its new position, out of `depth`. -/
def moveMoment {ε : Type} (start depth : Nat) (order : List Nat) : Moment → Outcome ε Moment
  | .dim j => if j < depth then .ok (.dim (newPosition start order j)) else .fault
  | other => .ok other

/-- Entry `pos` of a time in the new order. -/
def movedEntry {ε : Type} (start depth : Nat) (order : List Nat) (time : List Moment) (pos : Nat) :
    Outcome ε Moment := do
  let old := if pos % 2 = 1 ∧ start ≤ pos / 2 then order[pos / 2 - start]? else none
  match old with
  | some old => moveMoment start depth order (← .orFault time[2 * old + 1]?)
  | none => .orFault time[pos]?

/-- An item with its coordinates in the new order.  Items that do not have all
coordinates stay as they are. -/
def reorderItem {ε : Type} (start depth : Nat) (order : List Nat) (i : Item) : Outcome ε Item :=
  if i.time.length = 2 * depth + 1 then do
    return { i with
      time := ← (List.range i.time.length).mapM (movedEntry start depth order i.time) }
  else .ok i

/-- The body with the loops at the positions `unroll` moved innermost and marked as
unrolled. -/
def interchange {ε : Type} (b : Body) (unroll : List Nat) : Outcome ε Body :=
  if unroll.isEmpty then .ok b
  else
    let k := b.schedule
    let start := k.privateLen
    let order := newOrder start k.depth unroll
    if k.depth - start < order.length then .fault
    else do
      let statements ← k.statements.mapM (reorderStatement start order)
      let items ← b.items.mapM (reorderItem start k.depth order)
      let unrolled := (List.range k.depth).map fun q =>
        unroll.any fun p => decide (p < k.depth) && newPosition start order p == q
      let stage ← k.stage.advance .unrollInterchanged
      return { schedule := { k with levels := reorder start order k.levels, statements, stage },
               items, unrolled }

end KernelMap.Body
