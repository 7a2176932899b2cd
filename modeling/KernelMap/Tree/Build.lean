import KernelMap.Tree.Basic

/-!
# KernelMap.Tree.Build

The loop tree of a kernel body, and of the host code around kernels.

Items are split by one entry of their times after the other.  Those whose time has
ended are leaves and come first; slots and constants order the others, and a
coordinate that varies becomes a loop around its items.
-/

namespace KernelMap.Tree

/-! ## Entries of times -/

/-- The slots of items at an even position. -/
def slotsAt (pos : Nat) : List Item → Outcome EngineError (List Int)
  | [] => .ok []
  | i :: is =>
    match i.time[pos]? with
    | some (.slot n) => do return n :: (← slotsAt pos is)
    | some m => .raise (.spaceMismatch (.missingSlot pos m.describe))
    | none => slotsAt pos is

/-- The constant of an item at a position. -/
def constAt? (pos : Nat) (i : Item) : Option Int :=
  match i.time[pos]? with
  | some (.const v) => some v
  | _ => none

/-- The items with the given entry at a position. -/
def itemsAt (pos : Nat) (m : Moment) (items : List Item) : List Item :=
  items.filter fun i => i.time[pos]? == some m

/-- The items whose entry at a position is no constant. -/
def itemsVarying (pos : Nat) (items : List Item) : List Item :=
  items.filter fun i => (constAt? pos i).isNone

/-! ## Nodes -/

/-- The name of the block or thread id for coordinate `j`. -/
def mappedId (k : KernelSchedule) (j : Nat) (kind : Level) : String :=
  let offset := match kind with
    | .blockId => j - k.tileFirst
    | _ => k.nGrid + (j - k.sharedLen)
  k.paramNames.getD (k.nProgramParam + offset) ""

/-- The nodes for coordinate `j` around others.  A coordinate of the host is fixed
for a kernel and needs no node. -/
def wrap (b : Body) (j : Nat) (inner : List Tree) : List Tree :=
  let kind := b.schedule.levels.getD j .inner
  let info : NodeInfo := ⟨j, kind, b.unrolled.getD j false⟩
  match kind with
  | .host => inner
  | .blockId | .threadId => [mapped info (mappedId b.schedule j kind) (block inner)]
  | _ => [loop info (block inner)]

/-- The trees of several lists of items, one after the other. -/
def concat (f : List Item → Outcome EngineError (List Tree)) :
    List (List Item) → Outcome EngineError (List Tree)
  | [] => .ok []
  | items :: rest => do return (← f items) ++ (← concat f rest)

/-- The nodes of items that agree on the entries before `pos`; no time has more
than `n` entries from there on. -/
def nodes (b : Body) : (n : Nat) → (pos : Nat) → List Item → Outcome EngineError (List Tree)
  | 0, _, items => .ok (items.map fun i => ofWork i.work)
  | n + 1, pos, items => do
    let ended := (items.filter fun i => decide (i.time.length ≤ pos)).map fun i => ofWork i.work
    let rest := items.filter fun i => decide (pos < i.time.length)
    if rest.isEmpty then
      return ended
    else if pos % 2 = 0 then
      let slots ← slotsAt pos rest
      let inner ← concat (nodes b n (pos + 1)) ((Sorted.distinct slots).map fun s =>
        itemsAt pos (.slot s) rest)
      return ended ++ inner
    else
      let consts := Sorted.distinct (rest.filterMap (constAt? pos))
      let fixed ← concat (nodes b n (pos + 1)) (consts.map fun v => itemsAt pos (.const v) rest)
      let varying := itemsVarying pos rest
      if varying.isEmpty then
        return ended ++ fixed
      else
        let inner ← nodes b n (pos + 1) varying
        return ended ++ fixed ++ wrap b (pos / 2) inner

/-- The longest time of the items. -/
def maxLength (items : List Item) : Nat := items.foldr (fun i n => max i.time.length n) 0

/-- The loop tree of a body. -/
def ofBody (b : Body) : Outcome EngineError Tree := do
  return block (← nodes b (maxLength b.items) 0 b.items)

/-! ## Host code -/

/-- The loops of the host around a kernel, for its coordinates in reverse order. -/
def hostLoops (k : KernelSchedule) : List Nat → Tree → Tree
  | [], t => t
  | j :: js, t =>
      if k.isConstantDim j then hostLoops k js t else hostLoops k js (loop ⟨j, .host, false⟩ t)

/-- The host code that starts the kernels, each given by its number and schedule. -/
def ofKernels (kernels : List (Nat × KernelSchedule)) : Tree :=
  block (kernels.map fun (id, k) => hostLoops k (List.range k.tileFirst).reverse (launch id))

end KernelMap.Tree
