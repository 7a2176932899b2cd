import KernelMap.Group.Bounds

/-!
# KernelMap.Group.Merge

Forming the groups of a kernel.

Every reference starts as a group of its own.  Groups are merged when one of them
writes and they overlap, first for fixed tile loops, then, when the tiles are
known, inside of the loops around their copies.  At last overlapping shared tiles
are merged where that saves memory.
-/

namespace KernelMap

/-! ## Joining elements of a list -/

section Join

variable {ε α β : Type} (join : α → α → Outcome ε (Option (α × β)))

/-- Join `a` with the first element that lets it: the result and the list without
that element. -/
def joinWith (a : α) : List α → Outcome ε (Option ((α × β) × List α))
  | [] => .ok none
  | b :: bs => do
    match ← join a b with
    | some c => return some (c, bs)
    | none =>
      match ← joinWith a bs with
      | some (c, rest) => return some (c, b :: rest)
      | none => return none

/-- Join the first pair of elements that lets it; the result takes the place of the
first of them. -/
def joinFirst : List α → Outcome ε (Option (List α × β))
  | [] => .ok none
  | a :: as => do
    match ← joinWith join a as with
    | some ((c, x), rest) => return some (c :: rest, x)
    | none =>
      match ← joinFirst as with
      | some (rest, x) => return some (a :: rest, x)
      | none => return none

end Join

namespace Group

/-! ## Overlapping groups -/

/-- Do the groups share an element at a point of the first `depth` coordinates? -/
def overlap (sc : Scope) (depth : Nat) (a b : Group) : Outcome EngineError Bool := do
  let x ← sc.access a.refs depth
  let y ← sc.access b.refs depth
  x.overlaps y

/-- The union of two groups, if one of them writes and they overlap at the depth
chosen for them. -/
def mergeWriting (sc : Scope) (depthOf : Group → Group → Nat)
    (finish : Group → Outcome MapError Group) (a b : Group) :
    Outcome MapError (Option (Group × Unit)) :=
  if !(a.write || b.write) then .ok none
  else do
    if ← .ofEngine (overlap sc (depthOf a b) a b) then
      return some (← finish (merge sc a b), ())
    else
      return none

/-- Merge pairs until none is left to merge.  Every round removes a group, so their
number bounds the rounds. -/
def mergeRounds (join : Group → Group → Outcome MapError (Option (Group × Unit))) :
    (n : Nat) → List Group → Outcome MapError (List Group)
  | 0, gs => .ok gs
  | n + 1, gs => do
    match ← joinFirst join gs with
    | some (gs, _) => mergeRounds join n gs
    | none => return gs

/-- Merge groups that overlap for fixed tile loops. -/
def mergeOverlapping (sc : Scope) (gs : List Group) : Outcome MapError (List Group) :=
  let depth := sc.effectiveDepth sc.schedule.sharedLen
  mergeRounds (mergeWriting sc (fun _ _ => depth) .ok) gs.length gs

/-- Merge groups that overlap inside of the loops around their copies. -/
def mergeOnLastShared (sc : Scope) (gs : List Group) : Outcome MapError (List Group) :=
  mergeRounds (mergeWriting sc (fun a b => min a.copyLevel b.copyLevel) (computeBounds sc))
    gs.length gs

/-! ## Shared tiles -/

/-- The union of two groups with overlapping shared tiles, if its shared tile needs
less memory than theirs; and whether its copies move out of a loop. -/
def coalescePair (sc : Scope) (elementSize depth : Nat) (a b : Group) :
    Outcome MapError (Option (Group × Bool)) :=
  match a.sharedTile, b.sharedTile with
  | some ta, some tb => do
    if ← .ofEngine (overlap sc depth a b) then
      let merged ← computeBounds sc (merge sc a b)
      match merged.sharedTile with
      | some t =>
        if t.footprint elementSize < Word.satAdd (ta.footprint elementSize)
          (tb.footprint elementSize) then
          return some (merged, merged.copyLevel < a.copyLevel || merged.copyLevel < b.copyLevel)
        else
          return none
      | none => return none
    else
      return none
  | _, _ => .ok none

/-- Merge shared tiles until that saves no more memory.  Every round removes a
group, so their number bounds the rounds. -/
def coalesceRounds (sc : Scope) (elementSize depth : Nat) :
    (n : Nat) → List Group → Outcome MapError (List Group)
  | 0, gs => .ok gs
  | n + 1, gs => do
    match ← joinFirst (coalescePair sc elementSize depth) gs with
    | some (gs, true) => coalesceRounds sc elementSize depth n (← mergeOnLastShared sc gs)
    | some (gs, false) => coalesceRounds sc elementSize depth n gs
    | none => return gs

/-- Merge overlapping shared tiles of groups of one array where that saves
memory. -/
def coalesceShared (sc : Scope) (gs : List Group) : Outcome MapError (List Group) :=
  match gs with
  | [] => .ok []
  | g :: _ => do
    let array ← sc.array g.array
    coalesceRounds sc array.elementSize (sc.effectiveDepth sc.schedule.sharedLen) gs.length gs

/-! ## All groups -/

/-- The groups with their numbers. -/
def number (gs : List Group) : List Group :=
  ((List.range gs.length).zip gs).map fun (nr, g) => { g with nr }

/-- The groups of the references to one array. -/
def ofReferences (sc : Scope) (refs : List Nat) : Outcome MapError (List Group) := do
  let gs ← refs.mapM (ofReference sc)
  let gs ← mergeOverlapping sc gs
  let gs ← gs.mapM (computeBounds sc)
  let gs ← mergeOnLastShared sc gs
  let gs ← coalesceShared sc gs
  return number gs

/-- The groups of the given arrays. -/
def ofArrays (sc : Scope) : List ArrayDecl → Outcome MapError (List Group)
  | [] => .ok []
  | a :: as => do
    let gs ← ofReferences sc (sc.referencesTo a.name)
    return gs ++ (← ofArrays sc as)

/-- The groups of a kernel, array by array. -/
def all (sc : Scope) : Outcome MapError (List Group) := ofArrays sc sc.program.arrays

end Group

end KernelMap
