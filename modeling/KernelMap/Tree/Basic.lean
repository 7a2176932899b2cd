import KernelMap.Body.Basic

/-!
# KernelMap.Tree.Basic

Loop trees.
-/

namespace KernelMap

/-- The coordinate of a loop or of an id. -/
structure NodeInfo where
  /-- The position of the coordinate. -/
  level : Nat
  kind : Level
  unroll : Bool
deriving DecidableEq, Repr

/-- A tree of loops around work. -/
inductive Tree where
  /-- The children in order. -/
  | block (children : List Tree)
  | loop (info : NodeInfo) (body : Tree)
  /-- A coordinate that is fixed by a block or thread id. -/
  | mapped (info : NodeInfo) (id : String) (body : Tree)
  | user (index : Nat) (name : String)
  | copy (var : String) (direction : Direction) (memory : Memory) (refs : List Nat)
  | sync
  /-- Start a kernel. -/
  | launch (kernel : Nat)
deriving Repr, Inhabited

namespace Tree

mutual
/-- The leaves in the order of execution. -/
def leaves : Tree → List Tree
  | block children => leavesOf children
  | loop _ body => leaves body
  | mapped _ _ body => leaves body
  | user index name => [user index name]
  | copy var direction memory refs => [copy var direction memory refs]
  | sync => [sync]
  | launch kernel => [launch kernel]

/-- The leaves of trees in order. -/
def leavesOf : List Tree → List Tree
  | [] => []
  | t :: ts => leaves t ++ leavesOf ts
end

mutual
/-- The loops and ids around the first leaf that satisfies `p`, from outside in. -/
def enclosing? (p : Tree → Bool) : Tree → Option (List NodeInfo)
  | block children => enclosingOf? p children
  | loop info body => (enclosing? p body).map (info :: ·)
  | mapped info _ body => (enclosing? p body).map (info :: ·)
  | user index name => if p (user index name) then some [] else none
  | copy var direction memory refs => if p (copy var direction memory refs) then some [] else none
  | sync => if p sync then some [] else none
  | launch kernel => if p (launch kernel) then some [] else none

/-- The loops and ids around the first leaf of the trees that satisfies `p`. -/
def enclosingOf? (p : Tree → Bool) : List Tree → Option (List NodeInfo)
  | [] => none
  | t :: ts => (enclosing? p t).or (enclosingOf? p ts)
end

/-- The leaf for some work. -/
def ofWork : Work → Tree
  | .statement index name => user index name
  | .copy _ var direction memory refs => copy var direction memory refs
  | .sync => sync

end Tree

end KernelMap
