/-!
# KernelMap.Sorted

Sorting short lists by insertion.
-/

namespace KernelMap.Sorted

variable {α : Type}

/-- Insert `x` behind every element whose key is at most its own. -/
def insertBy (key : α → Nat) (x : α) : List α → List α
  | [] => [x]
  | y :: ys => if key y ≤ key x then y :: insertBy key x ys else x :: y :: ys

/-- Sort by key; elements of equal key keep their order. -/
def sortBy (key : α → Nat) (xs : List α) : List α :=
  xs.foldl (fun sorted x => insertBy key x sorted) []

/-- Insert `x` into an ascending list, unless it is there. -/
def insert [LT α] [DecidableLT α] (x : α) : List α → List α
  | [] => [x]
  | y :: ys => if x < y then x :: y :: ys else if y < x then y :: insert x ys else y :: ys

/-- The distinct elements in ascending order. -/
def distinct [LT α] [DecidableLT α] (xs : List α) : List α := xs.foldr insert []

end KernelMap.Sorted
