import KernelMap.Polyhedron.Optimum

/-!
# KernelMap.Polyhedron.Equalities

Making equalities explicit: inequalities that are tight on the whole set, and
variables with a single possible value.
-/

namespace KernelMap.Polyhedron

/-! ## Tight inequalities -/

/-- Replace position `i` of the list by its last element and append `c`. -/
def swapLast (cs : List Constraint) (i : Nat) (c : Constraint) : List Constraint :=
  match cs.getLast? with
  | none => [c]
  | some last => (cs.set i last).dropLast ++ [c]

/-- Turn the tight inequality `c` at position `i` into an equality, which moves
to the end. -/
def tightenAt (s : Polyhedron) (i : Nat) (c : Constraint) : Outcome EngineError Polyhedron := do
  match ← Constraint.normalize { c with kind := .equality } with
  | some e => return { s with constraints := swapLast s.constraints i e }
  | none =>
    return { s with
      constraints := swapLast s.constraints i { c with kind := .equality },
      infeasible := true }

/-- What a round of the search for tight inequalities comes to. -/
inductive Round where
  /-- The search is over. -/
  | done (s : Polyhedron)
  /-- The search goes on from position `i`. -/
  | next (i : Nat) (s : Polyhedron)

/-- One round of the search for tight inequalities, at position `i`. -/
def tightenRound (i : Nat) (s : Polyhedron) : Outcome EngineError Round :=
  if s.infeasible then .ok (.done s)
  else
    match s.constraints[i]? with
    | none => .ok (.done s)
    | some c =>
      match c.kind with
      | .equality => .ok (.next (i + 1) s)
      | .inequality => do
        match ← s.maximize c.expr with
        | .empty => return .done { s with infeasible := true }
        | .unbounded => return .next (i + 1) s
        | .value v =>
          if v < 0 then return .done { s with infeasible := true }
          else if v = 0 then return .next i (← s.tightenAt i c)
          else return .next (i + 1) s

/-- Look for tight inequalities from position `i` on, in at most `n` rounds. -/
def tightenRounds : (n : Nat) → (i : Nat) → Polyhedron → Outcome EngineError Polyhedron
  | 0, _, s => .ok s
  | n + 1, i, s => do
    match ← tightenRound i s with
    | .done t => return t
    | .next j t => tightenRounds n j t

/-- How many inequalities a polyhedron lists. -/
def inequalities (s : Polyhedron) : Nat := s.constraints.countP (·.kind == .inequality)

/-- The polyhedron with its tight inequalities turned into equalities.  Every
round of the search goes one position on or turns an inequality into an equality,
so the number of positions and inequalities bounds the rounds. -/
def detectEqualities (s : Polyhedron) : Outcome EngineError Polyhedron := do
  let s ← s.simplify
  let s ← tightenRounds (s.constraints.length + s.inequalities) 0 s
  s.simplify

/-! ## Determined variables -/

/-- Add `v = c` if `c` is the only possible value of `v`. -/
def fixVar (s : Polyhedron) (v : Nat) : Outcome EngineError Polyhedron :=
  if s.infeasible || !s.involves v then .ok s
  else do
    let hi ← s.maximize (.var v)
    let lo ← s.minimize (.var v)
    match lo, hi with
    | .value l, .value h =>
      if l = h then
        s.addTerms .equality [(v, 1)] (← .orFault (Word.neg? l))
      else if h < l then
        return { s with infeasible := true }
      else
        return s
    | .empty, _ => return { s with infeasible := true }
    | _, .empty => return { s with infeasible := true }
    | _, _ => return s

/-- Fix each variable of the list that has a single possible value. -/
def fixVars (s : Polyhedron) : List Nat → Outcome EngineError Polyhedron
  | [] => .ok s
  | v :: vs => do fixVars (← s.fixVar v) vs

/-- Fix the variables from `start` up to but not including `stop` that have a
single possible value. -/
def fixDetermined (s : Polyhedron) (start stop : Nat) : Outcome EngineError Polyhedron := do
  (← s.fixVars (List.range' start (min stop s.nVars - start))).simplify

end KernelMap.Polyhedron
