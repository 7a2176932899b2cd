import KernelMap.Constraint.Basic
import KernelMap.Affine.Parser

/-!
# KernelMap.Constraint.Parser

Reading conjunctions of comparison chains, such as `0 <= i < N and j >= 1`.

A text is split into clauses at `and` between white space, `&&` and `,`; blank
clauses are skipped.  A clause is a chain of affine forms with comparison
operators between them, and yields one constraint per operator.
-/

namespace KernelMap.Constraint

/-! ## Clauses -/

/-- What follows a separator `and` at the front of a text: white space, the
word, and white space again. -/
def afterAnd? (cs : List Char) : Option (List Char) :=
  match cs.dropWhile Text.isBlank with
  | 'a' :: 'n' :: 'd' :: rest =>
    if (cs.head?.any Text.isBlank) && (rest.head?.any Text.isBlank) then
      some (rest.dropWhile Text.isBlank)
    else none
  | _ => none

/-- What follows a clause separator at the front of a text. -/
def afterSeparator? (cs : List Char) : Option (List Char) :=
  match cs with
  | '&' :: '&' :: rest => some rest
  | ',' :: rest => some rest
  | _ => afterAnd? cs

/-- The clauses of `cs`, where `clause` holds the characters of the first one
read so far, last one first.  Every step takes a character, so `n` steps exhaust
a text of that length. -/
def clausesFrom : (n : Nat) → (clause : List Char) → List Char → List (List Char)
  | _, clause, [] => [clause.reverse]
  | 0, clause, cs => [clause.reverse ++ cs]
  | n + 1, clause, c :: cs =>
    match afterSeparator? (c :: cs) with
    | some rest => clause.reverse :: clausesFrom n [] rest
    | none => clausesFrom n (c :: clause) cs

/-- The clauses of a text, white space at their ends removed and blank ones left
out. -/
def clauses (cs : List Char) : List (List Char) :=
  ((clausesFrom cs.length [] cs).map Text.trim).filter (!·.isEmpty)

/-! ## Chains -/

/-- Comparison operators. -/
inductive Comparison where
  | le
  | lt
  | ge
  | gt
  | eq
deriving DecidableEq, Repr

/-- The longest operator at the front of a text, and what follows it. -/
def splitComparison? : List Char → Option (Comparison × List Char)
  | '<' :: '=' :: rest => some (.le, rest)
  | '>' :: '=' :: rest => some (.ge, rest)
  | '=' :: '=' :: rest => some (.eq, rest)
  | '<' :: rest => some (.lt, rest)
  | '>' :: rest => some (.gt, rest)
  | '=' :: rest => some (.eq, rest)
  | _ => none

/-- A chain: its first operand, and each operator with the operand after it. -/
structure Chain where
  first : List Char
  links : List (Comparison × List Char)
deriving DecidableEq, Repr

/-- The chain of a text, where `operand` holds the characters of the first
operand read so far, last one first. -/
def chainFrom : (n : Nat) → (operand : List Char) → List Char → Chain
  | _, operand, [] => ⟨operand.reverse, []⟩
  | 0, operand, cs => ⟨operand.reverse ++ cs, []⟩
  | n + 1, operand, c :: cs =>
    match splitComparison? (c :: cs) with
    | some (op, rest) =>
      let chain := chainFrom n [] rest
      ⟨operand.reverse, (op, chain.first) :: chain.links⟩
    | none => chainFrom n (c :: operand) cs

/-- The constraint that `lhs` and `rhs` compare as `op` says; strict comparisons
of integers are shifted by one. -/
def ofComparison (op : Comparison) (lhs rhs : Affine) : Outcome EngineError Constraint :=
  match op with
  | .le => do return ge (← rhs.sub lhs)
  | .lt => do return ge (← (← rhs.sub lhs).addConst (-1))
  | .ge => do return ge (← lhs.sub rhs)
  | .gt => do return ge (← (← lhs.sub rhs).addConst (-1))
  | .eq => do return eq (← lhs.sub rhs)

/-- The constraints between consecutive operands of a chain read from `clause`. -/
def linkConstraints (clause : String) :
    Affine → List (Comparison × Affine) → Outcome SyntaxError (List Constraint)
  | _, [] => .ok []
  | lhs, (op, rhs) :: rest => do
    let c ←
      match ofComparison op lhs rhs with
      | .ok c => .ok c
      | .error _ => .raise (.outOfRange clause)
    return c :: (← linkConstraints clause rhs rest)

/-- Read the operands of the links of a chain. -/
def parseLinks (names : List String) :
    List (Comparison × List Char) → Outcome SyntaxError (List (Comparison × Affine))
  | [] => .ok []
  | (op, text) :: rest => do
    let operand ← Affine.parse (String.ofList text) names
    return (op, operand) :: (← parseLinks names rest)

/-- Read one clause. -/
def parseChain (cs : List Char) (names : List String) : Outcome SyntaxError (List Constraint) :=
  let chain := chainFrom cs.length [] cs
  if chain.links.isEmpty then .raise (.noComparison (String.ofList cs))
  else do
    let first ← Affine.parse (String.ofList chain.first) names
    let links ← parseLinks names chain.links
    linkConstraints (String.ofList cs) first links

/-- Read the given clauses, in order. -/
def parseClauses (names : List String) : List (List Char) → Outcome SyntaxError (List Constraint)
  | [] => .ok []
  | clause :: rest => do
    let cs ← parseChain clause names
    return cs ++ (← parseClauses names rest)

/-- Read a conjunction; `names[i]` is variable `i`.  A blank text has no
constraints. -/
def parse (text : String) (names : List String) : Outcome SyntaxError (List Constraint) :=
  parseClauses names (clauses text.toList)

end KernelMap.Constraint
