import KernelMap.Affine.Basic

/-!
# KernelMap.Constraint.Basic

Affine constraints `e = 0` and `e ≥ 0`, their negation and their normal form.

A normalized constraint has coefficients with greatest common divisor `1`; the
constant of an inequality is rounded down, which keeps all integer solutions,
and the first non-zero coefficient of an equality is positive.
-/

namespace KernelMap

/-- The relation of a constraint's form to zero. -/
inductive Constraint.Kind where
  /-- The form is zero. -/
  | equality
  /-- The form is at least zero. -/
  | inequality
deriving DecidableEq, Repr

/-- The constraint `expr = 0` or `expr ≥ 0`. -/
structure Constraint where
  kind : Constraint.Kind
  expr : Affine
deriving DecidableEq, Repr

/-! ## Coefficient lists -/

namespace Coeffs

/-- Every entry negated. -/
def negate? (cs : List Int) : Option (List Int) := map? Word.neg? cs

/-- The greatest common divisor of `g` and the entries, if they all have a
magnitude. -/
def content? : Int → List Int → Option Int
  | g, [] => some g
  | g, c :: cs => if c = 0 then content? g cs else do content? (← Word.gcd? g c) cs

/-- Every entry divided by a common divisor. -/
def divide (g : Int) (cs : List Int) : List Int :=
  if g = 1 then cs else cs.map (·.tdiv g)

/-- The sign of the first non-zero entry, `1` if there is none. -/
def leadSign (cs : List Int) : Int :=
  match cs.find? (· != 0) with
  | some c => c.sign
  | none => 1

/-- The entries multiplied by a sign. -/
def orient (sign : Int) (cs : List Int) : List Int :=
  if sign = 1 then cs else cs.map (· * sign)

end Coeffs

namespace Constraint

/-! ## Basic operations -/

/-- The constraint `e = 0`. -/
def eq (e : Affine) : Constraint := ⟨.equality, e⟩

/-- The constraint `e ≥ 0`. -/
def ge (e : Affine) : Constraint := ⟨.inequality, e⟩

/-- The coefficients of the form. -/
def coeffs (c : Constraint) : List Int := c.expr.coeffs

/-- The constant of the form. -/
def constant (c : Constraint) : Int := c.expr.constant

/-- The coefficient of variable `i`. -/
def coeff (c : Constraint) (i : Nat) : Int := c.expr.coeff i

/-- Are the constraints equal? -/
def eqv (c d : Constraint) : Bool :=
  c.constant == d.constant && c.kind == d.kind && Coeffs.eqv c.coeffs d.coeffs

theorem eqv_iff {c d : Constraint} : c.eqv d = true ↔ c = d := by
  obtain ⟨k, as, a⟩ := c
  obtain ⟨l, bs, b⟩ := d
  simp only [eqv, constant, coeffs, Bool.and_eq_true, beq_iff_eq, Coeffs.eqv_iff, mk.injEq,
    Affine.mk.injEq]
  constructor
  · rintro ⟨⟨ha, hk⟩, hc⟩
    exact ⟨hk, hc, ha⟩
  · rintro ⟨hk, hc, ha⟩
    exact ⟨⟨ha, hk⟩, hc⟩

/-- Does no variable occur? -/
def isConst (c : Constraint) : Bool := c.expr.isConst

/-- Does a form with value `v` satisfy a constraint of this kind? -/
def Kind.accepts (kind : Kind) (v : Int) : Bool :=
  match kind with
  | .equality => v == 0
  | .inequality => decide (0 ≤ v)

/-- Does the constraint hold at `values`? -/
def holds (c : Constraint) (values : List Int) : Outcome EngineError Bool := do
  return c.kind.accepts (← c.expr.eval values)

/-- The constraint with variable `i` renamed to `map[i]`. -/
def remapped {ε : Type} (c : Constraint) (map : List Nat) : Outcome ε Constraint := do
  return { c with expr := ← c.expr.remapped map }

/-- The constraint with its coefficient list extended to length `n`. -/
def pad (n : Nat) (c : Constraint) : Constraint :=
  { c with expr := { c.expr with coeffs := Coeffs.pad n c.coeffs } }

/-! ## From terms -/

/-- One more than the greatest variable of `terms`. -/
def termsLength : List (Nat × Int) → Nat
  | [] => 0
  | (v, _) :: rest => max (v + 1) (termsLength rest)

/-- Add the coefficients of `terms` to the entries of `cs`. -/
def addTerms {ε : Type} : List (Nat × Int) → List Int → Outcome ε (List Int)
  | [], cs => .ok cs
  | (v, k) :: rest, cs => do
    let sum ← .orFault (Word.add? (cs.getD v 0) k)
    addTerms rest (cs.set v sum)

/-- The constraint on the sum of `terms` and `constant`.  Its coefficient list
reaches up to the greatest variable mentioned, also if it cancels out. -/
def ofTerms {ε : Type} (kind : Kind) (terms : List (Nat × Int)) (constant : Int) :
    Outcome ε Constraint :=
  let n := termsLength terms
  if Index.maxLength < n then .fault
  else do return ⟨kind, ← addTerms terms (List.replicate n 0), constant⟩

/-- The non-zero coefficients of `cs` paired with the positions beside them. -/
def placeTerms {ε : Type} : List Int → List Nat → Outcome ε (List (Nat × Int))
  | [], _ => .ok []
  | c :: cs, [] => if c = 0 then placeTerms cs [] else .fault
  | c :: cs, i :: is => do
    let rest ← placeTerms cs is
    return if c = 0 then rest else (i, c) :: rest

/-- The constraint over other variables: variable `i` lives at `map[i]`. -/
def lower {ε : Type} (c : Constraint) (map : List Nat) : Outcome ε Constraint := do
  ofTerms c.kind (← placeTerms c.coeffs map) c.constant

/-! ## Negation -/

/-- The disjuncts of the complement over the integers: `¬ (e ≥ 0)` is
`-e - 1 ≥ 0`, and `¬ (e = 0)` is `e - 1 ≥ 0` or `-e - 1 ≥ 0`. -/
def negated (c : Constraint) : Outcome EngineError (List Constraint) :=
  .orOverflow do
    let flipped ← Coeffs.negate? c.coeffs
    let minus ← Word.neg? c.constant
    let below ← Word.sub? minus 1
    match c.kind with
    | .inequality => return [ge ⟨flipped, below⟩]
    | .equality =>
      let above ← Word.sub? c.constant 1
      return [ge ⟨c.coeffs, above⟩, ge ⟨flipped, below⟩]

/-! ## Normal form -/

/-- The normal form, or `none` if no integer point satisfies the constraint.
A constraint without variables is kept as it is. -/
def normalize {ε : Type} (c : Constraint) : Outcome ε (Option Constraint) := do
  let g ← .orFault (Coeffs.content? 0 c.coeffs)
  if g = 0 then
    return if c.kind.accepts c.constant then some c else none
  else
    match c.kind with
    | .equality =>
      if c.constant.tmod g ≠ 0 then
        return none
      else
        let sign := Coeffs.leadSign c.coeffs
        let constant ← .orFault (Word.mul? (c.constant.tdiv g) sign)
        return some (eq ⟨Coeffs.orient sign (Coeffs.divide g c.coeffs), constant⟩)
    | .inequality =>
      return some (ge ⟨Coeffs.divide g c.coeffs, c.constant.fdiv g⟩)

/-- `k₁·c + k₂·d` with the kind of `c`. -/
def combine (c : Constraint) (k₁ : Int) (d : Constraint) (k₂ : Int) :
    Outcome EngineError Constraint := do
  return ⟨c.kind, ← .orOverflow (Affine.combine? k₁ c.expr k₂ d.expr)⟩

end Constraint

end KernelMap
