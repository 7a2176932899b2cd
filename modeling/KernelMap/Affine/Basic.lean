import KernelMap.Word
import KernelMap.Failure

/-!
# KernelMap.Affine.Basic

Affine forms `c₀·x₀ + c₁·x₁ + ⋯ + k` over numbered variables.

The coefficients are a dense list of words; variables past its end have
coefficient `0`, so a form of a small space can be used in every extension of
it.  The list is kept as it was written: operations that compute new
coefficients drop trailing zeros (`trim`), the others leave them in place.
`Affine.same` is equality up to trailing zeros.
-/

namespace KernelMap

/-- The affine form `Σ coeffs[i]·xᵢ + constant`. -/
structure Affine where
  coeffs : List Int
  constant : Int
deriving DecidableEq, Repr, Inhabited

/-! ## Coefficient lists -/

namespace Coeffs

/-- The list without its trailing zeros. -/
def trim : List Int → List Int
  | [] => []
  | c :: cs =>
    match trim cs with
    | [] => if c = 0 then [] else [c]
    | rest => c :: rest

/-- The list followed by zeros up to length `n`. -/
def pad (n : Nat) (cs : List Int) : List Int :=
  cs ++ List.replicate (n - cs.length) 0

/-- Apply a partial operation to every entry. -/
def map? (f : Int → Option Int) : List Int → Option (List Int)
  | [] => some []
  | c :: cs => do return (← f c) :: (← map? f cs)

/-- Combine two lists entry by entry, reading `0` past the end of the shorter
one. -/
def zipPad? (f : Int → Int → Option Int) : List Int → List Int → Option (List Int)
  | [], bs => map? (f 0) bs
  | a :: as, [] => do return (← f a 0) :: (← zipPad? f as [])
  | a :: as, b :: bs => do return (← f a b) :: (← zipPad? f as bs)

/-- Are the lists equal? -/
def eqv : List Int → List Int → Bool
  | [], [] => true
  | a :: as, b :: bs => if a = b then eqv as bs else false
  | _, _ => false

theorem eqv_iff {as bs : List Int} : eqv as bs = true ↔ as = bs := by
  induction as generalizing bs with
  | nil => cases bs <;> simp [eqv]
  | cons a as ih =>
    cases bs with
    | nil => simp [eqv]
    | cons b bs => by_cases h : a = b <;> simp [eqv, h, ih]

/-- Do the lists agree up to trailing zeros? -/
def same : List Int → List Int → Bool
  | [], bs => bs.all (· == 0)
  | as, [] => as.all (· == 0)
  | a :: as, b :: bs => a == b && same as bs

end Coeffs

namespace Affine

/-! ## Forms and their coefficients -/

/-- The form without variables. -/
def const (k : Int) : Affine := ⟨[], k⟩

/-- The coefficient of variable `i`. -/
def coeff (a : Affine) (i : Nat) : Int := a.coeffs.getD i 0

/-- The form with the coefficient of variable `i` replaced.  Setting a
coefficient past the end to zero changes nothing. -/
def setCoeff (a : Affine) (i : Nat) (value : Int) : Affine :=
  if i < a.coeffs.length then
    { a with coeffs := Coeffs.trim (a.coeffs.set i value) }
  else if value = 0 then
    a
  else
    { a with coeffs := Coeffs.pad i a.coeffs ++ [value] }

/-- The form `k·xᵢ`. -/
def term (i : Nat) (k : Int) : Affine := (const 0).setCoeff i k

/-- The form `xᵢ`. -/
def var (i : Nat) : Affine := term i 1

/-- `setCoeff`, refused when the coefficient list would be too long to store. -/
def setCoeff? (a : Affine) (i : Nat) (value : Int) : Option Affine :=
  if a.coeffs.length ≤ i ∧ value ≠ 0 ∧ Index.maxLength ≤ i then none
  else some (a.setCoeff i value)

/-- One more than the last variable with a non-zero coefficient. -/
def width (a : Affine) : Nat := (Coeffs.trim a.coeffs).length

/-- Are all coefficients zero? -/
def isConst (a : Affine) : Bool := a.coeffs.all (· == 0)

/-- Is the coefficient of variable `i` non-zero? -/
def involves (a : Affine) (i : Nat) : Bool := a.coeff i != 0

/-- Is some variable from `start` up to but not including `stop` involved? -/
def involvesRange (a : Affine) (start stop : Nat) : Bool :=
  (a.coeffs.take stop).drop start |>.any (· != 0)

/-- The form without trailing zero coefficients. -/
def trimmed (a : Affine) : Affine := { a with coeffs := Coeffs.trim a.coeffs }

/-- Equality up to trailing zero coefficients. -/
def same (a b : Affine) : Bool :=
  a.constant == b.constant && Coeffs.same a.coeffs b.coeffs

/-- The numbers that a hash of the form is made from: how many coefficients there
are up to the last one other than zero, these coefficients, and the constant. -/
def hashed (a : Affine) : List Int := (a.width : Int) :: a.coeffs.take a.width ++ [a.constant]

/-! ## Arithmetic -/

/-- The form `k₁·a + k₂·b`, trailing zeros included, if every product and every
sum is a word. -/
def combine? (k₁ : Int) (a : Affine) (k₂ : Int) (b : Affine) : Option Affine := do
  let lin (x y : Int) : Option Int := do
    let p ← Word.mul? x k₁
    let q ← Word.mul? y k₂
    Word.add? p q
  let coeffs ← Coeffs.zipPad? lin a.coeffs b.coeffs
  let constant ← lin a.constant b.constant
  return ⟨coeffs, constant⟩

/-- Sum of two forms. -/
def add (a b : Affine) : Outcome EngineError Affine :=
  .orOverflow do
    let coeffs ← Coeffs.zipPad? Word.add? a.coeffs b.coeffs
    let constant ← Word.add? a.constant b.constant
    return trimmed ⟨coeffs, constant⟩

/-- The form multiplied by `k`. -/
def scale (a : Affine) (k : Int) : Outcome EngineError Affine :=
  .orOverflow do
    let coeffs ← Coeffs.map? (Word.mul? · k) a.coeffs
    let constant ← Word.mul? a.constant k
    return trimmed ⟨coeffs, constant⟩

/-- Difference, as the sum with the negated second form. -/
def sub (a b : Affine) : Outcome EngineError Affine := do
  a.add (← b.scale (-1))

/-- The form with `k` added to its constant. -/
def addConst (a : Affine) (k : Int) : Outcome EngineError Affine := do
  let constant ← .orOverflow (Word.add? a.constant k)
  return { a with constant }

/-- The form without the variables from `n` on. -/
def truncated (a : Affine) (n : Nat) : Affine :=
  trimmed { a with coeffs := a.coeffs.take n }

/-! ## Renumbering and evaluation -/

/-- Add the terms with coefficients `cs` to `out`, renumbered by the positions
beside them. -/
def remapOnto {ε : Type} : List Int → List Nat → Affine → Outcome ε Affine
  | [], _, out => .ok out
  | c :: cs, [], out => if c = 0 then remapOnto cs [] out else .fault
  | c :: cs, i :: is, out =>
    if c = 0 then remapOnto cs is out
    else do
      let sum ← .orFault (Word.add? (out.coeff i) c)
      let out ← .orFault (out.setCoeff? i sum)
      remapOnto cs is out

/-- The form with variable `i` renamed to `map[i]`.  Only variables that occur
are looked up in the map. -/
def remapped {ε : Type} (a : Affine) (map : List Nat) : Outcome ε Affine :=
  remapOnto a.coeffs map (const a.constant)

/-- Add the products of coefficients and values to `sum`, in order; terms with
coefficient zero are skipped. -/
def evalOnto : List Int → List Int → Int → Outcome EngineError Int
  | [], _, sum => .ok sum
  | c :: cs, vs, sum =>
    if c = 0 then evalOnto cs vs.tail sum
    else do
      let product ← .orOverflow (Word.mul? c (vs.headD 0))
      let sum ← .orOverflow (Word.add? sum product)
      evalOnto cs vs.tail sum

/-- The value at `values`; variables past the end of the list are `0`. -/
def eval (a : Affine) (values : List Int) : Outcome EngineError Int :=
  evalOnto a.coeffs values a.constant

end Affine

end KernelMap
