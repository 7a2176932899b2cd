/-!
# KernelMap.Word

Arithmetic on 64-bit words and on list positions.

Words are integers between `Word.least` and `Word.greatest`; positions are
natural numbers below `Index.limit`.  Every operation computes the exact
integer and answers `none` when that integer is not a word (or the divisor is
zero).  The caller decides what a missing result means: the constraint engine
reports it, other code treats it as a fault.
-/

namespace KernelMap

namespace Word

/-! ## Range -/

/-- The least word. -/
def least : Int := -9223372036854775808

/-- The greatest word. -/
def greatest : Int := 9223372036854775807

/-- Is `x` a word?  The first disjunct is implied by the second; it settles the
common case without arithmetic on large integers. -/
def fits (x : Int) : Bool :=
  (decide (-1073741824 ≤ x) && decide (x ≤ 1073741823)) ||
    (decide (least ≤ x) && decide (x ≤ greatest))

theorem fits_iff {x : Int} : fits x = true ↔ least ≤ x ∧ x ≤ greatest := by
  simp only [fits, Bool.or_eq_true, Bool.and_eq_true, decide_eq_true_eq]
  constructor
  · rintro (⟨hl, hg⟩ | h)
    · exact ⟨Int.le_trans (by decide) hl, Int.le_trans hg (by decide)⟩
    · exact h
  · exact Or.inr

/-- `x` itself if it is a word. -/
def check (x : Int) : Option Int :=
  if fits x then some x else none

theorem check_eq_some_iff {x y : Int} : check x = some y ↔ fits x = true ∧ x = y := by
  unfold check
  split <;> simp_all

/-! ## Ring operations -/

def add? (a b : Int) : Option Int := check (a + b)

def sub? (a b : Int) : Option Int := check (a - b)

def mul? (a b : Int) : Option Int := check (a * b)

def neg? (a : Int) : Option Int := check (-a)

/-- Absolute value; the least word has none. -/
def abs? (a : Int) : Option Int := check a.natAbs

/-- The nearest word. -/
def clamp (x : Int) : Int := max least (min x greatest)

/-- Sum, clamped to the words. -/
def satAdd (a b : Int) : Int := clamp (a + b)

/-- Product, clamped to the words. -/
def satMul (a b : Int) : Int := clamp (a * b)

/-! ## Division -/

/-- Quotient rounded toward zero. -/
def div? (a b : Int) : Option Int :=
  if b = 0 then none else check (a.tdiv b)

/-- Remainder with the sign of the dividend.  It is missing exactly when the
quotient is. -/
def rem? (a b : Int) : Option Int :=
  (div? a b).map fun _ => a.tmod b

/-- Quotient rounded down. -/
def floorDiv? (a b : Int) : Option Int :=
  if b = 0 then none else check (a.fdiv b)

/-- Quotient rounded up, computed as `-⌊-a / b⌋`, so the least word has no
quotient at all. -/
def ceilDiv? (a b : Int) : Option Int := do
  let n ← neg? a
  let q ← floorDiv? n b
  neg? q

/-- Greatest common divisor of the absolute values. -/
def gcd? (a b : Int) : Option Int := do
  let a ← abs? a
  let b ← abs? b
  some (Int.gcd a b)

end Word

namespace Index

/-! ## Positions -/

/-- Positions lie below this bound. -/
def limit : Nat := 18446744073709551616

/-- The longest list of words that can be stored. -/
def maxLength : Nat := 1152921504606846975

def add? (a b : Nat) : Option Nat :=
  if a + b < limit then some (a + b) else none

def sub? (a b : Nat) : Option Nat :=
  if b ≤ a then some (a - b) else none

end Index

end KernelMap
