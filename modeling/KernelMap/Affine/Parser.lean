import KernelMap.Affine.Basic
import KernelMap.Text.Blank
import KernelMap.Text.Digit
import KernelMap.Text.Name

/-!
# KernelMap.Affine.Parser

Reading affine forms such as `2*i - N + 3`.

White space is dropped first.  What is left is a sum of terms: an optional sign
(mandatory from the second term on) and a number, a name, or a number and a
name with an optional `*` between them.  A name stands for the variable at its
first position in the list of names.

Digits of all scripts are taken for digits, but only numbers written with ASCII
digits, and not beyond the greatest word, have a value.
-/

namespace KernelMap.Affine

/-- A term as it is written. -/
structure Term where
  sign : Option Char
  digits : List Char
  star : Bool
  name : List Char
deriving DecidableEq, Repr

namespace Term

/-- The sign at the front of a text, if there is one. -/
def splitSign : List Char → Option Char × List Char
  | [] => (none, [])
  | c :: cs => if c == '+' || c == '-' then (some c, cs) else (none, c :: cs)

/-- Whether a text starts with `*`, and what follows it. -/
def splitStar : List Char → Bool × List Char
  | [] => (false, [])
  | c :: cs => if c == '*' then (true, cs) else (false, c :: cs)

/-- The longest term at the front of a text, each part possibly missing, and
what follows it. -/
def split (cs : List Char) : Term × List Char :=
  let (sign, cs) := splitSign cs
  let digits := cs.takeWhile Text.isDigit
  let (star, cs) := splitStar (cs.dropWhile Text.isDigit)
  let (name, cs) := Text.splitName cs
  (⟨sign, digits, star, name⟩, cs)

/-- Is the term complete?  It needs a number or a name, and both around a `*`;
only the first term goes without a sign. -/
def wellFormed (t : Term) (first : Bool) : Bool :=
  (first || t.sign.isSome) && (!t.digits.isEmpty || !t.name.isEmpty) &&
    (!t.star || (!t.digits.isEmpty && !t.name.isEmpty))

end Term

/-- The number written by ASCII digits, on top of the value `n` of those before
them. -/
def digitsValue : Nat → List Char → Option Nat
  | n, [] => some n
  | n, c :: cs => if c.isDigit then digitsValue (10 * n + (c.toNat - '0'.toNat)) cs else none

/-- The factor of a term: its number, or `1` if it has none. -/
def Term.magnitude (t : Term) : Option Int :=
  if t.digits.isEmpty then some 1
  else do Word.check (← digitsValue 0 t.digits)

/-- Add one term to `a`.  `text` is what is being read. -/
def addTerm (text : String) (names : List String) (a : Affine) (t : Term) :
    Outcome SyntaxError Affine := do
  let magnitude ← .orRaise (.malformed (String.ofList t.digits)) t.magnitude
  let value := if t.sign == some '-' then -magnitude else magnitude
  if t.name.isEmpty then
    let constant ← .orRaise (.outOfRange text) (Word.add? a.constant value)
    return { a with constant }
  else
    let name := String.ofList t.name
    let i ← .orRaise (.unknownName name) (names.idxOf? name)
    let coeff ← .orRaise (.outOfRange text) (Word.add? (a.coeff i) value)
    return a.setCoeff i coeff

/-- Add the terms of `cs` to `a`, in order.  Every term takes a character, so
`n` terms exhaust a text of that length. -/
def addTerms (text : String) (names : List String) :
    (n : Nat) → (first : Bool) → List Char → Affine → Outcome SyntaxError Affine
  | _, _, [], a => .ok a
  | 0, _, cs, _ => .raise (.malformed (String.ofList cs))
  | n + 1, first, cs, a =>
    let (t, rest) := Term.split cs
    if t.wellFormed first then do
      addTerms text names n false rest (← addTerm text names a t)
    else
      .raise (.malformed (String.ofList cs))

/-- Read an affine form; `names[i]` is variable `i`. -/
def parse (text : String) (names : List String) : Outcome SyntaxError Affine :=
  let cs := Text.compact text.toList
  if cs.isEmpty then .raise .empty
  else addTerms text names cs.length true cs (const 0)

end KernelMap.Affine
