import KernelMap.Affine.Basic

/-!
# KernelMap.Affine.Printer

The text of an affine form, such as `N + 2*i - 1`.

Terms stand in the order of their variables and terms with coefficient zero are
left out; the constant follows, unless it is zero beside some term.  Variables
past the end of the name list are written `x0`, `x1`, ….
-/

namespace KernelMap.Affine

/-- The name of variable `i`, where `names` starts with the one of `i`. -/
def nameText (i : Nat) (names : List String) : List Char :=
  match names with
  | [] => 'x' :: Nat.toDigits 10 i
  | name :: _ => name.toList

/-- The sign in front of a term: glued to the first term, between blanks from
the second one on. -/
def signText (first negative : Bool) : List Char :=
  match first, negative with
  | true, true => ['-']
  | true, false => []
  | false, true => [' ', '-', ' ']
  | false, false => [' ', '+', ' ']

/-- The factor in front of a name; `1` is not written. -/
def factorText (magnitude : Int) : List Char :=
  if magnitude = 1 then [] else Nat.toDigits 10 magnitude.natAbs ++ ['*']

/-- Append the terms with coefficients `cs` of the variables from `i` on to
`out`.  A coefficient without a magnitude has no text. -/
def termsOnto : Nat → List String → List Int → List Char → Option (List Char)
  | _, _, [], out => some out
  | i, names, c :: cs, out =>
    if c = 0 then termsOnto (i + 1) names.tail cs out
    else do
      let magnitude ← Word.abs? c
      termsOnto (i + 1) names.tail cs
        (out ++ signText out.isEmpty (decide (c < 0)) ++ factorText magnitude ++ nameText i names)

/-- The text of an integer. -/
def intText (k : Int) : List Char :=
  if k < 0 then '-' :: Nat.toDigits 10 k.natAbs else Nat.toDigits 10 k.natAbs

/-- The text of the form as characters. -/
def renderChars (a : Affine) (names : List String) : Option (List Char) := do
  let out ← termsOnto 0 names a.coeffs []
  if out.isEmpty then
    return intText a.constant
  else if a.constant = 0 then
    return out
  else
    let magnitude ← Word.abs? a.constant
    return out ++ signText false (decide (a.constant < 0)) ++ Nat.toDigits 10 magnitude.natAbs

/-- The text of the form with the given variable names. -/
def render {ε : Type} (a : Affine) (names : List String) : Outcome ε String :=
  .orFault ((a.renderChars names).map String.ofList)

end KernelMap.Affine
