import KernelMap.Json.Basic

/-!
# KernelMap.Json.Reader

Reading JSON text.

Every reader takes a list of characters and returns a value together with the
characters after it, or `none` if the text does not start with such a value.
-/

namespace KernelMap.Json

/-! ## White space and literals -/

/-- The four characters that may stand between tokens. -/
def isSpace (c : Char) : Bool := c == ' ' || c == '\t' || c == '\n' || c == '\r'

/-- The text without white space at its front. -/
def skipSpace (cs : List Char) : List Char := cs.dropWhile isSpace

/-- What follows `word` at the front of a text. -/
def expect? : (word : List Char) → List Char → Option (List Char)
  | [], cs => some cs
  | w :: ws, c :: cs => if w == c then expect? ws cs else none
  | _ :: _, [] => none

/-! ## Strings -/

/-- The value of a hexadecimal digit. -/
def hexValue? (c : Char) : Option Nat :=
  if c.isDigit then some (c.toNat - '0'.toNat)
  else if decide ('a' ≤ c) && decide (c ≤ 'f') then some (c.toNat - 'a'.toNat + 10)
  else if decide ('A' ≤ c) && decide (c ≤ 'F') then some (c.toNat - 'A'.toNat + 10)
  else none

/-- The number written by four hexadecimal digits at the front of a text. -/
def hex4? : List Char → Option (Nat × List Char)
  | a :: b :: c :: d :: rest => do
    let a ← hexValue? a
    let b ← hexValue? b
    let c ← hexValue? c
    let d ← hexValue? d
    some (((a * 16 + b) * 16 + c) * 16 + d, rest)
  | _ => none

/-- The character of a `\u` escape, whose digits are at the front of the text.
Two escapes name one character when they are a surrogate pair; a surrogate by
itself names none. -/
def unicodeEscape? (cs : List Char) : Option (Option Char × List Char) := do
  let (high, rest) ← hex4? cs
  if 0xD800 ≤ high ∧ high < 0xDC00 then
    match (expect? ['\\', 'u'] rest).bind hex4? with
    | some (low, tail) =>
      if 0xDC00 ≤ low ∧ low < 0xE000 then
        some (some (Char.ofNat (0x10000 + (high - 0xD800) * 0x400 + (low - 0xDC00))), tail)
      else
        some (none, rest)
    | none => some (none, rest)
  else if 0xDC00 ≤ high ∧ high < 0xE000 then
    some (none, rest)
  else
    some (some (Char.ofNat high), rest)

/-- The character of an escape other than `\u`. -/
def simpleEscape? (c : Char) : Option Char :=
  if c == '"' || c == '\\' || c == '/' then some c
  else if c == 'b' then some (Char.ofNat 0x08)
  else if c == 'f' then some (Char.ofNat 0x0C)
  else if c == 'n' then some '\n'
  else if c == 'r' then some '\r'
  else if c == 't' then some '\t'
  else none

/-- One more character of a string, unless the string is spoiled by an escape that
names none. -/
def extend (c : Option Char) (out : Option (List Char)) : Option (List Char) :=
  match c, out with
  | some c, some out => some (c :: out)
  | _, _ => none

/-- Read the rest of a string up to its closing quote; `out` holds the characters
read so far, last one first, unless some escape names none.  Every step takes a
character, so `n` steps exhaust a text of that length. -/
def stringFrom : (n : Nat) → (out : Option (List Char)) → List Char →
    Option (Option String × List Char)
  | 0, _, _ => none
  | _ + 1, _, [] => none
  | n + 1, out, c :: cs =>
    if c == '"' then some (out.map (String.ofList ·.reverse), cs)
    else if c.toNat < 0x20 then none
    else if c == '\\' then
      match cs with
      | [] => none
      | e :: rest =>
        if e == 'u' then
          match unicodeEscape? rest with
          | some (c, rest) => stringFrom n (extend c out) rest
          | none => none
        else
          match simpleEscape? e with
          | some c => stringFrom n (extend (some c) out) rest
          | none => none
    else stringFrom n (extend (some c) out) cs

/-- Read a string whose opening quote has been read. -/
def quoted? (cs : List Char) : Option (Option String × List Char) :=
  stringFrom cs.length (some []) cs

/-! ## Numbers -/

/-- The number written by decimal digits, on top of the value `n` of those before
them. -/
def decimalFrom : Nat → List Char → Nat
  | n, [] => n
  | n, c :: cs => decimalFrom (10 * n + (c.toNat - '0'.toNat)) cs

/-- What follows a fraction at the front of a text, if there is one. -/
def skipFraction? : List Char → Option (List Char)
  | '.' :: c :: cs => if c.isDigit then some (cs.dropWhile Char.isDigit) else none
  | _ => none

/-- What follows an exponent at the front of a text, if there is one. -/
def skipExponent? : List Char → Option (List Char)
  | e :: cs =>
    if e == 'e' || e == 'E' then
      let cs :=
        match cs with
        | s :: rest => if s == '+' || s == '-' then rest else cs
        | [] => []
      match cs with
      | c :: cs => if c.isDigit then some (cs.dropWhile Char.isDigit) else none
      | [] => none
    else none
  | [] => none

/-- Read a number without its sign. -/
def magnitude? (negative : Bool) (cs : List Char) : Option (Json × List Char) :=
  match cs with
  | [] => none
  | c :: tail =>
    if !c.isDigit then none
    else
      let digits := if c == '0' then [c] else c :: tail.takeWhile Char.isDigit
      let rest := if c == '0' then tail else tail.dropWhile Char.isDigit
      let value := decimalFrom 0 digits
      let whole : Json := if negative then (if value = 0 then .real else .int (-value))
        else .int value
      let (number, rest) : Json × List Char :=
        match skipFraction? rest with
        | some rest => (.real, rest)
        | none => (whole, rest)
      match skipExponent? rest with
      | some rest => some (.real, rest)
      | none => some (number, rest)

/-- Read a number.  Minus zero is not an integer. -/
def number? : List Char → Option (Json × List Char)
  | '-' :: cs => magnitude? true cs
  | cs => magnitude? false cs

/-! ## Values -/

/-- A member in front of others, if all names are legible. -/
def addMember (key : Option String) (v : Json) (ms : Option (List (String × Json))) :
    Option (List (String × Json)) := do
  return (← key, v) :: (← ms)

mutual
/-- Read a value at the front of a text, after white space. -/
def value? : (n : Nat) → List Char → Option (Json × List Char)
  | 0, _ => none
  | n + 1, cs =>
    match skipSpace cs with
    | [] => none
    | c :: rest =>
      if c == '"' then (quoted? rest).map fun (s, rest) => (s.elim .illegible .str, rest)
      else if c == '[' then
        match skipSpace rest with
        | ']' :: rest => some (.arr [], rest)
        | _ => (elems? n rest).map fun (xs, rest) => (.arr xs, rest)
      else if c == '\x7b' then
        match skipSpace rest with
        | '\x7d' :: rest => some (.obj [], rest)
        | _ => (members? n rest).map fun (ms, rest) => (ms.elim .illegible .obj, rest)
      else if c == 'n' then (expect? ['u', 'l', 'l'] rest).map fun rest => (.null, rest)
      else if c == 't' then (expect? ['r', 'u', 'e'] rest).map fun rest => (.bool true, rest)
      else if c == 'f' then (expect? ['a', 'l', 's', 'e'] rest).map fun rest => (.bool false, rest)
      else number? (c :: rest)

/-- Read the elements of a list up to and including its closing bracket. -/
def elems? : (n : Nat) → List Char → Option (List Json × List Char)
  | 0, _ => none
  | n + 1, cs => do
    let (x, rest) ← value? n cs
    match skipSpace rest with
    | ',' :: rest =>
      let (xs, rest) ← elems? n rest
      some (x :: xs, rest)
    | ']' :: rest => some ([x], rest)
    | _ => none

/-- Read the members of an object up to and including its closing brace; there are
none to be had if a member name is illegible. -/
def members? : (n : Nat) → List Char → Option (Option (List (String × Json)) × List Char)
  | 0, _ => none
  | n + 1, cs => do
    let rest ← expect? ['"'] (skipSpace cs)
    let (key, rest) ← quoted? rest
    let rest ← expect? [':'] (skipSpace rest)
    let (v, rest) ← value? n rest
    match skipSpace rest with
    | ',' :: rest =>
      let (ms, rest) ← members? n rest
      some (addMember key v ms, rest)
    | '\x7d' :: rest => some (addMember key v (some []), rest)
    | _ => none
end

/-- Read a text that holds one value and nothing else but white space.  A value
nests at most two readers for each of its characters. -/
def read? (text : String) : Option Json := do
  let cs := text.toList
  let (j, rest) ← value? (2 * cs.length + 2) cs
  if (skipSpace rest).isEmpty then some j else none

end KernelMap.Json
