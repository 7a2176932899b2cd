import KernelMap.Json.Basic

/-!
# KernelMap.Json.Printer

The text of JSON values, on one line or indented.

The writers put the text of a value in front of the text that follows it, so
that long texts are built without copying.  In indented text every element and
member has a line of its own, two blanks deeper than the bracket it stands in;
empty lists and objects stay on one line.
-/

namespace KernelMap.Json

/-! ## Strings -/

/-- The character of a hexadecimal digit. -/
def hexDigit (n : Nat) : Char := Nat.digitChar n

/-- The text of a character inside a string: quotes, backslashes and control
characters are escaped. -/
def escape (c : Char) : List Char :=
  if c == '"' then ['\\', '"']
  else if c == '\\' then ['\\', '\\']
  else if c.toNat < 0x20 then
    if c.toNat == 0x08 then ['\\', 'b']
    else if c.toNat == 0x09 then ['\\', 't']
    else if c.toNat == 0x0A then ['\\', 'n']
    else if c.toNat == 0x0C then ['\\', 'f']
    else if c.toNat == 0x0D then ['\\', 'r']
    else ['\\', 'u', '0', '0', hexDigit (c.toNat / 16), hexDigit (c.toNat % 16)]
  else [c]

/-- Put escaped characters in front of `rest`. -/
def escapeOnto : List Char → List Char → List Char
  | [], rest => rest
  | c :: cs, rest => escape c ++ escapeOnto cs rest

/-- Put a quoted string in front of `rest`. -/
def quoteOnto (s : String) (rest : List Char) : List Char :=
  '"' :: escapeOnto s.toList ('"' :: rest)

/-- The text of an integer. -/
def intChars (n : Int) : List Char :=
  if n < 0 then '-' :: Nat.toDigits 10 n.natAbs else Nat.toDigits 10 n.natAbs

/-! ## One line -/

mutual
/-- Put the text of a value in front of `rest`. -/
def compactOnto : Json → List Char → List Char
  | .null, rest => 'n' :: 'u' :: 'l' :: 'l' :: rest
  | .bool true, rest => 't' :: 'r' :: 'u' :: 'e' :: rest
  | .bool false, rest => 'f' :: 'a' :: 'l' :: 's' :: 'e' :: rest
  | .int n, rest => intChars n ++ rest
  | .real, rest => '0' :: '.' :: '0' :: rest
  | .str s, rest => quoteOnto s rest
  | .illegible, rest => '"' :: '"' :: rest
  | .arr xs, rest => '[' :: elemsOnto xs (']' :: rest)
  | .obj ms, rest => '\x7b' :: membersOnto ms ('\x7d' :: rest)

/-- Put the elements of a list, separated by commas, in front of `rest`. -/
def elemsOnto : List Json → List Char → List Char
  | [], rest => rest
  | [x], rest => compactOnto x rest
  | x :: xs, rest => compactOnto x (',' :: elemsOnto xs rest)

/-- Put the members of an object, separated by commas, in front of `rest`. -/
def membersOnto : List (String × Json) → List Char → List Char
  | [], rest => rest
  | [(k, v)], rest => quoteOnto k (':' :: compactOnto v rest)
  | (k, v) :: ms, rest => quoteOnto k (':' :: compactOnto v (',' :: membersOnto ms rest))
end

/-- The text on one line, without blanks. -/
def compact (j : Json) : String := String.ofList (compactOnto j [])

/-! ## Indented -/

/-- Put a line break and an indentation in front of `rest`. -/
def breakOnto (depth : Nat) (rest : List Char) : List Char :=
  '\n' :: (List.replicate (2 * depth) ' ' ++ rest)

mutual
/-- Put the indented text of a value at nesting depth `depth` in front of
`rest`. -/
def prettyOnto : (depth : Nat) → Json → List Char → List Char
  | depth, .arr (x :: xs), rest =>
      '[' :: prettyElemsOnto (depth + 1) (x :: xs) (breakOnto depth (']' :: rest))
  | depth, .obj (m :: ms), rest =>
    '\x7b' :: prettyMembersOnto (depth + 1) (m :: ms) (breakOnto depth ('\x7d' :: rest))
  | _, .arr [], rest => '[' :: ']' :: rest
  | _, .obj [], rest => '\x7b' :: '\x7d' :: rest
  | _, .null, rest => compactOnto .null rest
  | _, .bool b, rest => compactOnto (.bool b) rest
  | _, .int n, rest => compactOnto (.int n) rest
  | _, .real, rest => compactOnto .real rest
  | _, .str s, rest => compactOnto (.str s) rest
  | _, .illegible, rest => compactOnto .illegible rest

/-- Put the elements of a list, each on its own line, in front of `rest`. -/
def prettyElemsOnto : (depth : Nat) → List Json → List Char → List Char
  | _, [], rest => rest
  | depth, [x], rest => breakOnto depth (prettyOnto depth x rest)
  | depth, x :: xs, rest =>
      breakOnto depth (prettyOnto depth x (',' :: prettyElemsOnto depth xs rest))

/-- Put the members of an object, each on its own line, in front of `rest`. -/
def prettyMembersOnto : (depth : Nat) → List (String × Json) → List Char → List Char
  | _, [], rest => rest
  | depth, [(k, v)], rest => breakOnto depth (quoteOnto k (':' :: ' ' :: prettyOnto depth v rest))
  | depth, (k, v) :: ms, rest =>
    breakOnto depth
      (quoteOnto k (':' :: ' ' :: prettyOnto depth v (',' :: prettyMembersOnto depth ms rest)))
end

/-- The indented text. -/
def pretty (j : Json) : String := String.ofList (prettyOnto 0 j [])

end KernelMap.Json
