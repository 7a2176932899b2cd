/-!
# KernelMap.Text.Name

Identifiers: a letter or underscore followed by letters, digits and
underscores, all of them ASCII.
-/

namespace KernelMap.Text

/-- Can `c` start an identifier? -/
def isNameStart (c : Char) : Bool := c.isAlpha || c == '_'

/-- Can `c` continue an identifier? -/
def isNamePart (c : Char) : Bool := c.isAlphanum || c == '_'

/-- The identifier at the front of a text (empty if there is none) and what
follows it. -/
def splitName : List Char → List Char × List Char
  | [] => ([], [])
  | c :: cs =>
    if isNameStart c then (c :: cs.takeWhile isNamePart, cs.dropWhile isNamePart)
    else ([], c :: cs)

end KernelMap.Text
