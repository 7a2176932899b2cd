/-!
# KernelMap.Text.Blank

White space of all scripts (the characters with property `White_Space`), and
the trimming and removal of it.
-/

namespace KernelMap.Text

/-- Is `c` a white space character? -/
def isBlank (c : Char) : Bool :=
  let n := c.toNat
  (decide (0x09 ≤ n) && decide (n ≤ 0x0D)) || n == 0x20 || n == 0x85 || n == 0xA0 || n == 0x1680 ||
    (decide (0x2000 ≤ n) && decide (n ≤ 0x200A)) || n == 0x2028 || n == 0x2029 || n == 0x202F ||
    n == 0x205F || n == 0x3000

/-- The text without any white space. -/
def compact (cs : List Char) : List Char := cs.filter (!isBlank ·)

/-- The text without white space at its ends. -/
def trim (cs : List Char) : List Char :=
  ((cs.dropWhile isBlank).reverse.dropWhile isBlank).reverse

end KernelMap.Text
