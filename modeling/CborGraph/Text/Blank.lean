/-!
# Blank characters

The characters with the Unicode property `White_Space`, and trimming by them.
-/

namespace CborGraph.Text

/-- The character has the property `White_Space`: tab to carriage return, space,
next line, no-break space, the spaces of Ogham and general punctuation, the line and
paragraph separators and the ideographic space. -/
def isBlank (c : Char) : Bool :=
  let n := c.toNat
  (0x09 ≤ n && n ≤ 0x0D) || n == 0x20 || n == 0x85 || n == 0xA0 || n == 0x1680 ||
    (0x2000 ≤ n && n ≤ 0x200A) || n == 0x2028 || n == 0x2029 || n == 0x202F ||
    n == 0x205F || n == 0x3000

/-- `cs` without the blanks at its two ends. -/
def trim (cs : List Char) : List Char :=
  ((cs.dropWhile isBlank).reverse.dropWhile isBlank).reverse

end CborGraph.Text
