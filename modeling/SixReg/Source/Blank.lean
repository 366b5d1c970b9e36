/-!
# Blank characters

The characters that count as blank at the two ends of a quoted source line: those with the
Unicode property `White_Space`, given as a table of ranges. The table is wider than the four
characters that separate tokens.
-/

namespace SixReg.Source

/-- The ranges of code points, both ends included, with the property `White_Space`. -/
def blankRanges : List (Nat × Nat) :=
  [(0x09, 0x0d), (0x20, 0x20), (0x85, 0x85), (0xa0, 0xa0), (0x1680, 0x1680), (0x2000, 0x200a),
    (0x2028, 0x2029), (0x202f, 0x202f), (0x205f, 0x205f), (0x3000, 0x3000)]

/-- A character is blank iff its code point lies in one of the `blankRanges`. -/
def isBlank (c : Char) : Bool :=
  blankRanges.any fun (lo, hi) => lo ≤ c.toNat && c.toNat ≤ hi

/-- Drops the blank characters at both ends of `cs` and keeps those inside. -/
def trim (cs : List Char) : List Char :=
  ((cs.dropWhile isBlank).reverse.dropWhile isBlank).reverse

end SixReg.Source
