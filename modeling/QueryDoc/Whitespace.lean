/-!
# QueryDoc.Whitespace

The characters with Unicode's property `White_Space`, which decide what a blank line is and
how far a line is indented.
-/

namespace QueryDoc

/-- The code points with the property `White_Space`, as ranges with both ends. -/
def whitespaceRanges : List (Nat × Nat) :=
  [(0x9, 0xD), (0x20, 0x20), (0x85, 0x85), (0xA0, 0xA0), (0x1680, 0x1680), (0x2000, 0x200A),
    (0x2028, 0x2029), (0x202F, 0x202F), (0x205F, 0x205F), (0x3000, 0x3000)]

def isWhitespace (c : Char) : Bool :=
  whitespaceRanges.any fun r => decide (r.1 ≤ c.toNat ∧ c.toNat ≤ r.2)

end QueryDoc
