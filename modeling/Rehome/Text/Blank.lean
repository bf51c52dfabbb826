import Rehome.Data.Trim
import Rehome.Text.Basic

/-!
# Blank characters

The characters with the Unicode property `White_Space`, and texts without such characters at
their ends.
-/

namespace Rehome

/-- The code points with the property `White_Space`, as ranges. -/
def blankRanges : List (Nat × Nat) :=
  [(0x9, 0xD), (0x20, 0x20), (0x85, 0x85), (0xA0, 0xA0), (0x1680, 0x1680), (0x2000, 0x200A),
    (0x2028, 0x2029), (0x202F, 0x202F), (0x205F, 0x205F), (0x3000, 0x3000)]

/-- Whether `c` has the property `White_Space`. -/
def isBlank (c : Char) : Bool :=
  blankRanges.any fun r => r.1 ≤ c.toNat && c.toNat ≤ r.2

def Text.trimBlank (text : Text) : Text :=
  trim isBlank text

end Rehome
