import Rehome.Text.Utf8

/-!
# Printable runs

The strings embedded in a binary are its runs of printable bytes that no longer run contains, if
they are long enough.
-/

namespace Rehome.Binary

def isPrintable (b : UInt8) : Bool :=
  b = 9 || (0x20 ≤ b && b < 0x7F)

/-- The shortest run that counts as a string. -/
def shortestRun : Nat := 4

/-- The maximal runs of printable bytes that are long enough, in file order. -/
def runs (data : Bytes) : List Bytes :=
  (data.splitOnP fun b => !isPrintable b).filter fun run => shortestRun ≤ run.length

def asciiText (bytes : Bytes) : Text :=
  bytes.map fun b => Char.ofNat b.toNat

/-- The strings embedded in a binary, in file order. -/
def strings (data : Bytes) : List Text :=
  (runs data).map asciiText

end Rehome.Binary
