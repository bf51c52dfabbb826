import Rehome.Data.Trim
import Rehome.Path.Basic
import Rehome.Text.Utf8

/-!
# First lines of scripts

A file that begins with `#!` is run by the interpreter that its first line names. Only the first
bytes of the file are looked at, as if zeros followed a shorter file. If the line does not end in
them, its last word may be incomplete, and then it cannot be the name of the interpreter.
-/

namespace Rehome.Files

/-- What a first line asks for: an interpreter, and an argument that it gets before all others. -/
structure Interpreter where
  path : Path
  argument? : Option Text
  deriving DecidableEq, Repr

namespace Interpreter

/-- How many bytes of a file are looked at. -/
def headLength : Nat := 256

def isGap (b : UInt8) : Bool := b = 0x20 || b = 0x09

/-- The interpreter named by a line that has no gap at its end. -/
def ofLine? (line : Bytes) : Option Interpreter :=
  let line := line.dropWhile isGap
  let name := line.takeWhile fun b => !isGap b && b ≠ 0
  let rest := line.drop name.length
  let argument := (rest.dropWhile isGap).takeWhile (· ≠ 0)
  if line = [] then none
  else some ⟨⟨Text.ofUtf8 name⟩, if rest.head?.any isGap then some (Text.ofUtf8 argument) else none⟩

/-- The interpreter of a file that holds these bytes, if it is a script. -/
def ofBytes? (bytes : Bytes) : Option Interpreter :=
  if (Text.utf8 "#!".toList).isPrefixOf bytes then
    let head := ((bytes.take headLength).rightpad headLength 0).drop 2
    let line := head.takeWhile fun b => b ≠ 0x0A && b ≠ 0
    if (head.drop line.length).head? = some 0x0A then ofLine? (trimRight isGap line)
    else if (head.dropWhile isGap).any fun b => isGap b || b = 0 then
      ofLine? (trimRight isGap head.dropLast)
    else none
  else none

end Interpreter

end Rehome.Files
