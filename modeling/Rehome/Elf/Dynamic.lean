import Rehome.Elf.Check

/-!
# The dynamic table

A file that is linked when it is started has a section with rows of a tag and a value, which ends
with a row of tag 0. Room for all rows is made before any of them is read, so a section that is too
large for any memory makes reading break off.
-/

namespace Rehome.Elf

/-- Reads the rows of a dynamic table up to one of tag 0, but at most `count`: their tags and
values. -/
def readDynamicRows (l : Layout) (count : Nat) : Reader (List (Nat × Nat)) :=
  match count with
  | 0 => pure []
  | count + 1 => do
    let tag ← l.word
    guard (tag < Nat.pow 2 32)
    if tag = 0 then return []
    let value ← l.word
    let rest ← readDynamicRows l count
    return (tag, value) :: rest

/-- The rows of the dynamic table, if there is such a section and it can be read. -/
def File.dynamicRows? (f : File) (data : Bytes) : Option (List (Nat × Nat)) := do
  let s ← f.sections.find? Section.isDynamic
  let l := f.header.layout
  let rowBytes := 2 * l.wordBytes
  readAt s.offset (readDynamicRows l ((s.size + (rowBytes - 1)) / rowBytes)) data

/-- No memory has room for this many bytes. -/
def memoryLimit : Nat := Nat.pow 2 63

/-- Whether memory can have room for the dynamic table, if there is such a section. -/
def File.dynamicFits (f : File) : Bool :=
  (f.sections.find? Section.isDynamic).all fun s => s.size < memoryLimit

end Rehome.Elf
