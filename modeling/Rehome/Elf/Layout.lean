import Rehome.Text.Utf8

/-!
# Layout of ELF files

An ELF file says in its first bytes how wide its words are and in which order the bytes of a
number stand. All numbers are read as natural numbers; `Layout.fits` tells whether one fits into
a word.
-/

namespace Rehome.Elf

inductive Width where
  | bits32
  | bits64
  deriving DecidableEq, Repr

inductive ByteOrder where
  | little
  | big
  deriving DecidableEq, Repr

structure Layout where
  width : Width
  order : ByteOrder
  deriving DecidableEq, Repr

/-- A step that takes bytes off the front of what is left of a file. -/
abbrev Reader := StateT Bytes Option

def takeBytes (count : Nat) : Reader Bytes := fun bytes =>
  if count ≤ bytes.length then some (bytes.take count, bytes.drop count) else none

def readMany {α : Type} (count : Nat) (reader : Reader α) : Reader (List α) :=
  match count with
  | 0 => pure []
  | count + 1 => do
    let first ← reader
    let rest ← readMany count reader
    return first :: rest

/-- Offsets from this one on cannot be gone to. -/
def offsetLimit : Nat := Nat.pow 2 63

/-- Reads at an offset, which may lie behind the end of the file. -/
def readAt {α : Type} (offset : Nat) (reader : Reader α) (data : Bytes) : Option α :=
  if offset < offsetLimit then (reader (data.drop offset)).map Prod.fst else none

def littleEndian : Bytes → Nat
  | [] => 0
  | b :: bytes => b.toNat + 256 * littleEndian bytes

namespace Layout

def wordBytes (l : Layout) : Nat :=
  match l.width with
  | .bits32 => 4
  | .bits64 => 8

def fits (l : Layout) (n : Nat) : Bool :=
  n < Nat.pow 256 l.wordBytes

def value (l : Layout) (bytes : Bytes) : Nat :=
  match l.order with
  | .little => littleEndian bytes
  | .big => littleEndian bytes.reverse

def number (l : Layout) (count : Nat) : Reader Nat :=
  return l.value (← takeBytes count)

def half (l : Layout) : Reader Nat := l.number 2

def quarter (l : Layout) : Reader Nat := l.number 4

def word (l : Layout) : Reader Nat := l.number l.wordBytes

end Layout

end Rehome.Elf
