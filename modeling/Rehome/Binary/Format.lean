import Rehome.Elf.Decoder

/-!
# Format of a file

What kind of file some data is, as far as relocation is concerned.
-/

namespace Rehome.Binary

inductive Format where
  /-- An ELF file; a dynamic one has a dynamic table. -/
  | elf (dynamic : Bool)
  | macho
  | other
  deriving DecidableEq, Repr

namespace Format

/-- Whether files of this format can be linked dynamically. -/
def isBinary : Format → Bool
  | elf dynamic => dynamic
  | macho => true
  | other => false

/-- The beginnings of Mach-O files, of both widths and byte orders, and of archives of them. -/
def machoMagics : List Bytes :=
  [[0xFE, 0xED, 0xFA, 0xCE], [0xCE, 0xFA, 0xED, 0xFE], [0xFE, 0xED, 0xFA, 0xCF],
    [0xCF, 0xFA, 0xED, 0xFE], [0xCA, 0xFE, 0xBA, 0xBE], [0xBE, 0xBA, 0xFE, 0xCA]]

/-- The format of some data, by its beginning. There is none if decoding an ELF file breaks off. -/
def ofBytes? [Elf.Decoder] (data : Bytes) : Option Format :=
  let beginning := data.take 4
  if beginning ∈ machoMagics then some .macho
  else if beginning ≠ Elf.magic then some .other
  else
    match Elf.Decoder.decode data with
    | .refused => some .other
    | .file dynamic => some (.elf dynamic)
    | .crashed => none

end Format

end Rehome.Binary
