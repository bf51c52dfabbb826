import Rehome.Elf.Dynamic

/-!
# Decoders

A decoder says what some data is as an ELF file. What is done with files takes the decoder as it
is; the one that is used decodes the tables of the file, and refuses it if they are not sound.
-/

namespace Rehome.Elf

/-- What comes of decoding data as an ELF file. -/
inductive Decoded where
  /-- It is no ELF file. -/
  | refused
  /-- It is one, with a dynamic table that can be read or without. -/
  | file (dynamic : Bool)
  /-- Decoding broke off. -/
  | crashed
  deriving DecidableEq, Repr

/-- A decoder of ELF files. As an inferred argument it need not be named where it is handed on. -/
class Decoder where
  decode : Bytes → Decoded

/-- Decoding breaks off if the data is refused for a reason that cannot be told, or would be a file
but has tables with fewer rows than it counts, or a dynamic table that no memory has room for. -/
def decode (data : Bytes) : Decoded :=
  match File.read? data with
  | none => .refused
  | some file =>
    if file.isUntellable then .crashed
    else if !file.isSound then .refused
    else if !(file.isComplete && file.dynamicFits) then .crashed
    else .file (file.dynamicRows? data).isSome

instance : Decoder := ⟨decode⟩

end Rehome.Elf
