import Rehome.Elf.Layout

/-!
# Header and tables of ELF files

The header tells where the table of segments and the table of sections begin, how many rows they
have and how long a row is. A segment is a part of the file that a loader maps into memory; a
section is a part that has a use of its own.
-/

namespace Rehome.Elf

structure Header where
  layout : Layout
  /-- What the file is for: 1 for a file that is still to be linked. -/
  kind : Nat
  entry : Nat
  segmentsAt : Nat
  sectionsAt : Nat
  /-- The length of the header itself. -/
  size : Nat
  segmentSize : Nat
  segmentCount : Nat
  sectionSize : Nat
  sectionCount : Nat
  /-- The section that holds the names of sections. -/
  namesIndex : Nat
  deriving DecidableEq, Repr

structure Segment where
  kind : Nat
  offset : Nat
  address : Nat
  physicalAddress : Nat
  fileSize : Nat
  memorySize : Nat
  align : Nat
  deriving DecidableEq, Repr

structure Section where
  kind : Nat
  flags : Nat
  address : Nat
  offset : Nat
  size : Nat
  align : Nat
  deriving DecidableEq, Repr

def magic : Bytes := [0x7F, 0x45, 0x4C, 0x46]

namespace Layout

def headerSize (l : Layout) : Nat :=
  match l.width with
  | .bits32 => 52
  | .bits64 => 64

def segmentSize (l : Layout) : Nat :=
  match l.width with
  | .bits32 => 32
  | .bits64 => 56

def sectionSize (l : Layout) : Nat :=
  match l.width with
  | .bits32 => 40
  | .bits64 => 64

end Layout

/-- The layout that the class byte and the byte after it stand for. -/
def Layout.ofBytes? (width order : UInt8) : Option Layout := do
  let width ← if width = 1 then some .bits32 else if width = 2 then some .bits64 else none
  let order ← if order = 1 then some .little else if order = 2 then some .big else none
  return ⟨width, order⟩

/-- Reads the identification: the magic bytes, the layout, version 1, and bytes of no concern. -/
def readIdentification : Reader Layout := do
  match ← takeBytes 16 with
  | m0 :: m1 :: m2 :: m3 :: width :: order :: version :: _ =>
    guard ([m0, m1, m2, m3] = magic && version = 1)
    Layout.ofBytes? width order
  | _ => failure

def readHeader : Reader Header := do
  let l ← readIdentification
  let kind ← l.half
  let _machine ← l.half
  let version ← l.quarter
  guard (version = 1)
  let entry ← l.word
  let segmentsAt ← l.word
  let sectionsAt ← l.word
  let _flags ← l.quarter
  let size ← l.half
  let segmentSize ← l.half
  let segmentCount ← l.half
  let sectionSize ← l.half
  let sectionCount ← l.half
  let namesIndex ← l.half
  return ⟨l, kind, entry, segmentsAt, sectionsAt, size, segmentSize, segmentCount, sectionSize,
    sectionCount, namesIndex⟩

/-- Reads a row of the table of segments; the place of the flags depends on the layout. -/
def readSegment (l : Layout) : Reader Segment := do
  let kind ← l.quarter
  if l.width = .bits64 then
    let _flags ← l.quarter
  let offset ← l.word
  let address ← l.word
  let physicalAddress ← l.word
  let fileSize ← l.word
  let memorySize ← l.word
  if l.width = .bits32 then
    let _flags ← l.quarter
  let align ← l.word
  return ⟨kind, offset, address, physicalAddress, fileSize, memorySize, align⟩

def readSection (l : Layout) : Reader Section := do
  let _name ← l.quarter
  let kind ← l.quarter
  let flags ← l.word
  let address ← l.word
  let offset ← l.word
  let size ← l.word
  let _link ← l.quarter
  let _info ← l.quarter
  let align ← l.word
  let _rowSize ← l.word
  return ⟨kind, flags, address, offset, size, align⟩

/-- The header of a file with the rows of its tables. -/
structure File where
  header : Header
  segments : List Segment
  sections : List Section
  deriving DecidableEq, Repr

/-- Reads the header and as many rows as fill the length that the header gives for each table. -/
def File.read? (data : Bytes) : Option File := do
  let h ← readAt 0 readHeader data
  let l := h.layout
  let segments ←
    readAt h.segmentsAt (readMany (h.segmentSize * h.segmentCount / l.segmentSize) (readSegment l))
      data
  let sections ←
    readAt h.sectionsAt (readMany (h.sectionSize * h.sectionCount / l.sectionSize) (readSection l))
      data
  return ⟨h, segments, sections⟩

end Rehome.Elf
