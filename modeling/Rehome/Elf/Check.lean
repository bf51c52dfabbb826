import Rehome.Elf.Tables

/-!
# Soundness of ELF files

The conditions that header, segments and sections must meet for a file to count as an ELF file.
Ranges are half open, and an empty range overlaps nothing.
-/

namespace Rehome.Elf

/-- A range of offsets or addresses, without its end. -/
structure Extent where
  first : Nat
  last : Nat
  deriving DecidableEq, Repr

namespace Extent

def isEmpty (e : Extent) : Bool := e.last ≤ e.first

def disjoint (d e : Extent) : Bool :=
  d.isEmpty || e.isEmpty || d.last ≤ e.first || e.last ≤ d.first

def pairwiseDisjoint : List Extent → Bool
  | [] => true
  | e :: es => es.all e.disjoint && pairwiseDisjoint es

end Extent

/-- Memory is mapped in units of this size. -/
def pageSize : Nat := 4096

def pageDown (address : Nat) : Nat := address / pageSize * pageSize

def pageUp (address : Nat) : Nat := (address + (pageSize - 1)) / pageSize * pageSize

namespace Segment

def isLoad (s : Segment) : Bool := s.kind = 1

def isInterpreter (s : Segment) : Bool := s.kind = 3

/-- Whether the segment describes the table of segments itself. -/
def isSelf (s : Segment) : Bool := s.kind = 6

/-- The pages of memory that the segment takes up, counted from the page it begins in. -/
def memoryExtent (s : Segment) : Extent :=
  ⟨pageDown s.address, pageUp (pageDown s.address + s.memorySize)⟩

def fileExtent (s : Segment) : Extent := ⟨s.offset, s.offset + s.fileSize⟩

/-- Whether the memory of the segment covers `size` bytes from `address` on. -/
def covers (s : Segment) (address size : Nat) : Bool :=
  s.address ≤ address && address + size ≤ s.address + s.memorySize

/-- Whether file and memory hold all bytes of the segment, and its alignment is a power of two. -/
def isWellFormed (l : Layout) (s : Segment) : Bool :=
  l.fits (s.offset + s.fileSize) && l.fits (s.address + s.memorySize)
    && l.fits (s.physicalAddress + s.memorySize)
    && s.align &&& (s.align - 1) = 0

/-- Whether a loaded segment lies in the file as it does in memory, up to multiples of its
alignment. -/
def isCongruent (s : Segment) : Bool :=
  !s.isLoad || s.align = 0 || s.offset % s.align = s.address % s.align

def isSound (l : Layout) (s : Segment) : Bool :=
  s.isWellFormed l && s.isCongruent

/-- Addresses from this one on cannot be told. -/
def addressLimit : Nat := Nat.pow 2 64

/-- Whether the segment is refused for where it lies, and that cannot be told, because its bytes
in the file would take it past the last address. -/
def isUntellable (l : Layout) (s : Segment) : Bool :=
  s.isWellFormed l && !s.isCongruent && addressLimit ≤ s.address + s.fileSize

end Segment

namespace Section

def isNull (s : Section) : Bool := s.kind = 0

def isHash (s : Section) : Bool := s.kind = 5

def isDynamic (s : Section) : Bool := s.kind = 6

/-- Whether the section takes up no bytes in the file. -/
def isBlank (s : Section) : Bool := s.kind = 8

/-- Whether the section is in memory when the program runs. -/
def isAllocated (s : Section) : Bool := s.flags.testBit 1

end Section

namespace File

def loads (f : File) : List Segment := f.segments.filter Segment.isLoad

def headerIsSound (f : File) : Bool :=
  let h := f.header
  let l := h.layout
  let segments : Extent := ⟨h.segmentsAt, h.segmentsAt + h.segmentSize * h.segmentCount⟩
  let sections : Extent := ⟨h.sectionsAt, h.sectionsAt + h.segmentSize * h.sectionCount⟩
  h.size = l.headerSize
    && (h.sectionSize = 0 || h.sectionSize = l.sectionSize)
    && (h.segmentSize = 0 || h.segmentSize = l.segmentSize)
    && l.fits segments.last && l.fits sections.last && segments.disjoint sections
    && (h.namesIndex = 0 || h.sectionCount = 0 || h.namesIndex ≤ h.sectionCount)

def isAscending : List Segment → Bool
  | s :: t :: rest => s.address ≤ t.address && isAscending (t :: rest)
  | _ => true

def loadsAreSound (f : File) : Bool :=
  isAscending f.loads
    && Extent.pairwiseDisjoint (f.loads.map Segment.memoryExtent)
    && Extent.pairwiseDisjoint (f.loads.map Segment.fileExtent)

def entryIsSound (f : File) : Bool :=
  f.header.entry = 0
    || f.loads.any fun s => s.address ≤ f.header.entry && f.header.entry < s.address + s.memorySize

/-- Whether the table of segments describes itself at most once, before any loaded segment and
inside the memory of one, and names at most one interpreter. -/
def selfIsSound (f : File) : Bool :=
  (f.segments.countP Segment.isSelf ≤ 1 && f.segments.countP Segment.isInterpreter ≤ 1)
    && !(f.segments.dropWhile fun s => !s.isLoad).any Segment.isSelf
    && (f.segments.filter Segment.isSelf).all fun self =>
      f.loads.any fun s => s.covers self.address self.memorySize

/-- Whether a section of some kind lies where its flags say. -/
def sectionIsSound (f : File) (s : Section) : Bool :=
  let l := f.header.layout
  s.isNull
    || ((l.width = .bits32 || (l.fits (s.offset + s.size) && l.fits (s.address + s.size)))
      && (s.isBlank || !s.isAllocated || s.align ≤ 1 || s.address % s.align = 0)
      && (f.header.kind = 1 || !s.isAllocated || s.size = 0 || s.isBlank
        || f.loads.any fun load =>
          s.address < load.address + load.memorySize && load.covers s.address s.size))

def sectionsAreSound (f : File) : Bool :=
  (f.sections.head?.all Section.isNull)
    && f.sections.countP Section.isHash ≤ 1 && f.sections.countP Section.isDynamic ≤ 1
    && f.sections.all f.sectionIsSound

def isSound (f : File) : Bool :=
  f.headerIsSound && f.segments.all (Segment.isSound f.header.layout) && f.loadsAreSound
    && f.entryIsSound && f.selfIsSound && f.sectionsAreSound

/-- Whether the first segment that is not sound cannot be told why. -/
def isUntellable (f : File) : Bool :=
  f.headerIsSound
    && (f.segments.find? fun s => !s.isSound f.header.layout).any
      (Segment.isUntellable f.header.layout)

/-- Whether the tables have as many rows as the header counts. -/
def isComplete (f : File) : Bool :=
  f.segments.length = f.header.segmentCount && f.sections.length = f.header.sectionCount

end File

end Rehome.Elf
