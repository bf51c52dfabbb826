import Rehome.Binary.Format
import Rehome.Binary.Runs
import Rehome.Binary.Terminated
import Rehome.Error
import Rehome.Host.Basic

/-!
# Looking into files

The operations on binaries, applied to the files of a host. A file that cannot be read is an
error, with the reason in its text.
-/

namespace Rehome.Host

/-- The bytes of a file, for an operation that cannot do without them. -/
def readBinary (h : Host) (p : Path) : Except Error Bytes :=
  match h.read p with
  | .ok bytes => .ok bytes
  | .error error => .error (.unreadable p error.message.toList)

def format [Elf.Decoder] (h : Host) (p : Path) : Except Fault Binary.Format :=
  match h.readBinary p with
  | .error error => .error (.error error)
  | .ok bytes =>
    match Binary.Format.ofBytes? bytes with
    | some format => .ok format
    | none => .error .crash

/-- Whether a file can be linked dynamically; one that cannot be read is not. -/
def isBinary [Elf.Decoder] (h : Host) (p : Path) : Except Fault Bool :=
  match h.format p with
  | .ok format => .ok format.isBinary
  | .error .crash => .error .crash
  | .error (.error _) => .ok false

def strings (h : Host) (p : Path) : Except Error (List Text) :=
  (h.readBinary p).map Binary.strings

theorem strings_of_read {h : Host} {p : Path} {bytes : Bytes} (hr : h.read p = .ok bytes) :
    h.strings p = .ok (Binary.strings bytes) := by
  rw [strings, readBinary, hr]
  rfl

/-- Checks that a path leads to something and is absolute. -/
def checkBinary (h : Host) (p : Path) : Except Error Path :=
  if !h.leadsSomewhere p then .error (.doesNotExist p)
  else if !p.isAbsolute then .error (.notAbsolute p)
  else .ok p

/-- Replaces an old text by a new one in the strings of a file: whether that changed it, and the
host afterwards. -/
def replaceInStrings (h : Host) (p : Path) (old new : Text) : Except Error Bool × Host :=
  if old = [] then (.error (.invalidRequest "old prefix must not be empty".toList), h)
  else
    match h.readBinary p with
    | .error error => (.error error, h)
    | .ok bytes =>
      match Binary.replace (Text.utf8 old) (Text.utf8 new) bytes with
      | .unchanged => (.ok false, h)
      | .tooLong => (.error (.prefixTooLong p old new), h)
      | .replaced bytes =>
        match h.write p (.data bytes) with
        | .ok h' => (.ok true, h')
        | .error error => (.error (.io error.message.toList), h)

end Rehome.Host
