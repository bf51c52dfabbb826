import Rehome.Host.Basic

/-!
# Programs

What the programs of executable scripts do to a host. A program is a patch tool: its first argument
says whether it is called to print the search path of a binary or to set it.
-/

namespace Rehome

open Files

/-- What a process that was started has written, and whether it succeeded. -/
structure Output where
  out : Bytes
  err : Bytes
  success : Bool
  deriving DecidableEq, Repr

def Output.failed : Output := ⟨[], [], false⟩

def Output.silent : Output := ⟨[], [], true⟩

def Files.Reply.output (r : Reply) : Output := ⟨r.out, r.err, r.ending.isSuccess⟩

inductive Call where
  | print (binary : Text)
  | set (entries binary : Text)
  deriving DecidableEq, Repr

namespace Call

def printFlag : Text := "--print-rpath".toList

def forceFlag : Text := "--force-rpath".toList

def setFlag : Text := "--set-rpath".toList

def arguments : Call → List Text
  | print binary => [printFlag, binary]
  | set entries binary => [forceFlag, setFlag, entries, binary]

/-- The call that arguments stand for. The first one decides, those behind it count by their places,
and one that is not there is empty. -/
def ofArguments? : List Text → Option Call
  | [] => none
  | flag :: operands =>
    if flag = printFlag then some (.print (operands.getD 0 []))
    else if flag = forceFlag then some (.set (operands.getD 1 []) (operands.getD 2 []))
    else none

theorem forceFlag_ne_printFlag : forceFlag ≠ printFlag := fun h =>
  absurd (String.toList_inj.mp h) (by decide)

theorem ofArguments?_arguments (c : Call) : ofArguments? c.arguments = some c := by
  cases c <;> simp [ofArguments?, arguments, forceFlag_ne_printFlag]

end Call

namespace Host

/-- The file beside a binary whose name is that of the binary with an ending. -/
def beside (binary : Text) (ending : String) : Path :=
  ⟨binary ++ ending.toList⟩

/-- Prints the search path that is kept beside a binary. A file that forbids reading makes it
fail. -/
def printKept (h : Host) (binary : Text) : Output :=
  if h.leadsSomewhere (beside binary ".rfail") then .failed
  else
    match h.read (beside binary ".rpath") with
    | .ok bytes => ⟨bytes, [], true⟩
    | .error _ => .failed

/-- Keeps entries beside a binary, and repeats the arguments. A file that forbids writing makes it
fail, but it goes on without a file if it cannot make one. -/
def keep (h : Host) (arguments : List Text) (entries binary : Text) : Output × Host :=
  if h.leadsSomewhere (beside binary ".wfail") then
    (⟨[], Text.utf8 "write failed\n".toList, false⟩, h)
  else
    let kept := h.write? (beside binary ".rpath") (.data (Text.utf8 (entries ++ ['\n'])))
    (⟨Text.utf8 (Text.joinWith ' ' arguments ++ ['\n']), [], true⟩, kept.getD h)

def run (h : Host) (program : Program) (arguments : List Text) : Output × Host :=
  match Call.ofArguments? arguments, program with
  | some (.print binary), .keeper => (h.printKept binary, h)
  | some (.set entries binary), .keeper => h.keep arguments entries binary
  | some (.print _), .canned print _ => (print.output, h)
  | some (.set _ _), .canned _ set => (set.output, h)
  | none, _ => (.failed, h)

end Host

end Rehome
