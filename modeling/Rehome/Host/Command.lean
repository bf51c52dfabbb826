import Rehome.Files.Commands
import Rehome.Files.FirstLine
import Rehome.Host.Program

/-!
# Running programs

Starting a program on a host. A program without a slash in its name is looked for in the
directories of the search path. A file that may be executed is a native program or a script, which
is run by the interpreter that its first line names; that may be a script again. The command
interpreter complains first if the current directory was removed. Nothing starts with an argument
that is too long.
-/

namespace Rehome

open Files

/-- A way to start a program with arguments: its output, unless it cannot be started, and the host
that it leaves behind. -/
abbrev Launcher := Path → List Text → Host → Option Output × Host

namespace Host

inductive Image where
  | native (program : Native)
  | script (interpreter : Interpreter)
  /-- No format that can be run. -/
  | unknown
  deriving DecidableEq, Repr

def image : Contents → Image
  | .native program => .native program
  | contents =>
    match Interpreter.ofBytes? contents.bytes with
    | some interpreter => .script interpreter
    | none => .unknown

/-- What the command interpreter writes to its errors when it starts. -/
def complaint (h : Host) : Bytes :=
  match h.cwd with
  | .existing _ => []
  | .removed _ => Text.utf8 "sh: 0: getcwd() failed: No such file or directory\n".toList

def afterComplaint (h : Host) (output : Output) : Output :=
  { output with err := h.complaint ++ output.err }

/-- The options of the command interpreter that leave alone what a script prints. -/
def harmlessOptions : List Char := "abeflpuvxCEIV".toList

/-- The options of the command interpreter that keep it from running its operands. -/
def idleOptions : List Char := "ns".toList

/-- The operands that the command interpreter runs: what stands behind its options. There are none
if it does not take the options. -/
def shellOperands? : (arguments : List Text) → Option (List Text)
  | [] => some []
  | argument :: rest =>
    if argument = ['-'] || argument = ['-', '-'] then some rest
    else if argument.head? = some '-' || argument.head? = some '+' then
      if argument.tail.all harmlessOptions.contains then shellOperands? rest
      else if argument.tail.all (harmlessOptions ++ idleOptions).contains then
        if argument.head? = some '-' then (shellOperands? rest).map fun _ => []
        else shellOperands? rest
      else none
    else some (argument :: rest)

/-- Runs the command interpreter: the first operand names the file that holds the commands. -/
def runShell (h : Host) (arguments : List Text) : Output × Host :=
  match shellOperands? arguments with
  | none => (.failed, h)
  | some [] => (.silent, h)
  | some (file :: operands) =>
    match h.node? ⟨file⟩ with
    | .ok (.file (.script script) _) => h.run script.program operands
    | .ok (.file (.data bytes) _) => ((Command.runText (Text.ofUtf8 bytes)).output, h)
    | _ => (.failed, h)

/-- What comes of trying to start a file. -/
inductive Attempt where
  /-- There is no such program: the search goes on. -/
  | absent
  | refused
  | ran (output : Output) (host : Host)

def firstAttempt (attempt : Path → Attempt) : List Path → Attempt
  | [] => .absent
  | p :: ps =>
    match attempt p with
    | .absent => firstAttempt attempt ps
    | result => result

/-- The directories that are searched for programs. One that is longer than every path counts as
the current directory, or is left out if it is the last. -/
def searchedDirectories : (searchPath : List Text) → List Path
  | [] => []
  | dir :: dirs =>
    if (Text.utf8 dir).length ≤ longestPath then ⟨dir⟩ :: searchedDirectories dirs
    else if dirs = [] then []
    else ⟨[]⟩ :: searchedDirectories dirs

def programPaths (h : Host) (program : Path) : List Path :=
  if program.text = [] then []
  else if '/' ∈ program.text then [program]
  else (searchedDirectories (h.searchPath.splitOn ':')).map fun dir => dir.join program

/-- How many files can take part in the start of one program: scripts, each the interpreter of the
one before, and a native program. -/
def fileLimit : Nat := 6

/-- Tries to start the file that a path leads to, as one of the last `files` that can take part. A
program that starts another one does so with `launch`. -/
def attempt (h : Host) (launch : Launcher) (files : Nat) (p : Path) (arguments : List Text) :
    Attempt :=
  match h.node? p with
  | .ok (.file contents true) =>
    match files, image contents with
    | 0, _ | _, .unknown => .refused
    | files + 1, .script interpreter =>
      h.attempt launch files interpreter.path
        (interpreter.argument?.toList ++ p.text :: arguments)
    | _ + 1, .native .shell =>
      let (output, host) := h.runShell arguments
      .ran (h.afterComplaint output) host
    | _ + 1, .native .succeed => .ran .silent h
    | _ + 1, .native .fail => .ran .failed h
    | _ + 1, .native .print =>
      .ran ⟨Text.utf8 (Text.joinWith ' ' arguments ++ ['\n']), [], true⟩ h
    | _ + 1, .native .start =>
      match arguments with
      | [] => .ran .silent h
      | program :: arguments =>
        match launch ⟨program⟩ arguments h with
        | (some output, host) => .ran output host
        | (none, _) => .ran .failed h
  | .ok _ | .error .missing | .error .notDirectory => .absent
  | .error _ => .refused

/-- The longest text that can be handed to a program, in bytes. -/
def longestArgument : Nat := 131071

/-- Whether a text can be handed to a program: it is not too long and has no zero in it. -/
def isArgument (t : Text) : Bool :=
  '\x00' ∉ t && (Text.utf8 t).length ≤ longestArgument

def environment (h : Host) : List Text :=
  ["PATH=".toList ++ h.searchPath, "HOME=".toList ++ h.home]

/-- Starts a program, as one of the last `starts` of which each is started by the one before. -/
def launchWithin (starts : Nat) : Launcher := fun program arguments h =>
  match starts with
  | 0 => (none, h)
  | starts + 1 =>
    if (program.text :: arguments ++ h.environment).all isArgument then
      let attempt p := h.attempt (launchWithin starts) fileLimit p arguments
      match firstAttempt attempt (h.programPaths program) with
      | .ran output host => (some output, host)
      | _ => (none, h)
    else (none, h)

/-- Starts a program. More starts in a row than there are files would go round in a circle. -/
def launch : Launcher := fun program arguments h =>
  launchWithin (h.tree.size + 1) program arguments h

end Host

end Rehome
