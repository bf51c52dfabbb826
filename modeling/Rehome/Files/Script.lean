import Rehome.Text.Utf8

/-!
# Scripts

The behaviour of an executable script that stands in for a patch tool, without its text: which
shell runs it, and what it then does.
-/

namespace Rehome.Files

inductive Ending where
  | exited (code : Nat)
  | killed (signal : Nat)
  deriving DecidableEq, Repr

/-- A process has succeeded if the low byte of its exit code is 0. -/
def Ending.isSuccess : Ending → Bool
  | exited code => code % 256 = 0
  | killed _ => false

/-- What a process writes to its two outputs, and how it ends. -/
structure Reply where
  out : Bytes
  err : Bytes
  ending : Ending
  deriving DecidableEq, Repr

inductive Program where
  /-- Keeps the search path of a binary in a file beside it. -/
  | keeper
  /-- Gives one reply to every call that prints, and one to every call that sets. -/
  | canned (print set : Reply)
  deriving DecidableEq, Repr

structure Script where
  /-- What the first line says after `#!`: the shell that runs the script. -/
  shell : Text
  program : Program
  deriving DecidableEq, Repr

/-- A program that is no script. -/
inductive Native where
  | shell
  | succeed
  | fail
  | print
  /-- Starts the program that its first argument names. -/
  | start
  deriving DecidableEq, Repr

/-- What the file of such a program holds, as far as it is of concern: a header, and a section for a
dynamic table. -/
def Native.bytes : Bytes :=
  let zeros (count : Nat) : Bytes := List.replicate count 0
  [0x7F, 0x45, 0x4C, 0x46, 2, 1, 1] ++ zeros 9 ++ [3, 0, 62, 0, 1, 0, 0, 0] ++ zeros 16
    ++ [64] ++ zeros 11 ++ [64, 0, 56, 0, 0, 0, 64, 0, 2, 0, 0, 0]
    ++ zeros 64 ++ zeros 4 ++ [6] ++ zeros 59

end Rehome.Files
