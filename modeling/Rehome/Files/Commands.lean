import Rehome.Files.Script

/-!
# Commands

What a command interpreter makes of a text with one plain command a line: it may print words, do
nothing, or end the script. A text with any other command counts as one that fails.
-/

namespace Rehome.Files

inductive Command where
  | nothing
  | print (words : List Text)
  /-- Ends the script with a code. -/
  | leave (code : Nat)
  deriving DecidableEq, Repr

namespace Command

/-- Whether a character stands for itself in a word. -/
def isPlain (c : Char) : Bool :=
  c.isAlphanum || "/._-:+,@%".toList.contains c

/-- The words of a line, up to a comment. -/
def wordsOf (line : Text) : List Text :=
  ((line.splitOnP fun c => c = ' ' || c = '\t').filter (· ≠ [])).takeWhile fun word =>
    word.head? ≠ some '#'

def ofWords? : List Text → Option Command
  | [] => some nothing
  | name :: words =>
    if !(name :: words).all (·.all isPlain) then none
    else if name = "true".toList || name = ":".toList then some nothing
    else if name = "echo".toList && words.head? ≠ some "-n".toList then some (print words)
    else if name = "exit".toList then
      match words with
      | [] => some (leave 0)
      | code :: _ => (String.ofList code).toNat?.map leave
    else none

/-- Runs the commands in some lines, after `out` was printed. -/
def run (out : Bytes) : List Text → Reply
  | [] => ⟨out, [], .exited 0⟩
  | line :: lines =>
    match ofWords? (wordsOf line) with
    | some nothing => run out lines
    | some (print words) => run (out ++ Text.utf8 (Text.joinWith ' ' words ++ ['\n'])) lines
    | some (leave code) => ⟨out, [], .exited code⟩
    | none => ⟨out, [], .exited 127⟩

def runText (text : Text) : Reply :=
  run [] (text.splitOn '\n')

end Command

end Rehome.Files
