import Storyworld.CommandLine.Session

namespace Storyworld.CommandLine

/-!
# The program

Reads the file that the arguments name, asks on the terminal, and writes what the run
comes to.
-/

/-- What opening a path leads to. What can be opened but not read is a folder. -/
def openFile (path : String) : IO FileContent := do
  let opened ← try some <$> IO.FS.Handle.mk path .read catch _ => pure none
  match opened with
  | none => return .missing
  | some handle =>
    try return .bytes (← handle.readBinToEnd)
    catch _ => return .folder

def say (text : String) : IO Unit := do
  let out ← IO.getStdout
  out.putStr text
  out.flush

/-- Asks for a choice until a line gives one or the input ends. -/
partial def askLine (count : Nat) : IO (Option Nat) := do
  say prompt
  let line ← (← IO.getStdin).getLine
  if line.isEmpty then return none
  match choiceOf? count line with
  | some choice => return some choice
  | none =>
    say (reminder count)
    askLine count

/-- Shows a question and asks for one of its options. -/
def ask (q : Question) (options : List Quip) : IO (Option Nat) := do
  say (questionText q options)
  askLine options.length

/-- The file that the arguments name, if they name one. -/
def openNamed (arguments : List String) : IO FileContent := do
  match read arguments with
  | .run { path := some path, .. } => openFile path
  | _ => return .missing

end Storyworld.CommandLine

open Storyworld.CommandLine in
def main (arguments : List String) : IO UInt32 := do
  let content ← openNamed arguments
  let outcome ← runWith ask arguments fun _ => content
  say outcome.stdout
  return outcome.code.toUInt32
