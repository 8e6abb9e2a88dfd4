import Storyworld.Interview.Questionnaire

namespace Storyworld.CommandLine

/-!
# The terminal

What a dialogue looks like on a terminal: the styles, the question with its numbered
options, and the choice, which is asked for until a number in range is given or the
input ends.
-/

/-- The lines that are still to be read, and what has been written. -/
structure Terminal where
  input : List String
  output : String := ""
  deriving Repr, Inhabited

/-- A text between the codes that turn a style on and off. -/
def styled (on off : String) (text : String) : String :=
  "\x1b[" ++ on ++ "m" ++ text ++ "\x1b[" ++ off ++ "m"

def bold (text : String) : String := styled "1" "0" text

def dim (text : String) : String := styled "2" "0" text

def cyan (text : String) : String := styled "38;5;14" "39" text

def yellow (text : String) : String := styled "38;5;11" "39" text

def boldGreen (text : String) : String := "\x1b[38;5;10m" ++ bold text

/-- A number at the right of three places. -/
def numbered (n : Nat) : String :=
  let digits := toString n
  String.ofList (List.replicate (3 - digits.length) ' ') ++ digits ++ ": "

/-- The lines of the options, the first of which has the number given. -/
def optionLines (n : Nat) : List Quip → String
  | [] => ""
  | q :: qs => dim (numbered n) ++ q.text ++ "\n" ++ optionLines (n + 1) qs

/-- A question and its options, numbered from 1. -/
def questionText (q : Question) (options : List Quip) : String :=
  "\n" ++ bold q.text ++ "\n" ++ optionLines 1 options

def summaryText (summary : String) : String :=
  "\n" ++ boldGreen "A possible you:" ++ "\n" ++ summary ++ "\n"

def prompt : String := cyan "> "

/-- What is written after a line that is no choice. -/
def reminder (count : Nat) : String :=
  yellow ("Choose an answer from 1 to " ++ toString count ++ ".\n")

/-- The position of the option that a line chooses. -/
def choiceOf? (count : Nat) (line : String) : Option Nat :=
  match Text.readNat? (Nat.pow 2 64 - 1) (Text.trim line) with
  | some n => if 0 < n ∧ n ≤ count then some (n - 1) else none
  | none => none

namespace Terminal

def write (t : Terminal) (text : String) : Terminal := { t with output := t.output ++ text }

/-- Asks for a choice until a line gives one, with what was written before. -/
def askFrom (count : Nat) (output : String) : List String → Option Nat × Terminal
  | [] => (none, { input := [], output := output ++ prompt })
  | line :: rest =>
    match choiceOf? count line with
    | some choice => (some choice, { input := rest, output := output ++ prompt })
    | none => askFrom count (output ++ prompt ++ reminder count) rest

/-- Asks for a choice until a line gives one. At the end of the input there is none. -/
def ask (t : Terminal) (count : Nat) : Option Nat × Terminal := askFrom count t.output t.input

/-- Shows a question and asks for one of its options. -/
def choose (q : Question) (options : List Quip) : StateM Terminal (Option Nat) :=
  modifyGet fun t => (t.write (questionText q options)).ask options.length

end Terminal

end Storyworld.CommandLine
