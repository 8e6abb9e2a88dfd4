import Storyworld.World.Basic

namespace Storyworld

/-!
# Questionnaires

A questionnaire is read line by line into a world. A line is blank or a comment, which
begins with two slashes, or one of these, where letters of commands match in either case:

* `Q:` begins a question, and `A:` an answer to the latest question;
* a list of phrases after a blank gives implications of the latest answer, or of the
  question when it has no answer yet;
* a head, `<=` and a list of phrases is a rule;
* a head, `<-` and a list of phrases is an implication;
* `contradiction:`, `unique:` and `mutually exclusive:` before a list of phrases say that
  not all, exactly one, and at most one of them holds.

Lists are separated by commas. What is wrong with a line is reported with its number.
-/

/-- A text with what follows from it. -/
structure Quip where
  text : String
  implications : List Literal := []
  deriving DecidableEq, Repr, Inhabited

/-- A question, with what holds whatever its answer is. -/
structure Question where
  text : String
  implications : List Literal := []
  answers : List Quip := []
  deriving DecidableEq, Repr, Inhabited

/-- Questions in the order they are asked. -/
structure Questionnaire where
  questions : List Question := []
  deriving DecidableEq, Repr, Inhabited

namespace Questionnaire

/-- What has been read so far: the questions that are complete, and the question and the
answer that more may be read for. -/
structure Draft where
  complete : List Question := []
  question : Option Question := none
  answer : Option Quip := none
  deriving DecidableEq, Repr, Inhabited

namespace Draft

def closeAnswer (d : Draft) : Draft :=
  match d.question, d.answer with
  | some q, some a =>
    { d with question := some { q with answers := q.answers ++ [a] }, answer := none }
  | _, _ => { d with answer := none }

def closeQuestion (d : Draft) : Draft :=
  let d := d.closeAnswer
  match d.question with
  | some q => { d with complete := d.complete ++ [q], question := none }
  | none => d

def openQuestion (d : Draft) (text : String) : Draft :=
  { d.closeQuestion with question := some { text } }

/-- Begins an answer, if there is a question to answer. -/
def openAnswer (d : Draft) (text : String) : Except Error Draft :=
  if d.question.isNone then .error .orphan
  else .ok { d.closeAnswer with answer := some { text } }

/-- Adds implications to the open answer, or else to the open question. -/
def imply (d : Draft) (ls : List Literal) : Except Error Draft :=
  match d.answer, d.question with
  | some a, _ => .ok { d with answer := some { a with implications := a.implications ++ ls } }
  | none, some q => .ok { d with question := some { q with implications := q.implications ++ ls } }
  | none, none => .error .orphan

end Draft

/-- What a line is, by how it begins or by the mark in it. -/
inductive Line where
  | skipped
  | question (text : String)
  | answer (text : String)
  | implications (list : String)
  | rule (head body : String)
  | implication (head body : String)
  | contradiction (list : String)
  | unique (list : String)
  | exclusive (list : String)
  | unknown (text : String)
  deriving DecidableEq, Repr

namespace Line

def ofChars (cs : List Char) : Line :=
  if (Text.trimStart cs).isEmpty || ['/', '/'].isPrefixOf cs then .skipped
  else if let some rest := Text.afterOpening? "Q:" cs then .question (String.ofList rest)
  else if let some rest := Text.afterOpening? "A:" cs then .answer (String.ofList rest)
  else if cs.head?.any Text.isBlank then .implications (String.ofList cs)
  else if let some (head, body) := Text.splitOnce ['<', '='] cs then
    .rule (String.ofList head) (String.ofList body)
  else if let some (head, body) := Text.splitOnce ['<', '-'] cs then
    .implication (String.ofList head) (String.ofList body)
  else if let some rest := Text.afterOpening? "contradiction:" cs then
    .contradiction (String.ofList rest)
  else if let some rest := Text.afterOpening? "unique:" cs then .unique (String.ofList rest)
  else if let some rest := Text.afterOpening? "mutually exclusive:" cs then
    .exclusive (String.ofList rest)
  else .unknown (String.ofList (Text.trimChars cs))

end Line

variable {ρ : Type}

/-- The literals of phrases, one after the other. -/
def literalsOf : List String → EStateM Error (World ρ) (List Literal)
  | [] => return []
  | phrase :: phrases => do
    let l ← World.literal phrase
    let ls ← literalsOf phrases
    return l :: ls

def literals (list : String) : EStateM Error (World ρ) (List Literal) :=
  literalsOf (Text.commaParts list)

/-- The atom of a head, which may not be a negation. -/
def headAtom (head : String) : EStateM Error (World ρ) Atom := do
  let l ← World.literal head
  if l.positive then return l.atom else throw (.negatedHead (Text.trim head))

/-- The constraint that the literals of the body imply the head. -/
def implicationOf (head : Literal) : List Literal → Constraint
  | [body] => .implication body head
  | body => .clause (body.map Literal.negate ++ [head])

/-- Takes a line into the draft, or asserts its constraint. -/
def readLine (d : Draft) (line : String) : EStateM Error (World ρ) Draft := do
  match Line.ofChars line.toList with
  | .skipped => return d
  | .question text => return d.openQuestion text
  | .answer text => ofExcept (d.openAnswer text)
  | .implications list =>
    let ls ← literals list
    ofExcept (d.imply ls)
  | .rule head body =>
    let head ← headAtom head
    let body ← literals body
    World.onSolver (Solver.assert (.rule head body))
    return d
  | .implication head body =>
    let head ← headAtom head
    let body ← literals body
    World.onSolver (Solver.assert (implicationOf (Literal.pos head) body))
    return d
  | .contradiction list =>
    let ls ← literals list
    World.onSolver (Solver.assert (.clause (ls.map Literal.negate)))
    return d
  | .unique list =>
    let ls ← literals list
    World.onSolver (Solver.unique ls)
    return d
  | .exclusive list =>
    let ls ← literals list
    World.onSolver (Solver.addAtMost 1 ls)
    return d
  | .unknown text => throw (.invalidSyntax text)

/-- Reads lines, the first of which has the number given. -/
def readLines (d : Draft) (number : Nat) : List String → EStateM Error (World ρ) Draft
  | [] => return d
  | line :: lines => do
    let d ← tryCatch (readLine d line) fun e => throw (.line number e)
    readLines d (number + 1) lines

def parse (text : String) : EStateM Error (World ρ) Questionnaire := do
  let d ← readLines {} 1 (Text.lines text)
  return ⟨d.closeQuestion.complete⟩

/-- Reads a questionnaire from bytes, which have to be UTF-8. -/
def parseBytes (bytes : ByteArray) : EStateM Error (World ρ) Questionnaire :=
  match String.fromUTF8? bytes with
  | some text => parse text
  | none => throw (.unreadable "stream did not contain valid UTF-8")

end Questionnaire

end Storyworld
