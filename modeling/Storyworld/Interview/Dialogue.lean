import Storyworld.Interview.Questionnaire

namespace Storyworld

/-!
# Dialogues

A dialogue goes through the questions of a questionnaire in order. Each answer of a
question is probed together with what has been accumulated and with the implications
of the question, and the consistent answers are offered, if they are enough. The
implications of a chosen answer, and of its question, are accumulated. When no
question is left the world is committed to what has been accumulated.
-/

/-- How far a dialogue has come. -/
structure Dialogue where
  questionnaire : Questionnaire
  /-- The position of the next question to consider. -/
  next : Nat := 0
  /-- The position of the question that is posed, if one is. -/
  current : Option Nat := none
  /-- The positions of the answers offered to it. -/
  offered : List Nat := []
  implications : List Literal := []
  minOptions : Nat := 1
  finished : Bool := false
  deriving DecidableEq, Repr, Inhabited

namespace Dialogue

/-- A dialogue at its start. A question needs at least one answer whatever is asked for. -/
def start (questionnaire : Questionnaire) (minOptions : Nat) : Dialogue :=
  { questionnaire, minOptions := max minOptions 1 }

/-- The question that is posed, if one is. -/
def posed? (d : Dialogue) : Option Question := d.current.bind fun i => d.questionnaire.questions[i]?

/-- The answers offered to the question that is posed. -/
def options (d : Dialogue) : List Quip :=
  match d.posed? with
  | some q => d.offered.filterMap fun i => q.answers[i]?
  | none => []

/-- Adds implications at the end, each unless it is there already. -/
def accumulate (d : Dialogue) (ls : List Literal) : Dialogue :=
  let add (acc : List Literal) (l : Literal) := if l ∈ acc then acc else acc ++ [l]
  { d with implications := ls.foldl add d.implications }

end Dialogue

structure Interview (ρ : Type) where
  world : World ρ
  dialogue : Dialogue

namespace Interview

variable {ρ : Type} [RandomSource ρ]

omit [RandomSource ρ] in
def onWorld {α : Type} (act : EStateM Error (World ρ) α) : EStateM Error (Interview ρ) α :=
  fun s =>
    match act s.world with
    | .ok a w => .ok a { s with world := w }
    | .error e w => .error e { s with world := w }

omit [RandomSource ρ] in
def modifyDialogue (f : Dialogue → Dialogue) : EStateM Error (Interview ρ) Unit :=
  modify fun s => { s with dialogue := f s.dialogue }

/-- The positions of the answers that are consistent with the sets, the first of them having
the position given. -/
def consistentAnswers (sets : List (List Literal)) (position : Nat) :
    List Quip → EStateM Error (World ρ) (List Nat)
  | [] => return []
  | a :: answers => do
    let consistent ← World.probe (sets ++ [a.implications])
    let rest ← consistentAnswers sets (position + 1) answers
    return if consistent then position :: rest else rest

/-- Poses the first of the questions that has enough consistent answers, and says whether there
was one. Without one, the world is committed. -/
def pose : List Question → EStateM Error (Interview ρ) Bool
  | [] => do
    let _ ← onWorld (World.commit (← get).dialogue.implications)
    modifyDialogue fun d => { d with finished := true }
    return false
  | q :: questions => do
    let position := (← get).dialogue.next
    modifyDialogue fun d => { d with next := d.next + 1 }
    let sets := [(← get).dialogue.implications, q.implications]
    let offered ← onWorld (consistentAnswers sets 0 q.answers)
    if (← get).dialogue.minOptions ≤ offered.length then
      modifyDialogue fun d => { d with current := some position, offered }
      return true
    else pose questions

/-- Poses the next question that has enough consistent answers, or commits the world. -/
def nextQuestion : EStateM Error (Interview ρ) Bool := do
  modifyDialogue fun d => { d with current := none, offered := [] }
  let d := (← get).dialogue
  pose (d.questionnaire.questions.drop d.next)

/-- Chooses one of the offered answers by its place among them, and goes on to the next
question. When no question is posed nothing happens. -/
def answer (choice : Nat) : EStateM Error (Interview ρ) Bool := do
  let d := (← get).dialogue
  match d.posed? with
  | none => return false
  | some q =>
    match d.offered[choice]? with
    | none => throw (.noSuchAnswer choice)
    | some position =>
      let chosen := (q.answers[position]?.map Quip.implications).getD []
      modifyDialogue fun d => d.accumulate (q.implications ++ chosen)
      nextQuestion

variable {m : Type → Type} [Monad m]

/-- Goes on with a dialogue for at most that many answers. `posed` says whether a question is
posed, and `choose` what is answered; the dialogue stops where it is when that is nothing. -/
def converseWithin (choose : Question → List Quip → m (Option Nat)) :
    Nat → Bool → Interview ρ → m (Except Error Unit × Interview ρ)
  | _, false, s => return (.ok (), s)
  | 0, true, s => return (.ok (), s)
  | n + 1, true, s =>
    match s.dialogue.posed? with
    | none => return (.ok (), s)
    | some q => do
      match ← choose q s.dialogue.options with
      | none => return (.ok (), s)
      | some choice =>
        match answer choice s with
        | .ok posed s => converseWithin choose n posed s
        | .error e s => return (.error e, s)

/-- Carries a dialogue on to its end, with the answers that `choose` gives. There are no more
of them than there are questions. -/
def converse (choose : Question → List Quip → m (Option Nat)) (s : Interview ρ) :
    m (Except Error Unit × Interview ρ) :=
  match nextQuestion s with
  | .ok posed s => converseWithin choose s.dialogue.questionnaire.questions.length posed s
  | .error e s => return (.error e, s)

end Interview

end Storyworld
