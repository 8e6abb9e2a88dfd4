import Storyworld.CommandLine.Disk
import Storyworld.CommandLine.Options
import Storyworld.CommandLine.Terminal
import Storyworld.Interview.Dialogue

namespace Storyworld.CommandLine

/-!
# A run of the program

From the arguments, the file they name and the lines of the input to what is written
and the code the program ends with. The code is 0 when all went well, 1 when there is
nothing to ask, and 2 when the arguments cannot be understood or the dialogue fails.
-/

/-- What a run comes to. -/
structure Outcome where
  code : Nat
  stdout : String
  deriving DecidableEq, Repr, Inhabited

def versionText : String := "otter_world 0.1.0\n"

def helpText : String :=
  "Answer a questionnaire, and find a world consistent with the answers.\n\n" ++
    "Usage: otter_world [OPTIONS] [PATH]\n"

/-- Reads the questionnaire that a path leads to, or says why that is not possible. -/
def readQuestionnaire (path : Option String) (content : String → FileContent) (w : World Pcg) :
    Except String (Questionnaire × World Pcg) :=
  match path with
  | none => .error "Some path to a questionnaire is required."
  | some path =>
    let parsed (act : EStateM Error (World Pcg) Questionnaire) :=
      match extension? path with
      | none | some "txt" =>
        match act w with
        | .ok q w => .ok (q, w)
        | .error e _ => .error ("Parse error: " ++ e.message ++ ".")
      | some extension => .error ("Unsupported extension '" ++ quoted extension ++ "'.")
    match content path with
    | .missing => .error "Failed to open the questionnaire."
    | .unreadable reason => parsed (throw (.unreadable reason))
    | .bytes bytes => parsed (Questionnaire.parseBytes bytes)

/-- What is written of a committed world. -/
def report (json : Bool) (s : Snapshot) : String :=
  if json then s.toJson.pretty ++ "\n" else summaryText s.summary

/-- What a run starts from: the questionnaire that was asked for, and a world that it has been
read into; or what is to be written instead. -/
def prepare (o : Options) (content : String → FileContent) : Except String (Interview Pcg) := do
  let config ← o.config
  let w ← match World.standard config with
    | .ok w => .ok w
    | .error e => .error ("Failed to build the ontology: " ++ e.message)
  let (questionnaire, w) ← readQuestionnaire o.path content w
  return ⟨w, Dialogue.start questionnaire config.minOptions.value⟩

/-- What is left to write when the dialogue has ended, and the code. -/
def conclude (json : Bool) (result : Except Error Unit) (w : World Pcg) : Outcome :=
  match result, w.snapshot? with
  | .error e, _ => ⟨2, "Dialogue error: " ++ e.message ++ "\n"⟩
  | .ok (), none => ⟨0, ""⟩
  | .ok (), some snapshot => ⟨0, report json snapshot⟩

/-- Carries the dialogue on, with answers from `ask` or with the first one each time, and gives
what is left to write. -/
def converse {m : Type → Type} [Monad m] (ask : Question → List Quip → m (Option Nat))
    (o : Options) (s : Interview Pcg) : m Outcome := do
  let choose := if o.first then fun _ _ => pure (some 0) else ask
  let (result, s) ← Interview.converse choose s
  return conclude o.json result s.world

/-- Runs the program. `content` says what opening a path leads to, and `ask` what is answered;
what `ask` writes comes before the output given here. -/
def runWith {m : Type → Type} [Monad m] (ask : Question → List Quip → m (Option Nat))
    (arguments : List String) (content : String → FileContent) : m Outcome :=
  match read arguments with
  | .usage => return ⟨2, ""⟩
  | .version => return ⟨0, versionText⟩
  | .help => return ⟨0, helpText⟩
  | .run o =>
    match prepare o content with
    | .error message => return ⟨1, message ++ "\n"⟩
    | .ok s => converse ask o s

/-- Runs the program on an input that is known in full. -/
def run (arguments : List String) (content : String → FileContent) (input : String) : Outcome :=
  let (outcome, t) := (runWith Terminal.choose arguments content).run { input := Text.lines input }
  { outcome with stdout := t.output ++ outcome.stdout }

end Storyworld.CommandLine
