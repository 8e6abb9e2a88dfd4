import Storyworld.Config
import Storyworld.Decimal.Reading
import Storyworld.Decimal.Shortest
import Storyworld.Text.Blank

namespace Storyworld.CommandLine

/-!
# Options of the command line

One path and some options, in any order. An option that takes a value has it after an
equals sign or as the next argument, which then may not begin with a hyphen unless it
is one. No option and no path may be given twice, and after two hyphens everything is
a path. The first argument that is wrong, or that asks for the version or for help,
settles what happens.
-/

structure Options where
  path : Option String := none
  seed : Option Nat := none
  polarityLean : Option Float := none
  randomDecisionBias : Option Float := none
  optimize : Bool := false
  minOptions : Option Nat := none
  /-- Whether the first answer is always chosen, without asking. -/
  first : Bool := false
  /-- Whether the world is written as JSON. -/
  json : Bool := false

inductive Request where
  | run (options : Options)
  | version
  | help
  /-- The arguments cannot be understood. -/
  | usage

/-- The greatest number an option takes. -/
def greatest : Nat := Nat.pow 2 64 - 1

/-- Sets a field that has no value yet to what a text stands for. -/
def setOnce {α : Type} (read? : String → Option α) (field : Option α) (text : String) :
    Option α :=
  if field.isSome then none else read? text

/-- The options with the value of an option that takes one, if the option can be set to it;
the outer `none` says that there is no such option. -/
def setValue? (o : Options) (name value : String) : Option (Option Options) :=
  match name with
  | "seed" => some <|
    (setOnce (Text.readNat? greatest) o.seed value).map fun v => { o with seed := some v }
  | "polarity-lean" => some <|
    (setOnce Decimal.read? o.polarityLean value).map fun v => { o with polarityLean := some v }
  | "random-decision-bias" => some <|
    (setOnce Decimal.read? o.randomDecisionBias value).map fun v =>
      { o with randomDecisionBias := some v }
  | "min-options" => some <|
    (setOnce (Text.readNat? greatest) o.minOptions value).map fun v =>
      { o with minOptions := some v }
  | _ => none

/-- The options with a flag raised, if it was not raised before; the outer `none` says that
there is no such flag. -/
def setFlag? (o : Options) (name : String) : Option (Option Options) :=
  match name with
  | "optimize" => some <| if o.optimize then none else some { o with optimize := true }
  | "first" => some <| if o.first then none else some { o with first := true }
  | "json" => some <| if o.json then none else some { o with json := true }
  | _ => none

/-- The options with a path, which may not be empty. -/
def setPath? (o : Options) (path : String) : Option Options :=
  if o.path.isSome || path.isEmpty then none else some { o with path := some path }

/-- Whether an argument can be the value of the option before it. -/
def isValue (argument : String) : Bool :=
  match argument.toList with
  | '-' :: rest => rest.isEmpty
  | _ => true

/-- The options with the rest of the arguments as paths. -/
def readPaths (o : Options) : List String → Request
  | [] => .run o
  | path :: rest =>
    match setPath? o path with
    | some o => readPaths o rest
    | none => .usage

/-- Reads the arguments from the left, given what the ones before came to. -/
def readFrom (o : Options) : List String → Request
  | [] => .run o
  | argument :: rest =>
    match argument.toList with
    | ['-', '-'] => readPaths o rest
    | '-' :: '-' :: name =>
      match Text.splitOnce ['='] name with
      | some (name, value) =>
        match setValue? o (String.ofList name) (String.ofList value) with
        | some (some o) => readFrom o rest
        | _ => .usage
      | none =>
        let name := String.ofList name
        if name = "version" then .version
        else if name = "help" then .help
        else
          match setFlag? o name with
          | some (some o) => readFrom o rest
          | some none => .usage
          | none =>
            match rest with
            | [] => .usage
            | value :: rest =>
              if isValue value then
                match setValue? o name value with
                | some (some o) => readFrom o rest
                | _ => .usage
              else .usage
    | '-' :: 'V' :: _ => .version
    | '-' :: 'h' :: _ => .help
    | '-' :: _ :: _ => .usage
    | _ =>
      match setPath? o argument with
      | some o => readFrom o rest
      | none => .usage

def read (arguments : List String) : Request := readFrom {} arguments

/-- A setting with the value that was asked for, or the bounds that the value is outside of. -/
def apply {α : Type} [LE α] [DecidableLE α] (text : α → String) (s : Setting α) :
    Option α → Except String (Setting α)
  | none => .ok s
  | some v =>
    match s.set? v with
    | some s => .ok s
    | none =>
      .error <| s.label ++ " must be between " ++ text s.least ++ " and " ++ text s.greatest
        ++ ", not " ++ text v

namespace Options

/-- The configuration that was asked for, or what is wrong with the first value out of bounds. -/
def config (o : Options) : Except String Config := do
  let start : Config := {}
  let seed ← apply (fun v => toString v.toNat) start.seed (o.seed.map UInt64.ofNat)
  let polarityLean ← apply Decimal.ofFloat start.polarityLean o.polarityLean
  let randomDecisionBias ← apply Decimal.ofFloat start.randomDecisionBias o.randomDecisionBias
  let minOptions ← apply toString start.minOptions o.minOptions
  return { start with
    seed, polarityLean, randomDecisionBias, minOptions
    optimize := { start.optimize with value := o.optimize } }

end Options

end Storyworld.CommandLine
