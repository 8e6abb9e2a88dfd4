import Storyworld.Ontology
import Storyworld.Phrase.Meaning
import Storyworld.Random.Pcg
import Storyworld.Solver.Question
import Storyworld.World.Snapshot

namespace Storyworld

/-!
# Worlds

A world is a knowledge base with its solver, a grammar to read phrases with, and the
snapshot of the latest commit. A probe asks whether literals can be true together; a
commit finds a model in which they are and records it. Neither leaves anything assumed.
-/

/-- A grounding that phrases can be read in and that can be committed. -/
structure World (ρ : Type) extends Grounding ρ where
  grammar : Grammar := {}
  /-- Whether commits prefer propositions to be false. -/
  optimize : Bool := false
  /-- The record of the latest commit. -/
  snapshot? : Option Snapshot := none

namespace World

variable {ρ : Type}

instance [Inhabited ρ] : Inhabited (World ρ) := ⟨{ toGrounding := default }⟩

def ofParts (base : KnowledgeBase) (grammar : Grammar) (config : Config) (source : ρ) : World ρ :=
  { base, grammar, solver := Solver.ofConfig config source, optimize := config.optimize.value }

/-- A world whose only sort is its root, with nothing said about it. -/
def empty (root : String) (config : Config) : World Pcg :=
  ofParts (KnowledgeBase.ofRoot root) {} config (Pcg.ofSeed config.seed.value)

/-- A world with the standard ontology. -/
def standard (config : Config) : Except Error (World Pcg) := do
  let (base, grammar) ← Ontology.standard
  return ofParts base grammar config (Pcg.ofSeed config.seed.value)

def onGrounding {α : Type} (act : EStateM Error (Grounding ρ) α) : EStateM Error (World ρ) α :=
  fun w =>
    match act w.toGrounding with
    | .ok a g => .ok a { w with toGrounding := g }
    | .error e g => .error e { w with toGrounding := g }

def onSolver {α : Type} (act : EStateM Error (Solver ρ) α) : EStateM Error (World ρ) α :=
  onGrounding (Grounding.onSolver act)

/-- The literal that a text means, read as a phrase. -/
def literal (text : String) : EStateM Error (World ρ) Literal := do
  let phrase ← ofExcept ((← get).grammar.read text)
  onGrounding (Grounding.literalOf phrase)

def call (predicate : String) (entities : List String) : EStateM Error (World ρ) Atom := do
  let base := (← get).base
  let p ← ofExcept (base.findPredicate predicate)
  match Arguments.ofList? entities with
  | some args => onGrounding (Grounding.call p args)
  | none =>
    throw (.arityMismatch predicate (base.predicate p).signature.arity entities.length)

/-- The existential of the predicate of that name over the sort of that name. -/
def existential (predicate sort : String) : EStateM Error (World ρ) Atom := do
  let base := (← get).base
  let p ← ofExcept (base.findPredicate predicate)
  let s ← ofExcept (base.taxonomy.find sort)
  onGrounding (Grounding.existential p s)

variable [RandomSource ρ]

/-- Whether the literals of all the sets can be true together. -/
def probe (sets : List (List Literal)) : EStateM Error (World ρ) Bool :=
  onSolver (Solver.probe sets.flatten)

/-- Finds a model in which the literals are true, and records it in place of the snapshot
before. Without such a model that snapshot stays. -/
def commit (implications : List Literal) : EStateM Error (World ρ) Snapshot := do
  let optimize := (← get).optimize
  match ← onSolver (Solver.modelWith optimize implications) with
  | none => throw .unsatisfiableCommit
  | some m =>
    let w ← get
    let snapshot := Snapshot.ofModel w.base w.solver.atoms m
    set { w with snapshot? := some snapshot }
    return snapshot

omit [RandomSource ρ]

/-- The snapshot of the latest commit, or the reason that there is none. -/
def committed (w : World ρ) : Except Error Snapshot :=
  match w.snapshot? with
  | some s => .ok s
  | none => .error .notCommitted

def summary (w : World ρ) : Except Error String := do return (← w.committed).summary

/-- What a predicate, by name, makes of the committed model: nothing before a commit, or
without such a predicate. -/
def onModel {α : Type} (w : World ρ) (predicate : String)
    (f : PredicateId → Model → List α) : List α :=
  match w.snapshot?, w.base.predicateNamed? predicate with
  | some s, some p => f p s.model
  | _, _ => []

/-- The arguments of the sorts of the signature of which the predicate holds. -/
def extension (w : World ρ) (predicate : String) (signature : Signature) : List Arguments :=
  w.onModel predicate fun p m => w.base.extension p signature m

/-- The entities that `left` stands in the relation to. -/
def rightRelata (w : World ρ) (predicate left : String) : List String :=
  w.onModel predicate fun p m => w.base.rightRelata p left m

/-- The entities that stand in the relation to `right`. -/
def leftRelata (w : World ρ) (predicate right : String) : List String :=
  w.onModel predicate fun p m => w.base.leftRelata p right m

end World

end Storyworld
