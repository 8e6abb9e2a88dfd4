import Storyworld.Config
import Storyworld.Error
import Storyworld.Solver.Assignment
import Storyworld.Solver.Atoms
import Storyworld.Solver.Rules

namespace Storyworld

/-!
# The solver

A solver holds constraints on its atoms and answers whether they can be met. The
constraints are the asserted clauses and the completion clauses of the rules. What
they fix by themselves is found once after each change and kept as the fixed
valuation; assumptions are literals that have to hold in the next searches, until
they are dropped.

The type `ρ` is the source of the random draws of a search.
-/

/-- Whether the fixed valuation is that of the present constraints. -/
inductive Status where
  /-- The constraints have changed since the fixed valuation was found. -/
  | stale
  /-- The fixed valuation is up to date, and propagation met no conflict. -/
  | consistent
  /-- Propagation alone shows that the constraints have no model. -/
  | inconsistent
  deriving DecidableEq, Repr, Inhabited

structure Counters where
  conflicts : Nat := 0
  decisions : Nat := 0
  iterations : Nat := 0
  solves : Nat := 0
  deriving DecidableEq, Repr, Inhabited

/-- Constraints, the assignment of the latest search, and a source of random draws. -/
structure Solver (ρ : Type) where
  config : Config
  counters : Counters := {}
  atoms : Atoms := {}
  clauses : Clauses := {}
  rules : Rules := {}
  /-- The assignment that searches work on. -/
  work : Assignment := {}
  /-- What the constraints fix without any assumption or decision. -/
  fixed : Valuation := #[some true]
  assumptions : List Literal := []
  status : Status := .stale
  source : ρ

namespace Solver

variable {ρ : Type}

/-- A solver without constraints, whose language is top. -/
def ofConfig (config : Config) (source : ρ) : Solver ρ := { config, source }

instance [Inhabited ρ] : Inhabited (Solver ρ) := ⟨ofConfig {} default⟩

/-- Notes that the constraints have changed. -/
def invalidate (s : Solver ρ) : Solver ρ := { s with status := .stale }

/-- Makes an atom, whether its name was given before or not. -/
def makeAtom (s : Solver ρ) (name : Option Proposition) : Atom × Solver ρ :=
  let (a, atoms) := s.atoms.fresh name
  (a, { s with
    atoms
    work := { s.work with valuation := s.work.valuation.push none }
    fixed := s.fixed.push none })

/-- A new atom without a name. -/
def auxiliary (s : Solver ρ) : Atom × Solver ρ :=
  let (a, s) := s.makeAtom none
  (a, s.invalidate)

/-- The atom of a proposition, made when the proposition has none. -/
def proposition (s : Solver ρ) (p : Proposition) : Atom × Solver ρ :=
  match s.atoms.named? p with
  | some a => (a, s)
  | none =>
    let (a, s) := s.makeAtom (some p)
    (a, s.invalidate)

/-- The asserted clauses and the completion clauses of the rules. -/
def formula (s : Solver ρ) : List Clause := s.clauses.asserted.toList ++ s.rules.completion

/-- The number of asserted clauses and of rules. -/
def constraintCount (s : Solver ρ) : Nat := s.clauses.asserted.size + s.rules.count

/-- Goes on if every literal has an atom of the language. -/
def checkKnown (s : Solver ρ) (ls : List Literal) : Except Error Unit :=
  match s.atoms.unknown? ls with
  | some a => .error (.unknownAtom a)
  | none => .ok ()

/-- Demands that a literal of the language be true in the searches to come. -/
def force (l : Literal) : EStateM Error (Solver ρ) Unit := fun s =>
  match s.checkKnown [l] with
  | .error e => .error e s
  | .ok () => .ok () { s with assumptions := s.assumptions ++ [l] }

/-- Drops the assumptions, and what the latest search has left. -/
def reset (s : Solver ρ) : Solver ρ :=
  { s with assumptions := [], work := ⟨s.fixed, {}⟩ }

end Solver

end Storyworld
