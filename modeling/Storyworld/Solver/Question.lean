import Storyworld.Solver.Search

namespace Storyworld

/-!
# Questions put to a solver

A question assumes literals for one search and drops them again, whether the search
is made or a literal is refused. So no question has a trace in the assumptions that
the next one starts from.
-/

namespace Solver

variable {ρ : Type}

/-- Does something between two resets. -/
def apart {α : Type} (act : EStateM Error (Solver ρ) α) : EStateM Error (Solver ρ) α := fun s =>
  match act s.reset with
  | .ok a s => .ok a s.reset
  | .error e s => .error e s.reset

/-- Demands each literal in turn, up to one that is refused. -/
def forceAll (ls : List Literal) : EStateM Error (Solver ρ) Unit := ls.forM force

variable [RandomSource ρ]

/-- Whether the constraints have a model in which the assumptions and the literals are true. A
literal that is fixed is compared with its value, and the others are assumed. -/
def consistentWith : List Literal → EStateM Error (Solver ρ) Bool
  | [] => do return (← modifyGet (solve false)).isSome
  | l :: ls => do
    match ← fixedValue l.atom with
    | some b => if b = l.positive then consistentWith ls else return false
    | none =>
      force l
      consistentWith ls

/-- Whether the constraints have a model in which the literals are true. -/
def probe (ls : List Literal) : EStateM Error (Solver ρ) Bool := apart (consistentWith ls)

/-- A model of the constraints in which the literals are true, if there is one. -/
def modelWith (optimize : Bool) (ls : List Literal) : EStateM Error (Solver ρ) (Option Model) :=
  apart do
    forceAll ls
    modifyGet (solve optimize)

end Solver

end Storyworld
