import Storyworld.Solver.Basic

namespace Storyworld

/-!
# What the constraints fix

Propagation from the unit clauses, without assumptions or decisions, gives values
that every model of the constraints shares. They are found when they are asked for
and the constraints have changed, and kept until the constraints change again.
-/

namespace Solver

variable {ρ : Type}

/-- The literals of the clauses that have one literal only. -/
def units (clauses : Clauses) : List Literal :=
  clauses.all.filterMap fun c =>
    match c with
    | [l] => some l
    | _ => none

/-- Propagates from the unit clauses, and says whether no conflict was met. -/
def fix (clauses : Clauses) (start : Assignment) : Bool × Assignment :=
  if clauses.containsEmpty then (false, start)
  else
    match Assignment.assume (units clauses) start with
    | (false, a) => (false, a)
    | (true, a) =>
      match a.propagate clauses with
      | (some _, a) => (false, a)
      | (none, a) => (true, a)

/-- Finds what the constraints fix now, whether it was known or not. -/
def recompute (s : Solver ρ) : Solver ρ :=
  let clauses := (s.clauses.withCompletion s.rules.completion).reindex s.atoms.count
  let (consistent, a) := fix clauses ⟨Valuation.blank s.atoms.count, {}⟩
  { s with
    clauses
    work := ⟨a.valuation, {}⟩
    fixed := a.valuation
    status := if consistent then .consistent else .inconsistent }

/-- Brings the fixed valuation up to date, if the constraints have changed. -/
def refresh (s : Solver ρ) : Solver ρ :=
  match s.status with
  | .stale => s.recompute
  | _ => s

/-- The value that the constraints fix for an atom, if propagation finds one. -/
def fixedValue (a : Atom) : EStateM Error (Solver ρ) (Option Bool) := fun s =>
  match s.checkKnown [Literal.pos a] with
  | .error e => .error e s
  | .ok () =>
    let s := s.refresh
    .ok (if s.status = .inconsistent then none else s.fixed.value? a) s

end Solver

end Storyworld
