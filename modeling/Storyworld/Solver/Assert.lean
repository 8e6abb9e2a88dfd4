import Storyworld.Solver.Basic

namespace Storyworld

/-!
# Clauses and rules

Constraints are permanent. A clause is stored in canonical form, unless it is a
tautology or stored already. A rule is checked before anything is stored, so that a
rule that is refused leaves the solver as it was.
-/

/-- Something that a solver can be told to keep to. -/
inductive Constraint where
  /-- At least one literal is true. -/
  | clause (c : Clause)
  /-- If the body is true, so is the head. -/
  | implication (body head : Literal)
  /-- The head is true if every literal of the body is and, taken with the other rules of the
  head, only if. -/
  | rule (head : Nat) (body : Clause)
  deriving DecidableEq, Repr

namespace Solver

variable {ρ : Type}

/-- Stores the canonical form of a clause over the language. -/
def store (c : Clause) (s : Solver ρ) : Stored × Solver ρ :=
  if c.canonical.clashes then (.tautology, s)
  else
    match s.clauses.store c.canonical with
    | (.added key, clauses) => (.added key, { s with clauses, status := .stale })
    | (stored, clauses) => (stored, { s with clauses })

def addClause (c : Clause) : EStateM Error (Solver ρ) Stored := fun s =>
  match s.checkKnown c with
  | .error e => .error e s
  | .ok () =>
    let (stored, s) := s.store c
    .ok stored s

/-- The clauses that make a literal true exactly when every literal of the body is. -/
def definingClauses (support : Literal) (body : Clause) : List Clause :=
  body.map (fun l => [support.negate, l]) ++ [body.map Literal.negate ++ [support]]

/-- A literal that is true exactly when the body is: its only literal, the atom that stands
for the body, or a new atom that does so from now on. -/
def support (body : Clause) (s : Solver ρ) : Literal × Solver ρ :=
  match body with
  | [l] => (l, s)
  | _ =>
    match s.rules.definition? body with
    | some a => (Literal.pos a, s)
    | none =>
      let (a, s) := s.auxiliary
      let s := (definingClauses (Literal.pos a) body).foldl (fun s c => (s.store c).2) s
      (Literal.pos a, { s with rules := s.rules.define body a })

/-- Stores a rule over the language whose body is not empty. -/
def storeRule (head : Atom) (body : Clause) (s : Solver ρ) : Stored × Solver ρ :=
  let body := body.canonical
  if body.clashes then (.tautology, s)
  else if s.rules.contains head body then (.duplicate, s)
  else
    let (support, s) := s.support body
    let (stored, s) := s.store [support.negate, Literal.pos head]
    (stored, { s with rules := s.rules.record head body support, status := .stale })

/-- Asserts that the head holds if the body does and, taken with the other rules of the head,
only if. A body that cannot hold is a tautology, and nothing is stored for it. -/
def addRule (head : Atom) (body : Clause) : EStateM Error (Solver ρ) Stored := fun s =>
  if body.isEmpty then .error (.emptyBody head) s
  else
    match s.checkKnown (Literal.pos head :: body) with
    | .error e => .error e s
    | .ok () =>
      let (stored, s) := s.storeRule head body
      .ok stored s

/-- Declares an atom to be a head, so that it holds only if the body of a rule for it does. -/
def addHead (head : Atom) : EStateM Error (Solver ρ) Unit := fun s =>
  match s.checkKnown [Literal.pos head] with
  | .error e => .error e s
  | .ok () => .ok () { s with rules := s.rules.declareHead head, status := .stale }

def assert : Constraint → EStateM Error (Solver ρ) Unit
  | .clause c => do let _ ← addClause c
  | .implication body head => do let _ ← addClause [body.negate, head]
  | .rule head body => do let _ ← addRule head body

def inconsistent (l m : Literal) : EStateM Error (Solver ρ) Unit :=
  assert (.clause [l.negate, m.negate])

end Solver

end Storyworld
