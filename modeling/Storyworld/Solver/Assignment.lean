import Storyworld.Solver.Clauses
import Storyworld.Solver.Trail

namespace Storyworld

/-!
# Assignments

An assignment is a valuation together with the trail that led to it. Here are the
three moves of a search: to make a literal true, to draw the consequences of the
literals on the trail, and to go back to the latest decision that is still to be
tried the other way.
-/

/-- A valuation and the trail that led to it. -/
structure Assignment where
  valuation : Valuation := #[some true]
  trail : Trail := {}
  deriving DecidableEq, Repr, Inhabited

namespace Assignment

def assign (a : Assignment) (l : Literal) : Assignment :=
  ⟨a.valuation.assign l, a.trail.push l⟩

/-- Makes a chosen literal true. -/
def choose (a : Assignment) (l : Literal) (flipped : Bool) : Assignment :=
  ⟨a.valuation.assign l, a.trail.pushDecision l flipped⟩

/-- Makes literals true one after the other, as long as none of them is false already.
Those that are true already stay off the trail. -/
def assume : List Literal → Assignment → Bool × Assignment
  | [], a => (true, a)
  | l :: ls, a =>
    match a.valuation.value? l.atom with
    | none => assume ls (a.assign l)
    | some b => if b = l.positive then assume ls a else (false, a)

/-- Looks at clauses in turn. A literal that a clause forces is made true at once, and a clause
that is false ends the visit with its key. -/
def visit (clauses : Clauses) : List ClauseKey → Assignment → Option ClauseKey × Assignment
  | [], a => (none, a)
  | key :: keys, a =>
    match (clauses.get key).standing a.valuation with
    | .settled => visit clauses keys a
    | .forces l => visit clauses keys (a.assign l)
    | .falsified => (some key, a)

/-- Draws the consequences of at most that many literals, or stops at a clause that is false. -/
def propagateWithin (clauses : Clauses) : Nat → Assignment → Option ClauseKey × Assignment
  | 0, a => (none, a)
  | n + 1, a =>
    match a.trail.next? with
    | none => (none, a)
    | some (l, trail) =>
      match visit clauses (clauses.occurrencesOf l.negate) { a with trail } with
      | (some key, a) => (some key, a)
      | (none, a) => propagateWithin clauses n a

/-- A bound on the literals whose consequences can still be drawn: those that wait on the
trail, and one for each atom without a value. -/
def reach (a : Assignment) : Nat := a.valuation.openCount + a.trail.pending

/-- Draws the consequences of every literal on the trail, new ones included, or stops at a
clause that is false and gives its key. -/
def propagate (clauses : Clauses) (a : Assignment) : Option ClauseKey × Assignment :=
  propagateWithin clauses a.reach a

/-- Takes back every literal from that position of the trail on. The decisions are given. -/
def undo (a : Assignment) (position : Nat) (decisions : List Decision) : Assignment :=
  { valuation := (a.trail.literals.toList.drop position).foldl
      (fun v l => v.release l.atom) a.valuation
    trail :=
      { literals := a.trail.literals.extract 0 position
        decisions
        propagated := position } }

/-- Takes decisions back, the latest first, up to one that has been tried one way only. -/
def backtrackThrough : List Decision → Assignment → Option Literal × Assignment
  | [], a => (none, a)
  | d :: ds, a =>
    let a := a.undo d.position ds
    if d.flipped then backtrackThrough ds a else (some d.literal.negate, a)

/-- Goes back to before the latest decision that has been tried one way only, and gives the
literal that tries it the other way. Without such a decision all of them are taken back. -/
def backtrack (a : Assignment) : Option Literal × Assignment :=
  backtrackThrough a.trail.decisions a

end Assignment

end Storyworld
