import Storyworld.Logic.Literal

namespace Storyworld

/-!
# The trail of a search

The literals that were made true, in order, with the decisions among them and the
number of literals whose consequences have been drawn.
-/

/-- A literal that was chosen. -/
structure Decision where
  /-- The place of the literal on the trail. -/
  position : Nat
  literal : Literal
  /-- Whether the opposite choice has been tried already. -/
  flipped : Bool
  deriving DecidableEq, Repr, Inhabited

/-- The literals made true so far. The latest decision comes first. -/
structure Trail where
  literals : Array Literal := #[]
  decisions : List Decision := []
  propagated : Nat := 0
  deriving DecidableEq, Repr, Inhabited

namespace Trail

/-- Adds a literal that follows or is assumed. -/
def push (t : Trail) (l : Literal) : Trail := { t with literals := t.literals.push l }

/-- Adds a literal that was chosen. -/
def pushDecision (t : Trail) (l : Literal) (flipped : Bool) : Trail :=
  { t with
    literals := t.literals.push l
    decisions := ⟨t.literals.size, l, flipped⟩ :: t.decisions }

/-- The next literal whose consequences are to be drawn, and the trail once they are. -/
def next? (t : Trail) : Option (Literal × Trail) :=
  t.literals[t.propagated]?.map fun l => (l, { t with propagated := t.propagated + 1 })

/-- The number of literals whose consequences are still to be drawn. -/
def pending (t : Trail) : Nat := t.literals.size - t.propagated

end Trail

end Storyworld
