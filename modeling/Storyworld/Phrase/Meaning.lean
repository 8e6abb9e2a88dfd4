import Storyworld.Knowledge.Grounding
import Storyworld.Phrase.Grammar

namespace Storyworld

/-!
# What phrases mean

A phrase means a literal. A predicate applied to an entity is a call, and to a sort an
existential; a name that could be either is an entity if one of that name is
registered. A lone word is read through the existence predicate where there is one: as
an entity that it admits, or else as a sort, or else as a proposition of its own.
-/

namespace Grounding

variable {ρ : Type}

/-- The atom of a lone word. -/
def wordAtom (w : String) : EStateM Error (Grounding ρ) Atom := do
  let base := (← get).base
  match base.existence with
  | none => proposition (.word w)
  | some existence =>
    if base.admits existence (.one w) then call existence (.one w)
    else
      match base.taxonomy.named? w with
      | some sort => existential existence sort
      | none => proposition (.word w)

/-- The atom of a unary predicate applied to a word. -/
def unaryAtom (p : PredicateId) (argument : String) : EStateM Error (Grounding ρ) Atom := do
  let base := (← get).base
  match base.sortOf? argument, base.taxonomy.named? argument with
  | none, some sort => existential p sort
  | _, _ => call p (.one argument)

def literalOf : Phrase → EStateM Error (Grounding ρ) Literal
  | .negation phrase => do return (← literalOf phrase).negate
  | .word w => do return Literal.pos (← wordAtom w)
  | .unary p argument => do return Literal.pos (← unaryAtom p argument)
  | .binary p left right => do return Literal.pos (← call p (.two left right))

end Grounding

end Storyworld
