import Std.Data.TreeMap
import Storyworld.Proposition
import Storyworld.Logic.Literal

namespace Storyworld

/-!
# The language of a solver

The atoms of a solver, in the order they were made, each with the proposition it
stands for, if any. An atom without a name is auxiliary. Top is made first and has
no name.

Atoms are numbered without a bound. An implementation that keeps them in machine words
runs out of them at some point and refuses to make another; that refusal is left out
here, so to make an atom always succeeds.
-/

/-- The names of the atoms, and where each name was given last. -/
structure Atoms where
  names : Array (Option Proposition) := #[none]
  index : Std.TreeMap Proposition Nat := {}

namespace Atoms

instance : Inhabited Atoms := ⟨{}⟩

/-- The number of atoms, top included. -/
def count (s : Atoms) : Nat := s.names.size

def contains (s : Atoms) (a : Atom) : Bool := decide (a < s.names.size)

/-- The atom that stands for the proposition, if there is one. -/
def named? (s : Atoms) (p : Proposition) : Option Atom := s.index[p]?

/-- The proposition that the atom stands for, if it stands for one. -/
def name? (s : Atoms) (a : Atom) : Option Proposition := s.names[a]?.join

/-- The number of propositions that have an atom. -/
def propositionCount (s : Atoms) : Nat := s.index.size

/-- Makes an atom, whatever number of them there is already. A name that was given before now
belongs to the new atom. -/
def fresh (s : Atoms) (name : Option Proposition) : Atom × Atoms :=
  (s.names.size,
    { names := s.names.push name
      index := match name with
        | none => s.index
        | some p => s.index.insert p s.names.size })

def unknown? (s : Atoms) (ls : List Literal) : Option Atom :=
  (ls.find? fun l => !s.contains l.atom).map Literal.atom

theorem unknown?_eq_none_iff {s : Atoms} {ls : List Literal} :
    s.unknown? ls = none ↔ ∀ l ∈ ls, l.atom < s.count := by
  simp [unknown?, contains, count]

@[simp] theorem count_fresh (s : Atoms) (name : Option Proposition) :
    (s.fresh name).2.count = s.count + 1 := by
  simp [fresh, count]

end Atoms

end Storyworld
