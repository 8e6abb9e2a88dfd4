import Storyworld.Logic.Literal

namespace Storyworld

/-!
# Valuations and models

A valuation gives some atoms a value; a model gives one to every atom below its
size. Both are tables indexed by atom. An atom past the end of the table has no
value in a valuation, and counts as false in a model: it was made after the model
was found.
-/

/-- A table of values by atom, in which an atom may have no value yet. -/
abbrev Valuation := Array (Option Bool)

namespace Valuation

/-- The valuation of a language of `count` atoms in which only top has a value. -/
def blank (count : Nat) : Valuation := #[some true] ++ Array.replicate (count - 1) none

/-- The value of an atom, if it has one. -/
def value? (v : Valuation) (a : Atom) : Option Bool := v[a]?.join

def satisfies (v : Valuation) (l : Literal) : Bool := v.value? l.atom == some l.positive

/-- Gives the atom of the literal the value that makes the literal true. -/
def assign (v : Valuation) (l : Literal) : Valuation := v.setIfInBounds l.atom (some l.positive)

/-- Takes the value of an atom away. Top keeps its value. -/
def release (v : Valuation) (a : Atom) : Valuation :=
  if a = Atom.top then v else v.setIfInBounds a none

/-- The atoms that have no value, in increasing order, top left out. -/
def openAtoms (v : Valuation) : List Atom :=
  (List.range v.size).filter fun a => a != Atom.top && v[a]? == some none

def openCount (v : Valuation) : Nat := v.count none

/-- The atoms that have a value, each with it, in increasing order, top left out. -/
def pairs (v : Valuation) : List (Atom × Bool) :=
  (List.range v.size).filterMap fun a =>
    if a = Atom.top then none else (v.value? a).map fun b => (a, b)

end Valuation

/-- A value for every atom of a language. -/
structure Model where
  values : Array Bool
  deriving DecidableEq, Repr, Inhabited

namespace Model

/-- The model of the first `count` atoms in which an atom without a value is false. -/
def ofValuation (v : Valuation) (count : Nat) : Model :=
  ⟨Array.ofFn fun a : Fin count => (v.value? a).getD false⟩

/-- The value of an atom, if the atom belongs to the language of the model. -/
def value? (m : Model) (a : Atom) : Option Bool := m.values[a]?

/-- Whether the literal is true, atoms outside the language of the model being false. -/
def holds (m : Model) (l : Literal) : Bool := (m.value? l.atom).getD false == l.positive

/-- The atoms that are true, in increasing order, top left out. -/
def trueAtoms (m : Model) : List Atom :=
  (List.range m.values.size).filter fun a => a != Atom.top && m.values[a]? == some true

/-- The number of atoms in the language of the model, top included. -/
def atomCount (m : Model) : Nat := m.values.size

end Model

/-! ### Values after one change -/

namespace Valuation

@[simp] theorem size_assign (v : Valuation) (l : Literal) : (v.assign l).size = v.size := by
  simp [assign]

@[simp] theorem size_release (v : Valuation) (a : Atom) : (v.release a).size = v.size := by
  unfold release; split <;> simp

theorem value?_assign_self {v : Valuation} {l : Literal} (h : l.atom < v.size) :
    (v.assign l).value? l.atom = some l.positive := by
  simp [assign, value?, h]

theorem value?_assign_of_ne (v : Valuation) {l : Literal} {a : Atom} (h : a ≠ l.atom) :
    (v.assign l).value? a = v.value? a := by
  simp [assign, value?, Ne.symm h]

theorem value?_release_self {v : Valuation} {a : Atom} (h : a ≠ Atom.top) :
    (v.release a).value? a = none := by
  by_cases ha : a < v.size <;> simp [release, value?, h, ha]

theorem value?_release_of_ne (v : Valuation) {a b : Atom} (h : b ≠ a) :
    (v.release a).value? b = v.value? b := by
  unfold release
  split
  · rfl
  · simp [value?, Ne.symm h]

theorem size_blank {count : Nat} (h : 0 < count) : (blank count).size = count := by
  simp [blank]; omega

end Valuation

end Storyworld
