import Std.Data.TreeMap
import Storyworld.Logic.Clause

namespace Storyworld

/-!
# The rules of a solver

A rule makes its head hold when its body, a conjunction of literals, does; and a head
holds only if the body of one of its rules does. Each body has a support, a literal
that is true exactly when the body holds. From the supports `s₁ … sₖ` of a head `h`
comes its completion clause `¬h ∨ s₁ ∨ … ∨ sₖ`. A head may be declared without a rule;
its completion clause is then `¬h`.
-/

/-- The supports by head, the rules that were recorded, and the atoms that stand for bodies. -/
structure Rules where
  supports : Std.TreeMap Nat (List Literal) := {}
  recorded : List (Nat × Clause) := []
  definitions : List (Clause × Nat) := []

namespace Rules

instance : Inhabited Rules := ⟨{}⟩

/-- The supports of a head, in the order they were recorded. -/
def supportsOf (r : Rules) (head : Atom) : List Literal := r.supports[head]?.getD []

def contains (r : Rules) (head : Atom) (body : Clause) : Bool :=
  decide ((head, body) ∈ r.recorded)

def declareHead (r : Rules) (head : Atom) : Rules :=
  { r with supports := r.supports.insert head (r.supportsOf head) }

/-- Records a rule with the support of its body. A head does not list a support twice. -/
def record (r : Rules) (head : Atom) (body : Clause) (support : Literal) : Rules :=
  let known := r.supportsOf head
  { r with
    recorded := if r.contains head body then r.recorded else (head, body) :: r.recorded
    supports := r.supports.insert head (if support ∈ known then known else known ++ [support]) }

/-- The atom that stands for a body, if one was made. -/
def definition? (r : Rules) (body : Clause) : Option Atom := r.definitions.lookup body

/-- Notes that an atom stands for a body. -/
def define (r : Rules) (body : Clause) (a : Atom) : Rules :=
  { r with definitions := (body, a) :: r.definitions }

/-- The completion clause of each head, in increasing order of the heads. -/
def completion (r : Rules) : List Clause :=
  r.supports.toList.map fun (head, supports) => Literal.neg head :: supports

def count (r : Rules) : Nat := r.recorded.length

end Rules

end Storyworld
