namespace Storyworld

/-!
# Atoms and literals

Atoms are numbered from zero. Atom `0` is *top*, true in every valuation; the
others stand for propositions or are auxiliary. A literal is an atom with a
polarity, and literals are ordered by atom, the negative literal of an atom
before the positive one. That order is the order of `Literal.index`.
-/

/-- A Boolean variable, by number. -/
abbrev Atom := Nat

/-- The atom whose value is always true. -/
def Atom.top : Atom := (0 : Nat)

/-- An atom together with the value it is said to have. -/
structure Literal where
  atom : Nat
  positive : Bool
  deriving DecidableEq, Repr, Inhabited

namespace Literal

def pos (a : Atom) : Literal := ⟨a, true⟩

def neg (a : Atom) : Literal := ⟨a, false⟩

def negate (l : Literal) : Literal := ⟨l.atom, !l.positive⟩

/-- The place of a literal in a table of literals: `2a` for the negative literal of
atom `a` and `2a + 1` for the positive one. -/
def index (l : Literal) : Nat := 2 * l.atom + l.positive.toNat

/-- The atom as an integer, with the sign of the literal. Both literals of top are `0`. -/
def toInt (l : Literal) : Int := if l.positive then l.atom else -l.atom

/-- The atom in decimal, after a minus sign when the literal is negative. -/
def text (l : Literal) : String := if l.positive then toString l.atom else "-" ++ toString l.atom

instance : Ord Literal := ⟨compareOn index⟩

@[simp] theorem atom_pos (a : Atom) : (pos a).atom = a := rfl

@[simp] theorem positive_pos (a : Atom) : (pos a).positive = true := rfl

@[simp] theorem atom_neg (a : Atom) : (neg a).atom = a := rfl

@[simp] theorem positive_neg (a : Atom) : (neg a).positive = false := rfl

@[simp] theorem atom_negate (l : Literal) : l.negate.atom = l.atom := rfl

@[simp] theorem positive_negate (l : Literal) : l.negate.positive = !l.positive := rfl

@[simp] theorem negate_negate (l : Literal) : l.negate.negate = l := by
  cases l; simp [negate]

theorem negate_ne (l : Literal) : l.negate ≠ l := by
  cases l with
  | mk a p => cases p <;> simp [negate]

/-- Two literals of one atom are equal or negations of each other. -/
theorem eq_or_eq_negate {l m : Literal} (h : l.atom = m.atom) : l = m ∨ l = m.negate := by
  cases l with
  | mk a p => cases m with
    | mk b q =>
      simp only at h
      subst h
      cases p <;> cases q <;> simp [negate]

theorem index_injective {l m : Literal} (h : l.index = m.index) : l = m := by
  cases l with
  | mk a p => cases m with
    | mk b q =>
      cases p <;> cases q <;>
        simp only [index, Bool.toNat_true, Bool.toNat_false] at h <;>
        first | omega | rw [show a = b by omega]

theorem index_inj {l m : Literal} : l.index = m.index ↔ l = m :=
  ⟨index_injective, fun h => h ▸ rfl⟩

instance : Std.TransOrd Literal := inferInstanceAs <| Std.TransCmp (compareOn index)

instance : Std.LawfulEqOrd Literal where
  eq_of_compare h := index_injective (Std.LawfulEqOrd.eq_of_compare (α := Nat) h)

end Literal

end Storyworld
