namespace Storyworld.Text

/-!
# Sets of characters by ranges of code points

The properties of characters are given as lists of ranges, ascending and apart. A
character has the property if one of the ranges holds its code point (`Ranges.holds_iff`),
and none has it in a stretch that all the ranges pass by (`Ranges.holds_eq_false_of_beside`).
-/

/-- Ranges of code points, both ends included. -/
abbrev Ranges := List (Nat × Nat)

namespace Ranges

/-- Whether one of the ranges holds the code point of the character. -/
def holds (rs : Ranges) (c : Char) : Bool := rs.any fun r => r.1 ≤ c.toNat && c.toNat ≤ r.2

theorem holds_iff {rs : Ranges} {c : Char} :
    rs.holds c = true ↔ ∃ r ∈ rs, r.1 ≤ c.toNat ∧ c.toNat ≤ r.2 := by
  simp [holds]

/-- A character in a stretch that all the ranges pass by is not in their set. -/
theorem holds_eq_false_of_beside {rs : Ranges} {c : Char} {first last : Nat}
    (beside : ∀ r ∈ rs, r.2 < first ∨ last < r.1)
    (above : first ≤ c.toNat) (below : c.toNat ≤ last) : rs.holds c = false := by
  rw [Bool.eq_false_iff]
  intro h
  obtain ⟨r, hr, start, stop⟩ := holds_iff.1 h
  rcases beside r hr with h | h <;> omega

/-- Whether the ranges ascend, with at least one code point between two of them. -/
def ascending : Ranges → Bool
  | [] => true
  | [r] => r.1 ≤ r.2
  | r :: s :: rest => r.1 ≤ r.2 && r.2 + 1 < s.1 && ascending (s :: rest)

/-- How many code points the ranges hold, if they are apart. -/
def count (rs : Ranges) : Nat := rs.foldr (fun r n => r.2 + 1 - r.1 + n) 0

end Ranges

end Storyworld.Text
