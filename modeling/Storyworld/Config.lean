namespace Storyworld

/-!
# Configuration

A setting is a value with the bounds it has to stay within. A value out of bounds is
refused and the setting keeps the one it has; a value that is not comparable, such as
not-a-number, is out of bounds.
-/

/-- A value within bounds, under the name that messages use for it. -/
structure Setting (α : Type) where
  label : String
  least : α
  greatest : α
  value : α
  deriving Repr

namespace Setting

/-- The setting with a new value, if the value is within its bounds. -/
def set? {α : Type} [LE α] [DecidableLE α] (s : Setting α) (v : α) : Option (Setting α) :=
  if s.least ≤ v ∧ v ≤ s.greatest then some { s with value := v } else none

theorem set?_eq_some_iff {α : Type} [LE α] [DecidableLE α] {s t : Setting α} {v : α} :
    s.set? v = some t ↔ (s.least ≤ v ∧ v ≤ s.greatest) ∧ { s with value := v } = t := by
  unfold set?; split <;> simp_all

end Setting

/-- How a world is searched for and asked about. -/
structure Config where
  /-- The probability with which a free decision makes its atom true. -/
  polarityLean : Setting Float := ⟨"polarity_lean", 0, 1, 1⟩
  /-- The probability with which a decision is on a random atom, and not on the lowest. -/
  randomDecisionBias : Setting Float := ⟨"random_decision_bias", 0, 1, 0⟩
  /-- What the random draws start from. -/
  seed : Setting UInt64 := ⟨"seed", 0, 0xffffffffffffffff, 0⟩
  /-- Whether a commit prefers atoms to be false. -/
  optimize : Setting Bool := ⟨"optimize", false, true, false⟩
  /-- The seconds a search may take, zero for as long as it needs. A search counts its
  rounds and not the time, so this is kept for whoever runs it, and no search is refused
  for it. -/
  timeLimit : Setting Nat := ⟨"time_limit", 0, 0xffffffffffffffff, 0⟩
  /-- The number of consistent answers that a question needs in order to be asked. -/
  minOptions : Setting Nat := ⟨"min_options", 1, 0xffffffffffffffff, 2⟩
  deriving Repr

namespace Config

/-- The seconds a search may take, if there is a limit. -/
def timeLimit? (c : Config) : Option Nat :=
  if c.timeLimit.value = 0 then none else some c.timeLimit.value

end Config

instance : Inhabited Config := ⟨{}⟩

end Storyworld
