import Storyworld.Random.Source
import Storyworld.Solver.Refresh

namespace Storyworld

/-!
# The search for a model

The search starts from the fixed valuation and the assumptions. In each round the
consequences of what is assigned are drawn; without a conflict an open atom is
decided, and a conflict takes the search back to the latest decision that has been
tried one way only. It ends when every atom has a value or nothing is left to try.

With `n` atoms open at the start there are at most `2 ^ (n + 1) - 1` rounds, which is
how many the search is given.

Time is left out. The time limit of the configuration is not looked at, and no search is
refused because it took too long: a search is here one that was given the time it needs.
What a search leaves behind that ran out of time before some round, with its refusal as the
only answer, is described apart from this (`Solver.interrupted`, `Solver.Attained`).
-/

namespace Solver

variable {ρ : Type} [RandomSource ρ]

/-- An atom to decide: the lowest one without a value, or, as often as the configuration
says, a random one. -/
def openAtom? (s : Solver ρ) : Option Atom × Solver ρ :=
  let (random, source) := RandomSource.coin s.config.randomDecisionBias.value s.source
  let candidates := s.work.valuation.openAtoms
  if random then
    let (a, source) := RandomSource.pick candidates source
    (a, { s with source })
  else (candidates.head?, { s with source })

/-- The value a decision gives to its atom: false when optimizing, and otherwise true as
often as the configuration says. -/
def polarity (optimize : Bool) (s : Solver ρ) : Bool × Solver ρ :=
  if optimize then (false, s)
  else
    let (b, source) := RandomSource.coin s.config.polarityLean.value s.source
    (b, { s with source })

/-- A decision that could be made next, unless every atom has a value. It is not made yet. -/
def decide? (optimize : Bool) (s : Solver ρ) : Option Literal × Solver ρ :=
  match s.openAtom? with
  | (none, s) => (none, s)
  | (some a, s) =>
    let s := { s with counters.decisions := s.counters.decisions + 1 }
    let (b, s) := s.polarity optimize
    (some ⟨a, b⟩, s)

/-- How a search stands after a round. -/
inductive Progress where
  /-- There is more to try. -/
  | searching
  /-- Every atom has a value, and no clause is false. -/
  | found
  /-- Everything has been tried. -/
  | exhausted
  deriving DecidableEq, Repr, Inhabited

/-- One round: the consequences, and then a decision or the way back from a conflict. -/
def round (optimize : Bool) (s : Solver ρ) : Progress × Solver ρ :=
  let s := { s with counters.iterations := s.counters.iterations + 1 }
  match s.work.propagate s.clauses with
  | (none, work) =>
    match decide? optimize { s with work } with
    | (none, s) => (.found, s)
    | (some l, s) => (.searching, { s with work := s.work.choose l false })
  | (some _, work) =>
    let s := { s with counters.conflicts := s.counters.conflicts + 1 }
    match work.backtrack with
    | (none, work) => (.exhausted, { s with work })
    | (some l, work) => (.searching, { s with work := work.choose l true })

/-- That many rounds, or fewer if the search ends before. -/
def rounds (optimize : Bool) : Nat → Solver ρ → Progress × Solver ρ
  | 0, s => (.searching, s)
  | n + 1, s =>
    match s.round optimize with
    | (.searching, s) => rounds optimize n s
    | (ended, s) => (ended, s)

/-- A bound on the rounds of a search from a valuation. -/
def roundLimit (v : Valuation) : Nat := Nat.pow 2 (v.openCount + 1) - 1

/-- Puts the assumptions on the fixed valuation, and says whether that was possible. -/
def begin (s : Solver ρ) : Bool × Solver ρ :=
  let (possible, work) := Assignment.assume s.assumptions ⟨s.fixed, {}⟩
  (possible, { s with work })

/-- A model of the constraints and the assumptions, if there is one. Free decisions are
false when `optimize` is set. The time limit is not looked at. -/
def solve (optimize : Bool) (s : Solver ρ) : Option Model × Solver ρ :=
  let s := { s with counters.solves := s.counters.solves + 1 }.refresh
  if s.status = .inconsistent then (none, s)
  else
    match s.begin with
    | (false, s) => (none, s)
    | (true, s) =>
      match rounds optimize (roundLimit s.work.valuation) s with
      | (.found, s) => (some (Model.ofValuation s.work.valuation s.atoms.count), s)
      | (_, s) => (none, s)

end Solver

end Storyworld
