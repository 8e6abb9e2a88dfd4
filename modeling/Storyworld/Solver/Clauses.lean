import Std.Data.TreeSet
import Storyworld.Logic.Clause

namespace Storyworld

/-!
# The clauses of a solver

Two collections: the asserted clauses, which only grow and of which no two are equal,
and the completion clauses, which are replaced together whenever rules have changed.
A key names a clause of either. For each literal the keys of the clauses it occurs in
are kept; they are collected again by `Clauses.reindex`.
-/

inductive ClauseKey where
  | asserted (index : Nat)
  | completion (index : Nat)
  deriving DecidableEq, Repr, Inhabited

namespace ClauseKey

/-- The key as text, with a letter for the collection. -/
def text : ClauseKey → String
  | .asserted i => "o_" ++ toString i
  | .completion i => "c_" ++ toString i

end ClauseKey

/-- What became of a clause or rule that was asserted. -/
inductive Stored where
  | added (key : ClauseKey)
  | duplicate
  | tautology
  deriving DecidableEq, Repr, Inhabited

theorem mem_emptyc_iff (c : Clause) : c ∈ (∅ : Std.TreeSet Clause) ↔ c ∈ (#[] : Array Clause) := by
  simp

/-- The clauses, with the set of the asserted ones and the keys by literal. -/
structure Clauses where
  asserted : Array Clause := #[]
  known : Std.TreeSet Clause := {}
  known_iff : ∀ c, c ∈ known ↔ c ∈ asserted := by exact mem_emptyc_iff
  completion : Array Clause := #[]
  occurrences : Array (Array ClauseKey) := #[]

namespace Clauses

instance : Inhabited Clauses := ⟨{}⟩

/-- Stores a clause as it is given, unless an equal one is stored. -/
def store (s : Clauses) (c : Clause) : Stored × Clauses :=
  if c ∈ s.known then (.duplicate, s)
  else
    (.added (.asserted s.asserted.size),
      { s with
        asserted := s.asserted.push c
        known := s.known.insert c
        known_iff := fun d => by
          simp only [Std.TreeSet.mem_insert, Array.mem_push, s.known_iff,
            Std.LawfulEqOrd.compare_eq_iff_eq, @eq_comm _ c d]
          exact or_comm })

/-- The same asserted clauses with other completion clauses. -/
def withCompletion (s : Clauses) (cs : List Clause) : Clauses :=
  { s with completion := cs.toArray }

/-- The clause of a key. A key that names no clause gives the empty clause. -/
def get (s : Clauses) : ClauseKey → Clause
  | .asserted i => s.asserted[i]?.getD []
  | .completion i => s.completion[i]?.getD []

/-- Every clause with its key, the asserted ones first. -/
def keyed (s : Clauses) : List (ClauseKey × Clause) :=
  s.asserted.toList.zipIdx.map (fun (c, i) => (.asserted i, c)) ++
    s.completion.toList.zipIdx.map fun (c, i) => (.completion i, c)

/-- Every clause, the asserted ones first. -/
def all (s : Clauses) : List Clause := s.asserted.toList ++ s.completion.toList

/-- Whether the empty clause is among the asserted ones. -/
def containsEmpty (s : Clauses) : Bool := decide ([] ∈ s.known)

/-- Adds a key to the keys of each literal of its clause, once for each place the literal
stands at. -/
def enter (table : Array (Array ClauseKey)) (entry : ClauseKey × Clause) :
    Array (Array ClauseKey) :=
  entry.2.foldl (fun table l => table.modify l.index (·.push entry.1)) table

/-- Collects the keys by literal, for a language of that many atoms. -/
def reindex (s : Clauses) (atomCount : Nat) : Clauses :=
  { s with occurrences := s.keyed.foldl enter (Array.replicate (2 * atomCount) #[]) }

/-- The keys of the clauses a literal occurs in, as they were when last collected. -/
def occurrencesOf (s : Clauses) (l : Literal) : List ClauseKey :=
  (s.occurrences[l.index]?.getD #[]).toList

end Clauses

end Storyworld
