import Storyworld.Logic.Literal

namespace Storyworld

/-!
# Errors

One type for everything that can be refused: a malformed ontology, a constraint on
an atom that does not exist, a line that cannot be read, a commit without a model, or
a choice that was not offered. An unsatisfiable probe is an answer and not an error.
-/

/-- Why an operation was refused. -/
inductive Error where
  /-- An entity was declared to be of one sort after having been bound to another. -/
  | sortConflict (entity declared requested : String)
  /-- An argument is not of the sort that the predicate requires. -/
  | sortMismatch (predicate argument expected : String)
  | undeclaredSort (entity : String)
  | duplicatePredicateName (name : String)
  | duplicateSortName (name : String)
  | unknownSort (name : String)
  | unknownPredicate (name : String)
  /-- A predicate was given the wrong number of arguments, or a pattern the wrong number
  of holes. -/
  | arityMismatch (predicate : String) (expected found : Nat)
  /-- A relation was declared of a predicate that had been called already. -/
  | relationAfterUse (predicate : String)
  | unknownAtom (atom : Atom)
  | emptyBody (head : Atom)
  | emptyPhrase
  /-- No pattern fits the words of a phrase. -/
  | invalidSyntax (phrase : String)
  /-- Something is wrong with the line of that number, counted from 1. -/
  | line (number : Nat) (reason : Error)
  | negatedHead (head : String)
  /-- Implications or an answer stand before any question. -/
  | orphan
  /-- The source of a questionnaire could not be read. -/
  | unreadable (reason : String)
  | unsatisfiableCommit
  | notCommitted
  | noSuchAnswer (choice : Nat)
  deriving DecidableEq, Repr, Inhabited

namespace Error

/-- The error as a sentence for the reader. -/
def message : Error → String
  | .sortConflict entity declared requested =>
    "the sort of " ++ entity ++ " has already been declared to be " ++ declared ++ ", not "
      ++ requested
  | .sortMismatch predicate argument expected =>
    "argument to " ++ predicate ++ ", " ++ argument ++ ", must be of sort " ++ expected
  | .undeclaredSort entity => "no declared sort for " ++ entity
  | .duplicatePredicateName name =>
    "a predicate named " ++ name ++ " has already been defined"
  | .duplicateSortName name => "a sort named " ++ name ++ " has already been registered"
  | .unknownSort name => "no sort named " ++ name
  | .unknownPredicate name => "no predicate named " ++ name
  | .arityMismatch predicate expected found =>
    predicate ++ " takes " ++ toString expected ++ " argument(s), not " ++ toString found
  | .relationAfterUse predicate =>
    "relations of " ++ predicate ++ " must be declared before it is called on any argument"
  | .unknownAtom atom =>
    "atom " ++ toString atom ++ " is not part of the language of the oracle"
  | .emptyBody head => "a rule for atom " ++ toString head ++ " was given an empty body"
  | .emptyPhrase => "an empty phrase"
  | .invalidSyntax phrase => "invalid proposition syntax: \"" ++ phrase ++ "\""
  | .line number reason => "line " ++ toString number ++ ": " ++ reason.message
  | .negatedHead head =>
    "the head of a rule must be a proposition, not the negation \"" ++ head ++ "\""
  | .orphan => "implications given before any question"
  | .unreadable reason => "failed to read: " ++ reason
  | .unsatisfiableCommit => "no model satisfies the implications to commit"
  | .notCommitted => "the world has not been committed"
  | .noSuchAnswer choice => "no answer " ++ toString choice ++ " was offered"

end Error

end Storyworld
