import Storyworld.CommandLine.Disk
import Storyworld.CommandLine.Options
import Storyworld.CommandLine.Path
import Storyworld.CommandLine.Session
import Storyworld.CommandLine.Terminal
import Storyworld.Config
import Storyworld.Decimal.Reading
import Storyworld.Decimal.Shortest
import Storyworld.Error
import Storyworld.Interview.Dialogue
import Storyworld.Interview.Questionnaire
import Storyworld.Knowledge.Base
import Storyworld.Knowledge.Domain
import Storyworld.Knowledge.Grounding
import Storyworld.Knowledge.Taxonomy
import Storyworld.Logic.Clause
import Storyworld.Logic.Literal
import Storyworld.Logic.Semantics
import Storyworld.Logic.Valuation
import Storyworld.Main
import Storyworld.Ontology
import Storyworld.Phrase.Grammar
import Storyworld.Phrase.Meaning
import Storyworld.Proofs.Action
import Storyworld.Proofs.Random.Draws
import Storyworld.Proofs.Solver.Language
import Storyworld.Proofs.Solver.Occurrences
import Storyworld.Proofs.Solver.Operations
import Storyworld.Proofs.Solver.Counting
import Storyworld.Proofs.Solver.Preference
import Storyworld.Proofs.Solver.Propagation
import Storyworld.Proofs.Solver.Rounds
import Storyworld.Proofs.Solver.Search
import Storyworld.Proofs.Solver.Trail
import Storyworld.Proofs.Solver.Values
import Storyworld.Proposition
import Storyworld.Random.Pcg
import Storyworld.Random.Source
import Storyworld.Solver.Assert
import Storyworld.Solver.Assignment
import Storyworld.Solver.Atoms
import Storyworld.Solver.Basic
import Storyworld.Solver.Cardinality
import Storyworld.Solver.Clauses
import Storyworld.Solver.Question
import Storyworld.Solver.Refresh
import Storyworld.Solver.Rules
import Storyworld.Solver.Search
import Storyworld.Solver.Trail
import Storyworld.Text.Blank
import Storyworld.Text.Extending
import Storyworld.Text.Hidden
import Storyworld.Text.Json
import Storyworld.Text.Ranges
import Storyworld.World.Basic
import Storyworld.World.Snapshot
import Storyworld.Proofs.Solver.Invariant
import Storyworld.Proofs.Solver.Fixed
import Storyworld.Proofs.Solver.Solve
import Storyworld.Proofs.Solver.Account
import Storyworld.Proofs.Solver.Completion
import Storyworld.Proofs.Solver.Question
import Storyworld.Proofs.Knowledge.Base
import Storyworld.Proofs.Knowledge.Declarations
import Storyworld.Proofs.Knowledge.Grounding
import Storyworld.Proofs.Interview.Questionnaire
import Storyworld.Proofs.World.Reachable
import Storyworld.Proofs.Interview.Dialogue
import Storyworld.Proofs.Knowledge.Development
import Storyworld.Proofs.Knowledge.Links
import Storyworld.Proofs.Knowledge.Calls
import Storyworld.Proofs.Knowledge.Compilation
import Storyworld.Proofs.Knowledge.Meaning
import Storyworld.Proofs.Knowledge.Upkeep
import Storyworld.Proofs.Knowledge.Typing
import Storyworld.Proofs.Solver.Supports
import Storyworld.Proofs.Knowledge.Existentials
import Storyworld.Proofs.Knowledge.Quantification
import Storyworld.Proofs.Solver.Confluence
import Storyworld.Proofs.Solver.Lockstep
import Storyworld.Proofs.Solver.Reordering
import Storyworld.Proofs.Solver.Twins
import Storyworld.Proofs.Solver.Unseen
import Storyworld.Proofs.Solver.Scratch
import Storyworld.Proofs.Knowledge.Twins
import Storyworld.Proofs.World.Twins
import Storyworld.Proofs.World.Probes
import Storyworld.Proofs.Knowledge.Closure
import Storyworld.Proofs.Knowledge.Phrases
import Storyworld.Proofs.Knowledge.Discovery
import Storyworld.Proofs.Knowledge.Withdrawal
import Storyworld.Proofs.Solver.Heads
import Storyworld.Proofs.Knowledge.Modesty
import Storyworld.Proofs.World.Modesty
import Storyworld.Proofs.World.Typing
import Storyworld.Proofs.World.Descent
import Storyworld.Proofs.Solver.UnitClosure
import Storyworld.Proofs.Solver.Termination
import Storyworld.Proofs.Solver.Naming
import Storyworld.Proofs.Knowledge.Later
import Storyworld.Proofs.World.Frozen
import Storyworld.Proofs.Knowledge.Steps
import Storyworld.Proofs.Knowledge.Register
import Storyworld.Proofs.World.Lasting
import Storyworld.Proofs.World.Grouping
import Storyworld.Proofs.World.Partition
import Storyworld.Proofs.World.Standard
import Storyworld.Proofs.Interview.Course
import Storyworld.Proofs.Solver.Enforcement
import Storyworld.Proofs.World.Constraints
import Storyworld.Proofs.Text.Padding
import Storyworld.Proofs.Interview.Lines
import Storyworld.Proofs.Interview.Writing
import Storyworld.Proofs.Solver.Repetition
import Storyworld.Proofs.Solver.Recounting
import Storyworld.Proofs.Solver.Top
import Storyworld.Proofs.Knowledge.Preorder
import Storyworld.Proofs.Knowledge.Membership
import Storyworld.Proofs.Solver.Refusals
import Storyworld.Proofs.Phrase.Negation
import Storyworld.Proofs.Knowledge.Senses
import Storyworld.Proofs.World.Meanings
import Storyworld.Proofs.Knowledge.Spelling
import Storyworld.Proofs.Phrase.Words
import Storyworld.Proofs.Knowledge.Utterances
import Storyworld.Proofs.World.Texts
import Storyworld.Proofs.Random.Period
import Storyworld.Proofs.Solver.RandomDecisions
import Storyworld.Proofs.Solver.Attained
import Storyworld.Proofs.Solver.History
import Storyworld.Proofs.Solver.Checked
import Storyworld.Proofs.Solver.Held
import Storyworld.Proofs.Solver.InRange
import Storyworld.Proofs.Solver.Canonical
import Storyworld.Proofs.Knowledge.Domain
