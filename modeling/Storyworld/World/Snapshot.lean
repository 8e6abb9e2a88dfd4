import Storyworld.Knowledge.Base
import Storyworld.Solver.Atoms

namespace Storyworld

/-!
# Snapshots

A snapshot records a model of a world: the facts, which are the propositions that are
true, and a summary of them. Facts whose first argument is an entity are grouped by
it, in the order the entities were registered; the other facts stand apart.

The summary has one line for each group. A fact that is quiet or states existence is
left out of it, and an entity of which nothing is left is introduced by its sort. The
facts that stand apart have a line of their own at the end.
-/

/-- A proposition that is true, with what a summary needs to know of its predicate. -/
structure Fact where
  atom : Nat
  proposition : String
  predicate : Option String
  args : List Term
  quiet : Bool
  implicitSubject : Bool
  /-- Whether the predicate is the one that states existence. -/
  existence : Bool
  /-- Whether some argument is a sort. -/
  argIsSort : Bool
  deriving DecidableEq, Repr, Inhabited

namespace Fact

/-- The fact that a proposition is true. -/
def ofProposition (kb : KnowledgeBase) (atom : Atom) : Proposition → Fact
  | .word w =>
    { atom
      proposition := w
      predicate := none
      args := []
      quiet := false
      implicitSubject := false
      existence := false
      argIsSort := false }
  | .call c =>
    let predicate? := (kb.predicateNamed? c.predicate).map kb.predicate
    { atom
      proposition := c.text
      predicate := some c.predicate
      args := c.args
      quiet := predicate?.any Predicate.quiet
      implicitSubject := predicate?.any Predicate.implicitSubject
      existence := kb.existence.any fun p => (kb.predicate p).name == c.predicate
      argIsSort := c.args.any Term.isSort }

/-- The entity that the fact is about, if its first argument is one. -/
def subject? (f : Fact) : Option String :=
  match f.args.head? with
  | some (.entity e) => some e
  | _ => none

/-- Whether a summary leaves the fact out. -/
def silent (f : Fact) : Bool := f.quiet || f.existence

/-- The fact in the line of its subject: the predicate, and the other argument of two. -/
def item (f : Fact) : String :=
  let predicate := f.predicate.getD f.proposition
  match f.args with
  | [_, other] => predicate ++ " " ++ other.text
  | _ => predicate

/-- The fact as an object. Its atom is left out. -/
def toJson (f : Fact) : Json :=
  .obj [
    ("proposition", .str f.proposition),
    ("predicate", f.predicate.elim .null .str),
    ("args", .arr (f.args.map Term.toJson)),
    ("quiet", .bool f.quiet),
    ("implicit_subject", .bool f.implicitSubject),
    ("existence", .bool f.existence),
    ("arg_is_sort", .bool f.argIsSort)]

end Fact

/-- The facts about an entity, by their positions. -/
structure Group where
  entity : String
  sort : String
  facts : List Nat
  deriving DecidableEq, Repr, Inhabited

namespace Group

def toJson (g : Group) : Json :=
  .obj [
    ("entity", .str g.entity),
    ("sort", .str g.sort),
    ("facts", .arr (g.facts.map fun i : Nat => .num i))]

end Group

/-- A model of a world, with its facts in order. -/
structure Snapshot where
  model : Model
  facts : List Fact
  groups : List Group
  /-- The facts that belong to no group, by their positions. -/
  other : List Nat
  summary : String
  deriving DecidableEq, Repr, Inhabited

namespace Snapshot

/-- The propositions that are true in a model, as facts in the order of their atoms. -/
def factsOf (kb : KnowledgeBase) (atoms : Atoms) (m : Model) : List Fact :=
  m.trueAtoms.filterMap fun a => (atoms.name? a).map (Fact.ofProposition kb a)

/-- The positions of the facts that satisfy a test. -/
def positions (test : Fact → Bool) (facts : List Fact) : List Nat :=
  (facts.zipIdx.filter fun e => test e.1).map Prod.snd

/-- The group of each entity that has a fact. -/
def groupsOf (kb : KnowledgeBase) (facts : List Fact) : List Group :=
  kb.entities.toList.filterMap fun (entity, sort) =>
    match positions (fun f => f.subject? == some entity) facts with
    | [] => none
    | indices => some ⟨entity, kb.taxonomy.name sort, indices⟩

/-- The positions that no group has. -/
def ungrouped (groups : List Group) (count : Nat) : List Nat :=
  (List.range count).filter fun i => groups.all fun g => !g.facts.contains i

/-- The article that goes before a noun. -/
def article (noun : String) : String :=
  match noun.toList.head? with
  | some c => if c ∈ ['a', 'e', 'i', 'o', 'u'] then "an" else "a"
  | none => "a"

/-- The facts at the positions that a summary does not leave out. -/
def spoken (facts : List Fact) (indices : List Nat) : List Fact :=
  (indices.filterMap fun i => facts[i]?).filter fun f => !f.silent

def groupLine (facts : List Fact) (g : Group) : String :=
  match (spoken facts g.facts).map Fact.item with
  | [] => "You have " ++ article g.sort ++ " " ++ g.sort ++ " (" ++ g.entity ++ ")."
  | items => g.entity ++ " (" ++ g.sort ++ "): " ++ String.intercalate ", " items ++ "."

/-- The last line, for the facts that belong to no group, if any of them is not left out. -/
def otherLines (facts : List Fact) (other : List Nat) : List String :=
  match (spoken facts other).map Fact.proposition with
  | [] => []
  | items => ["Also: " ++ String.intercalate ", " items ++ "."]

def summaryLines (facts : List Fact) (groups : List Group) (other : List Nat) : List String :=
  groups.map (groupLine facts) ++ otherLines facts other

def ofModel (kb : KnowledgeBase) (atoms : Atoms) (m : Model) : Snapshot :=
  let facts := factsOf kb atoms m
  let groups := groupsOf kb facts
  let other := ungrouped groups facts.length
  { model := m
    facts
    groups
    other
    summary := String.intercalate "\n" (summaryLines facts groups other) }

def holds (s : Snapshot) (l : Literal) : Bool := s.model.holds l

/-- The first fact whose proposition has that text. -/
def fact? (s : Snapshot) (proposition : String) : Option Fact :=
  s.facts.find? fun f => f.proposition == proposition

def group? (s : Snapshot) (entity : String) : Option Group :=
  s.groups.find? fun g => g.entity == entity

/-- The snapshot as an object. Its model is left out. -/
def toJson (s : Snapshot) : Json :=
  .obj [
    ("facts", .arr (s.facts.map Fact.toJson)),
    ("groups", .arr (s.groups.map Group.toJson)),
    ("other", .arr (s.other.map fun i : Nat => .num i)),
    ("summary", .str s.summary)]

end Snapshot

end Storyworld
