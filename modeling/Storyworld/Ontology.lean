import Storyworld.Phrase.Grammar

namespace Storyworld.Ontology

/-!
# The standard ontology

Sorts and predicates for a world of people, as tables, and the knowledge base and
grammar that come from them.
-/

def rootName : String := "entity"

/-- The sorts below the root, each with its parent and its instances. -/
def sorts : List (String × String × List String) :=
  [("person", rootName, []),
    ("intimate", "person", []),
    ("friend", "intimate", []),
    ("loved_one", "intimate", ["lover", "pet"]),
    ("family", "loved_one", []),
    ("parent", "family", ["mother", "father"]),
    ("sibling", "family", ["brother", "sister"])]

/-- The predicates, each with the sort of its argument and its patterns. -/
def predicates : List (String × String × List String) :=
  [("exists", "person", ["_ exists"]),
    ("likes", "entity", ["likes _"]),
    ("dislikes", "entity", ["dislikes _"]),
    ("loves", "person", ["loves _"]),
    ("hates", "person", ["hates _"]),
    ("alcoholic", "person", ["alcoholic _"]),
    ("abusive", "person", ["abusive _"]),
    ("tastes", "entity", ["_ tastes"]),
    ("living", "person", ["_ is alive", "living _"]),
    ("dead", "person", ["_ is dead", "_ dead", "dead _"])]

/-- The predicate that says an entity exists. -/
def existence : String := "exists"

/-- How two predicates are declared to be related. -/
inductive Link where
  | relates (kind : RelationKind)
  | excludes

/-- The relations in the order they are declared. -/
def links : List (String × Link × String) :=
  [("likes", .excludes, "dislikes"),
    ("loves", .relates .generalization, "likes"),
    ("loves", .relates .generalization, "exists"),
    ("hates", .relates .generalization, "dislikes"),
    ("hates", .relates .generalization, "exists"),
    ("alcoholic", .relates .generalization, "exists"),
    ("loves", .excludes, "hates"),
    ("abusive", .relates .generalization, "hates"),
    ("living", .relates .strong, "exists"),
    ("dead", .relates .strong, "exists"),
    ("living", .excludes, "dead")]

/-- Adds a unary predicate and its patterns. -/
def addPredicate (kb : KnowledgeBase) (g : Grammar) (name sort : String) (patterns : List String) :
    Except Error (KnowledgeBase × Grammar) := do
  let sort ← kb.taxonomy.find sort
  let (p, kb) ← kb.definePredicate name (.unary sort)
  let g ← patterns.foldlM (fun g pattern => g.add kb p pattern) g
  return (kb, g)

/-- Declares a relation between predicates given by name. -/
def addLink (kb : KnowledgeBase) (specific : String) (link : Link) (general : String) :
    Except Error KnowledgeBase := do
  let specific ← kb.findPredicate specific
  let general ← kb.findPredicate general
  match link with
  | .relates kind => kb.relate kind specific general
  | .excludes => kb.exclude specific general

def addSort (kb : KnowledgeBase) (name parent : String) (instances : List String) :
    Except Error KnowledgeBase :=
  match KnowledgeBase.registerSort name parent instances kb with
  | .ok _ kb => .ok kb
  | .error e _ => .error e

/-- The knowledge base and the grammar of the tables. -/
def standard : Except Error (KnowledgeBase × Grammar) := do
  let kb ← sorts.foldlM (fun kb (name, parent, instances) => addSort kb name parent instances)
    (KnowledgeBase.ofRoot rootName)
  let (kb, g) ← predicates.foldlM
    (fun (kb, g) (name, sort, patterns) => addPredicate kb g name sort patterns) (kb, {})
  let p ← kb.findPredicate existence
  let kb ← links.foldlM (fun kb (specific, link, general) => addLink kb specific link general)
    { kb with existence := some p }
  return (kb, g)

end Storyworld.Ontology
