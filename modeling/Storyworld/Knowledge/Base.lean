import Storyworld.Knowledge.Domain
import Storyworld.Logic.Valuation

namespace Storyworld

/-!
# The knowledge base

Sorts, entities and predicates. Every entity is bound to one sort, by declaration or
when it is first used, and stays bound to it. A relation leads from a more specific
predicate to a more general one; nothing is asserted when it is declared, but when
the specific predicate is called.
-/

abbrev PredicateId := Nat

/-- A predicate with what has been made of it so far. -/
structure Predicate where
  name : String
  signature : Signature
  /-- The arguments the predicate has been called on. -/
  domain : Domain := {}
  /-- The atoms that say the predicate holds of some member of a sort. -/
  existentials : List (SortId × Nat) := []
  /-- Facts of a quiet predicate are left out of summaries. -/
  quiet : Bool := false
  /-- Whether the subject of a fact goes without saying. -/
  implicitSubject : Bool := false
  deriving Inhabited

/-- How a specific predicate bears on a general one. -/
inductive RelationKind where
  /-- The specific predicate implies the general one. -/
  | generalization
  /-- The specific predicate is one way for the general one to hold, and the general one holds
  only in such ways. -/
  | strong
  /-- The specific predicate implies that the general one does not hold. -/
  | negative
  deriving DecidableEq, Repr, Inhabited

structure Relation where
  kind : RelationKind
  specific : PredicateId
  general : PredicateId
  deriving DecidableEq, Repr, Inhabited

structure KnowledgeBase where
  taxonomy : Taxonomy
  /-- The entities with their sorts, in the order they were registered. -/
  entities : Array (String × SortId) := #[]
  predicates : Array Predicate := #[]
  relations : List Relation := []
  /-- The predicate that says an entity exists. -/
  existence : Option PredicateId := none
  deriving Inhabited

namespace KnowledgeBase

def ofRoot (name : String) : KnowledgeBase := { taxonomy := Taxonomy.ofRoot name }

/-! ### Entities -/

/-- The sort an entity is bound to, if it is registered. -/
def sortOf? (kb : KnowledgeBase) (entity : String) : Option SortId :=
  (kb.entities.find? fun e => e.1 == entity).map Prod.snd

/-- The entities in the order they were registered. -/
def entityNames (kb : KnowledgeBase) : List String := kb.entities.toList.map Prod.fst

/-- Registers an entity as the last instance of a sort. -/
def bind (kb : KnowledgeBase) (entity : String) (sort : SortId) : KnowledgeBase :=
  { kb with
    entities := kb.entities.push (entity, sort)
    taxonomy := kb.taxonomy.pushInstance sort entity }

/-- Binds an entity to a sort. To say so again changes nothing. -/
def declare (entity : String) (sort : SortId) : EStateM Error KnowledgeBase Unit := fun kb =>
  match kb.sortOf? entity with
  | none => .ok () (kb.bind entity sort)
  | some declared =>
    if declared = sort then .ok () kb
    else
      .error
        (.sortConflict entity (kb.taxonomy.name declared) (kb.taxonomy.name sort)) kb

/-- The sort of an entity, which is bound to the default if it has none. -/
def ensureSort (entity : String) (default : SortId) (kb : KnowledgeBase) :
    SortId × KnowledgeBase :=
  match kb.sortOf? entity with
  | some sort => (sort, kb)
  | none => (default, kb.bind entity default)

/-- The sort of an entity, which is bound to the default if it has none and there is one. -/
def sortOf (entity : String) (default : Option SortId) (kb : KnowledgeBase) :
    Option SortId × KnowledgeBase :=
  match default with
  | none => (kb.sortOf? entity, kb)
  | some default =>
    let (sort, kb) := kb.ensureSort entity default
    (some sort, kb)

/-- Whether an entity is of a sort, its own or one above. -/
def isA (kb : KnowledgeBase) (entity : String) (sort : SortId) : Except Error Bool :=
  match kb.sortOf? entity with
  | some declared => .ok (kb.taxonomy.isSubsort declared sort)
  | none => .error (.undeclaredSort entity)

/-- Whether the entity is registered and of the sort. -/
def belongs (kb : KnowledgeBase) (entity : String) (sort : SortId) : Bool :=
  match kb.sortOf? entity with
  | some declared => kb.taxonomy.isSubsort declared sort
  | none => false

/-- Adds a sort below the one named, and binds the instances to it. -/
def registerSort (name parent : String) (instances : List String) :
    EStateM Error KnowledgeBase SortId := do
  let kb ← get
  let parent ← ofExcept (kb.taxonomy.find parent)
  let (sort, taxonomy) ← ofExcept (kb.taxonomy.add name parent)
  set { kb with taxonomy }
  instances.forM fun entity => declare entity sort
  return sort

/-! ### Predicates -/

def predicate (kb : KnowledgeBase) (p : PredicateId) : Predicate := kb.predicates[p]?.getD default

def modifyPredicate (kb : KnowledgeBase) (p : PredicateId) (f : Predicate → Predicate) :
    KnowledgeBase :=
  { kb with predicates := kb.predicates.modify p f }

def predicateNamed? (kb : KnowledgeBase) (name : String) : Option PredicateId :=
  kb.predicates.findIdx? fun p => p.name == name

def findPredicate (kb : KnowledgeBase) (name : String) : Except Error PredicateId :=
  match kb.predicateNamed? name with
  | some p => .ok p
  | none => .error (.unknownPredicate name)

/-- Adds a predicate, unless its name is taken. -/
def definePredicate (name : String) (signature : Signature) (kb : KnowledgeBase) :
    Except Error (PredicateId × KnowledgeBase) :=
  match kb.predicateNamed? name with
  | some _ => .error (.duplicatePredicateName name)
  | none =>
    .ok (kb.predicates.size, { kb with predicates := kb.predicates.push { name, signature } })

/-- Refuses a relation of a predicate that has been called, or of predicates that take a
different number of arguments. -/
def checkRelation (kb : KnowledgeBase) (specific general : PredicateId) : Except Error Unit :=
  let specific := kb.predicate specific
  let general := kb.predicate general
  if specific.domain.size ≠ 0 then .error (.relationAfterUse specific.name)
  else if specific.signature.arity ≠ general.signature.arity then
    .error (.arityMismatch general.name general.signature.arity specific.signature.arity)
  else .ok ()

/-- Adds a relation to those that are known, if it is not one of them. -/
def addRelation (kb : KnowledgeBase) (r : Relation) : KnowledgeBase :=
  if r ∈ kb.relations then kb else { kb with relations := kb.relations ++ [r] }

def relate (kind : RelationKind) (specific general : PredicateId) (kb : KnowledgeBase) :
    Except Error KnowledgeBase := do
  kb.checkRelation specific general
  return kb.addRelation ⟨kind, specific, general⟩

/-- Declares that two predicates never hold of the same arguments. -/
def exclude (p q : PredicateId) (kb : KnowledgeBase) : Except Error KnowledgeBase := do
  kb.checkRelation p q
  kb.checkRelation q p
  return (kb.addRelation ⟨.negative, p, q⟩).addRelation ⟨.negative, q, p⟩

/-- The predicates that a predicate is related to in a way, in the order of declaration. -/
def related (kb : KnowledgeBase) (kind : RelationKind) (p : PredicateId) : List PredicateId :=
  (kb.relations.filter fun r => r.kind = kind ∧ r.specific = p).map Relation.general

/-- The predicates that are ways for a predicate to hold, in the order of declaration. -/
def strongSpecializations (kb : KnowledgeBase) (p : PredicateId) : List PredicateId :=
  (kb.relations.filter fun r => r.kind = .strong ∧ r.general = p).map Relation.specific

/-- Whether the arguments are registered entities of the sorts of a signature. -/
def fits (kb : KnowledgeBase) (signature : Signature) (args : Arguments) : Bool :=
  signature.arity == args.arity &&
    (signature.sorts.zip args.entities).all fun (sort, entity) => kb.belongs entity sort

/-- Whether the arguments are registered entities of the sorts that the predicate requires. -/
def admits (kb : KnowledgeBase) (p : PredicateId) (args : Arguments) : Bool :=
  kb.fits (kb.predicate p).signature args

/-- Sees to it that the arguments are entities of the sorts that the predicate requires. An
entity that is new is bound to the sort that is required of it. -/
def checkArguments (p : PredicateId) (args : Arguments) : EStateM Error KnowledgeBase Unit := do
  let { name, signature, .. } := (← get).predicate p
  if signature.arity ≠ args.arity then
    throw (.arityMismatch name signature.arity args.arity)
  (signature.sorts.zip args.entities).forM fun (sort, entity) => do
    let _ ← modifyGet (ensureSort entity sort)
    let kb ← get
    unless kb.belongs entity sort do
      throw (.sortMismatch name entity (kb.taxonomy.name sort))

/-! ### What holds on a model -/

/-- The arguments in the domain of a predicate of which it holds, in the order of the calls. -/
def trueArguments (kb : KnowledgeBase) (p : PredicateId) (m : Model) : List Arguments :=
  ((kb.predicate p).domain.toList.filter fun e => m.holds (Literal.pos e.2)).map Prod.fst

/-- Those arguments that are of the sorts of a signature. -/
def extension (kb : KnowledgeBase) (p : PredicateId) (signature : Signature) (m : Model) :
    List Arguments :=
  (kb.trueArguments p m).filter (kb.fits signature)

/-- The entities that `left` stands in the relation to. -/
def rightRelata (kb : KnowledgeBase) (p : PredicateId) (left : String) (m : Model) :
    List String :=
  (kb.trueArguments p m).filterMap fun
    | .two l r => if l = left then some r else none
    | .one _ => none

/-- The entities that stand in the relation to `right`. -/
def leftRelata (kb : KnowledgeBase) (p : PredicateId) (right : String) (m : Model) :
    List String :=
  (kb.trueArguments p m).filterMap fun
    | .two l r => if r = right then some l else none
    | .one _ => none

end KnowledgeBase

end Storyworld
