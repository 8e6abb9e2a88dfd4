import Storyworld.Knowledge.Base
import Storyworld.Solver.Cardinality

namespace Storyworld

/-!
# Grounding predicates

A knowledge base together with the solver that its propositions live in. To call a
predicate on arguments is to fetch the atom of the proposition. The first call also
puts the arguments into the domain of the predicate and asserts what relates the
proposition to others:

* it implies each generalization on the same arguments;
* for each strong generalization, it is the body of a rule, and the other strong
  specializations that admit the arguments are called as well;
* it excludes each negative generalization that admits the arguments;
* it is the body of a rule for each existential of the predicate over a sort that the
  argument belongs to.

If something along the way is refused, the arguments are taken out of the domain
again, and a later call starts afresh.

The existential of a unary predicate over a sort holds exactly when the predicate
holds of some member of the sort. Its rules come from the existentials over the
subsorts and from the instances called before; later calls add theirs.
-/

structure Grounding (ρ : Type) where
  base : KnowledgeBase
  solver : Solver ρ

namespace Grounding

variable {ρ : Type}

instance [Inhabited ρ] : Inhabited (Grounding ρ) := ⟨⟨default, default⟩⟩

def onSolver {α : Type} (act : EStateM Error (Solver ρ) α) : EStateM Error (Grounding ρ) α :=
  fun g =>
    match act g.solver with
    | .ok a s => .ok a { g with solver := s }
    | .error e s => .error e { g with solver := s }

def onBase {α : Type} (act : EStateM Error KnowledgeBase α) : EStateM Error (Grounding ρ) α :=
  fun g =>
    match act g.base with
    | .ok a kb => .ok a { g with base := kb }
    | .error e kb => .error e { g with base := kb }

/-- The atom of a proposition, made when there is none. -/
def proposition (p : Proposition) : EStateM Error (Grounding ρ) Atom :=
  onSolver (modifyGet (Solver.proposition · p))

def modifyPredicate (p : PredicateId) (f : Predicate → Predicate) :
    EStateM Error (Grounding ρ) Unit :=
  modify fun g => { g with base := g.base.modifyPredicate p f }

def assert (c : Constraint) : EStateM Error (Grounding ρ) Unit := onSolver (Solver.assert c)

/-- Asserts what relates a new call to the predicates that its predicate is related to. `call`
calls another predicate on the same arguments. -/
def relateCall (call : PredicateId → EStateM Error (Grounding ρ) Atom) (p : PredicateId)
    (args : Arguments) (atom : Atom) : EStateM Error (Grounding ρ) Unit := do
  let this := Literal.pos atom
  ((← get).base.related .generalization p).forM fun g => do
    let general ← call g
    assert (.implication this (Literal.pos general))
  ((← get).base.related .strong p).forM fun g => do
    let head ← call g
    assert (.rule head [this])
    ((← get).base.strongSpecializations g).forM fun specific => do
      if specific ≠ p && (← get).base.admits specific args then
        let _ ← call specific
  ((← get).base.related .negative p).forM fun g => do
    if (← get).base.admits g args then
      let other ← call g
      onSolver (Solver.inconsistent this (Literal.pos other))
  match args with
  | .two _ _ => pure ()
  | .one entity =>
    ((← get).base.predicate p).existentials.forM fun (sort, head) => do
      if ← ofExcept ((← get).base.isA entity sort) then
        assert (.rule head [this])

/-- Puts arguments into the domain of a predicate, with the atom of the proposition. -/
def enter (p : PredicateId) (args : Arguments) : EStateM Error (Grounding ρ) Atom := do
  let name := ((← get).base.predicate p).name
  let atom ← proposition (.call ⟨name, args.terms⟩)
  modifyPredicate p fun q => { q with domain := (q.domain.insert args atom).2 }
  return atom

/-- Takes arguments out of the domain of a predicate again, for the reason given. -/
def withdraw (p : PredicateId) (args : Arguments) (e : Error) :
    EStateM Error (Grounding ρ) Unit := do
  modifyPredicate p fun q => { q with domain := (q.domain.remove args).2 }
  throw e

/-- Calls a predicate; calls that it leads to go at most that deep. -/
def callWithin : Nat → Arguments → PredicateId → EStateM Error (Grounding ρ) Atom
  | depth, args, p => do
    onBase (KnowledgeBase.checkArguments p args)
    match ((← get).base.predicate p).domain.get? args with
    | some atom => return atom
    | none =>
      let atom ← enter p args
      match depth with
      | 0 => return atom
      | depth + 1 =>
        tryCatch (relateCall (callWithin depth args) p args atom) (withdraw p args)
        return atom

/-- Calls a predicate on arguments, and gives the atom of the proposition. Each call on the way
puts the arguments into one more domain, so there are no more than there are predicates. -/
def call (p : PredicateId) (args : Arguments) : EStateM Error (Grounding ρ) Atom := do
  callWithin (← get).base.predicates.size args p

def openExistential (p : PredicateId) (sort : SortId) : EStateM Error (Grounding ρ) Atom := do
  let base := (← get).base
  let head ← proposition (.ofSort (base.predicate p).name (base.taxonomy.name sort))
  onSolver (Solver.addHead head)
  modifyPredicate p fun q => { q with existentials := q.existentials ++ [(sort, head)] }
  return head

/-- The existential of a predicate over a sort. When it is new, `descend` gives it the rules for
the subsorts, and there is one more for each instance that was called before. -/
def existentialFrom (descend : Atom → EStateM Error (Grounding ρ) Unit) (p : PredicateId)
    (sort : SortId) : EStateM Error (Grounding ρ) Atom := do
  let q := (← get).base.predicate p
  if q.signature.arity ≠ 1 then
    throw (.arityMismatch q.name q.signature.arity 1)
  else
    match q.existentials.lookup sort with
    | some head => return head
    | none =>
      let head ← openExistential p sort
      descend head
      let base := (← get).base
      let instances := (base.predicate p).domain.toList.filter fun e =>
        base.sortOf? e.1.subject == some sort
      instances.forM fun e => assert (.rule head [Literal.pos e.2])
      return head

/-- The existential of a predicate over a sort; those over subsorts go at most that deep. -/
def existentialWithin : Nat → PredicateId → SortId → EStateM Error (Grounding ρ) Atom
  | 0, p, sort => existentialFrom (fun _ => pure ()) p sort
  | depth + 1, p, sort =>
    existentialFrom (fun head => do
      ((← get).base.taxonomy.subsorts sort).forM fun subsort => do
        let body ← existentialWithin depth p subsort
        assert (.rule head [Literal.pos body])) p sort

/-- The atom that says a unary predicate holds of some member of a sort. Subsorts nest no
deeper than there are sorts. -/
def existential (p : PredicateId) (sort : SortId) : EStateM Error (Grounding ρ) Atom := do
  existentialWithin (← get).base.taxonomy.size p sort

end Grounding

end Storyworld
