import Storyworld.Error

namespace Storyworld

/-!
# The taxonomy of sorts

Sorts form a tree under one universal sort. They are numbered in the order they were
added, the root being `0`, and are never removed; so a sort always has a larger number
than its parent. The members of a sort are its instances followed by the members of
its subsorts in order: the tree is walked from the top down.
-/

abbrev SortId := Nat

/-- A sort. Only the root has no parent. -/
structure SortEntry where
  name : String
  parent : Option SortId := none
  subsorts : List SortId := []
  instances : List String := []
  deriving DecidableEq, Repr, Inhabited

structure Taxonomy where
  sorts : Array SortEntry
  deriving DecidableEq, Repr, Inhabited

namespace Taxonomy

def ofRoot (name : String) : Taxonomy := ⟨#[{ name }]⟩

/-- The universal sort. -/
def root : SortId := (0 : Nat)

def size (t : Taxonomy) : Nat := t.sorts.size

/-- The sort of a number. A number that no sort has gives a sort without a name. -/
def entry (t : Taxonomy) (s : SortId) : SortEntry := t.sorts[s]?.getD default

def name (t : Taxonomy) (s : SortId) : String := (t.entry s).name

/-- The sort above, for every sort but the root. -/
def parent? (t : Taxonomy) (s : SortId) : Option SortId := (t.entry s).parent

/-- The sorts directly below, in the order they were added. -/
def subsorts (t : Taxonomy) (s : SortId) : List SortId := (t.entry s).subsorts

/-- The entities bound to the sort itself, in the order they were added. -/
def instances (t : Taxonomy) (s : SortId) : List String := (t.entry s).instances

def named? (t : Taxonomy) (name : String) : Option SortId :=
  t.sorts.findIdx? fun s => s.name == name

def find (t : Taxonomy) (name : String) : Except Error SortId :=
  match t.named? name with
  | some s => .ok s
  | none => .error (.unknownSort name)

/-- Adds a sort as the last one below its parent, unless its name is taken. -/
def add (t : Taxonomy) (name : String) (parent : SortId) : Except Error (SortId × Taxonomy) :=
  match t.named? name with
  | some _ => .error (.duplicateSortName name)
  | none =>
    let s := t.sorts.size
    let sorts := t.sorts.push { name, parent := some parent }
    .ok (s, ⟨sorts.modify parent fun e => { e with subsorts := e.subsorts ++ [s] }⟩)

/-- Adds an instance to a sort as its last one. -/
def pushInstance (t : Taxonomy) (s : SortId) (entity : String) : Taxonomy :=
  ⟨t.sorts.modify s fun e => { e with instances := e.instances ++ [entity] }⟩

/-- The sort and the sorts above it, at most that many. -/
def ancestorsWithin (t : Taxonomy) : Nat → SortId → List SortId
  | 0, _ => []
  | n + 1, s =>
    match t.parent? s with
    | none => [s]
    | some p => s :: ancestorsWithin t n p

/-- The sort and every sort above it, the root last. -/
def ancestors (t : Taxonomy) (s : SortId) : List SortId := t.ancestorsWithin t.size s

/-- Whether a sort is another one or lies below it. -/
def isSubsort (t : Taxonomy) (s general : SortId) : Bool := decide (general ∈ t.ancestors s)

/-- An iteration over the members of a sort: its instances, and then the members of the sorts
below it. -/
structure Members where
  /-- The sort that is walked, and the place of its next instance. -/
  current : Option (SortId × Nat)
  /-- The sorts that are still to be walked, the next one first. -/
  pending : List SortId
  deriving DecidableEq, Repr, Inhabited

namespace Members

def ofSort (t : Taxonomy) (s : SortId) : Members := ⟨some (s, 0), t.subsorts s⟩

/-- Goes on to the next sort. Those below it come before the others. -/
def goOn (t : Taxonomy) (m : Members) : Members :=
  match m.pending with
  | [] => { m with current := none }
  | s :: rest => ⟨some (s, 0), t.subsorts s ++ rest⟩

/-- The next member, with the iteration after it, unless that is over. It is looked for in that
many turns. -/
def nextUpTo (t : Taxonomy) : Nat → Members → Option (Option (String × Members))
  | 0, _ => none
  | n + 1, m =>
    match m.current with
    | none => some none
    | some (s, i) =>
      match (t.instances s)[i]? with
      | some e => some (some (e, { m with current := some (s, i + 1) }))
      | none => nextUpTo t n (m.goOn t)

/-- The members that are still to come. -/
def collectUpTo (t : Taxonomy) : Nat → Members → Option (List String)
  | 0, _ => none
  | n + 1, m =>
    match m.nextUpTo t (n + 1) with
    | none => none
    | some none => some []
    | some (some (e, m)) => (collectUpTo t n m).map (e :: ·)

end Members

/-- The turns it takes to walk some sorts: one for each instance, and one to leave each sort. -/
def weight (t : Taxonomy) (sorts : List SortId) : Nat :=
  (sorts.flatMap t.instances).length + sorts.length

/-- The members of a sort. No iteration takes more turns than it takes to walk all the sorts. -/
def members (t : Taxonomy) (s : SortId) : List String :=
  ((Members.ofSort t s).collectUpTo t (t.weight (List.range t.size) + 1)).getD []

end Taxonomy

end Storyworld
